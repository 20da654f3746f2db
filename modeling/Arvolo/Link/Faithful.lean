import Arvolo.Crypto.Wire
import Arvolo.Link.Container
import Arvolo.Upload.Ranges

/-!
The container of a link is faithful: it opens to the file and the name it was made of,
and under an ideal cipher whatever the reader accepts under its key does.

The reader takes the number of chunks from the clear header, but only through the
associated data of the sealed name, so that an altered header is refused or harmless.
Both halves hold exactly while the two counts of the format fit their 32 bits.
-/

namespace Arvolo.Link

open Crypto Send Upload Lib

/-- The fields of a header fit their words. -/
structure Header.Fits (h : Header) : Prop where
  chunkSize : h.chunkSize < 2 ^ 32
  size : h.size < 2 ^ 64
  metaCt : h.metaCt.length < 2 ^ 32

theorem readHeader_eq_some {blob rest : Bytes} {h : Header} :
    readHeader blob = some (h, rest) ↔ blob = h.bytes ++ rest ∧ h.Fits := by
  simp only [readHeader, Option.bind_eq_bind, Option.bind_eq_some_iff, Option.pure_def,
    Option.some.injEq, guard_eq_some, take?_eq_some, word_eq_some, Prod.mk.injEq, Prod.exists]
  constructor
  · rintro ⟨lead, c, ⟨rfl, -⟩, -, hmagic, cs, c₁, ⟨rfl, hcs⟩, size, c₂, ⟨rfl, hsize⟩, len, c₃,
      ⟨rfl, hlen⟩, ct, c₄, ⟨rfl, rfl⟩, rfl, rfl⟩
    exact ⟨by simp [Header.bytes, hmagic], ⟨hcs, hsize, hlen⟩⟩
  · rintro ⟨rfl, hfits⟩
    refine ⟨magic, _, ⟨by simp only [Header.bytes, List.append_assoc], rfl⟩, (), rfl, _, _,
      ⟨rfl, hfits.chunkSize⟩, _, _, ⟨rfl, hfits.size⟩, _, _, ⟨rfl, hfits.metaCt⟩, _, _, ⟨rfl, rfl⟩,
      rfl, rfl⟩

/-! ### The plaintext of a layout -/

section

variable (l : SealedLayout)

/-- The plaintext of the chunks from `i` on. -/
def contentFrom (i : ℕ) : Bytes :=
  (List.range' i (l.totalChunks - i)).flatMap (plainUnit l)

theorem contentFrom_succ {i : ℕ} (hi : i < l.totalChunks) :
    contentFrom l i = plainUnit l i ++ contentFrom l (i + 1) := by
  have hn : l.totalChunks - i = (l.totalChunks - (i + 1)) + 1 := by omega
  simp only [contentFrom, hn, List.range'_succ, List.flatMap_cons]

theorem contentFrom_of_le {i : ℕ} (h : l.totalChunks ≤ i) : contentFrom l i = [] := by
  simp [contentFrom, Nat.sub_eq_zero_of_le h]

variable {l}

theorem plainUnit_append (hcount : l.totalChunks = 0 ∧ l.size = 0 ∨ l.Fits)
    (hsource : l.size = l.source.length) {i : ℕ} (hi : i < l.totalChunks) :
    plainUnit l i ++ l.source.drop ((i + 1) * l.chunkSize) = l.source.drop (i * l.chunkSize) := by
  have hfits := hcount.resolve_left fun h => absurd h.1 (by omega)
  have hupper := hfits.upper
  have htake : l.source.drop ((i + 1) * l.chunkSize) =
      (l.source.drop (i * l.chunkSize)).drop l.chunkSize := by
    rw [List.drop_drop, Nat.succ_mul]
  have hlen : (l.source.drop (i * l.chunkSize)).length = l.size - i * l.chunkSize := by
    rw [List.length_drop, hsource]
  rw [htake]
  by_cases hlast : i + 1 = l.totalChunks
  · -- the last chunk is whatever is left
    have hrest : l.unitLen i - tag - l.framing = l.size - i * l.chunkSize := by
      simp only [Layout.unitLen, if_pos hlast]
      omega
    have hend : l.size - i * l.chunkSize ≤ l.chunkSize := by
      rw [← hlast, Nat.succ_mul] at hupper
      omega
    have hnone : (l.source.drop (i * l.chunkSize)).drop l.chunkSize = [] :=
      List.drop_of_length_le (by rw [hlen]; exact hend)
    rw [plainUnit, hrest, hnone, List.append_nil, List.take_of_length_le hlen.le]
  · have hrest : l.unitLen i - tag - l.framing = l.chunkSize := by
      simp only [Layout.unitLen, if_neg hlast]
      omega
    rw [plainUnit, hrest, List.take_append_drop]

theorem contentFrom_eq_drop (hcount : l.totalChunks = 0 ∧ l.size = 0 ∨ l.Fits)
    (hsource : l.size = l.source.length) {i : ℕ} (hi : i ≤ l.totalChunks) :
    contentFrom l i = l.source.drop (i * l.chunkSize) := by
  -- from the last chunk back
  induction hn : l.totalChunks - i generalizing i with
  | zero =>
      have hsize : l.source.length ≤ i * l.chunkSize := by
        rcases hcount with ⟨-, hzero⟩ | hfits
        · omega
        · have hupper := hfits.upper
          rwa [hsource, show l.totalChunks = i by omega] at hupper
      rw [contentFrom_of_le l (by omega), List.drop_of_length_le hsize]
  | succ n ih =>
      have hi' : i < l.totalChunks := by omega
      rw [contentFrom_succ l hi', ih (by omega) (by omega),
        plainUnit_append hcount hsource hi']

end

/-! ### Reading a container that was sealed -/

section

variable {aead : Aead} {l : SealedLayout} (haead : aead.Lawful)

include haead

/-- A chunk as it stands in the container. -/
theorem unit_eq (hframed : l.lenPrefixed = true) {i : ℕ} {u : Bytes}
    (hu : l.unit aead i = some u) :
    ∃ ct, u = leBytes 4 ct.length ++ ct ∧ ct.length = (plainUnit l i).length + tag ∧
      openChunk aead l.key i l.totalChunks ct = some (plainUnit l i) := by
  simp only [Layout.unit, sealChunk] at hu
  split_ifs at hu with hfull
  obtain ⟨ct, hct, rfl⟩ := Option.map_eq_some_iff.1 hu
  refine ⟨ct, ?_, haead.length_encrypt hct, haead.decrypt_encrypt hct⟩
  rw [Layout.frame, if_pos hframed, u32le_eq]

theorem openChunks_chunksFrom (hframed : l.lenPrefixed = true)
    (hunits : ∀ i < l.totalChunks, (l.unit aead i).isSome = true)
    (hsmall : ∀ i < l.totalChunks, (plainUnit l i).length + tag < 2 ^ 32) {n i : ℕ}
    (hn : i + n = l.totalChunks) :
    openChunks aead l.key l.totalChunks n i (l.chunksFrom aead i) = some (contentFrom l i) := by
  induction n generalizing i with
  | zero => rw [openChunks, contentFrom_of_le l (by omega)]
  | succ n ih =>
      have hi : i < l.totalChunks := by omega
      obtain ⟨u, hu⟩ := Option.isSome_iff_exists.1 (hunits i hi)
      obtain ⟨ct, rfl, hlen, hopen⟩ := unit_eq haead hframed hu
      have hword : ct.length < 256 ^ 4 := by
        rw [hlen]
        exact hsmall i hi
      have hrest := ih (i := i + 1) (by omega)
      rw [Layout.chunksFrom_succ aead l.toLayout hi, hu, Option.getD_some, List.append_assoc,
        contentFrom_succ l hi]
      simp only [openChunks, word_leBytes hword, take?_append, hopen, hrest, Option.bind_eq_bind,
        Option.bind_some, Option.pure_def]

end

/-- Under an ideal cipher the ciphertexts in `blob` that open under the key are the sealed
name and the sealed chunks, each as the unit it was sealed as. -/
def Unforged (aead : Aead) (l : SealedLayout) (name blob : Bytes) : Prop :=
  ∀ c, c <:+: blob → ∀ idx total m, idx < 2 ^ 32 → total < 2 ^ 32 →
    openChunk aead l.key idx total c = some m →
      total = l.totalChunks ∧ sealChunk aead l.key idx total m = some c ∧
        (idx = metaIndex ∧ m = name ∨ idx < l.totalChunks ∧ m = plainUnit l idx)

theorem openChunks_unforged {aead : Aead} {l : SealedLayout} {name blob : Bytes}
    (hblob : Unforged aead l name blob) {n i : ℕ} (hn : i + n = l.totalChunks) {c out : Bytes}
    (hc : c <:+: blob) (h : openChunks aead l.key l.totalChunks n i c = some out) :
    out = contentFrom l i := by
  have htotal := totalChunksFor_lt l.size l.chunkSize
  change l.totalChunks < 2 ^ 32 at htotal
  induction n generalizing i c out with
  | zero =>
      rw [contentFrom_of_le l (by omega)]
      exact (Option.some.inj h).symm
  | succ n ih =>
      simp only [openChunks, Option.bind_eq_bind, Option.bind_eq_some_iff, Option.pure_def,
        Option.some.injEq, word_eq_some, take?_eq_some, Prod.exists] at h
      obtain ⟨len, c₁, ⟨rfl, -⟩, ct, c₂, ⟨rfl, -⟩, pt, hpt, rest, hrest, rfl⟩ := h
      have hct : ct <:+: blob := .trans ⟨leBytes 4 len, c₂, by simp⟩ hc
      have htail : c₂ <:+: blob := .trans ⟨leBytes 4 len ++ ct, [], by simp⟩ hc
      obtain ⟨-, -, hunit⟩ := hblob ct hct i l.totalChunks pt (by omega) htotal hpt
      rw [contentFrom_succ l (by omega), ih (by omega) htail hrest]
      rcases hunit with ⟨hmeta, -⟩ | ⟨-, rfl⟩
      · unfold metaIndex at hmeta
        omega
      · rfl

/-- What the reader makes of a blob with no forged ciphertext in it. -/
theorem accepted_unforged {aead : Aead} (haead : aead.Lawful) {l : SealedLayout}
    {name blob : Bytes} (hblob : Unforged aead l name blob) {o : Opened}
    (h : openWith aead l.key Header.total blob = some o) :
    o.name = name ∧ o.content = contentFrom l 0 ∧ name.length + tag < 2 ^ 32 := by
  simp only [openWith, Option.bind_eq_bind, Option.bind_eq_some_iff, Option.pure_def,
    Option.some.injEq, readHeader_eq_some, Prod.exists] at h
  obtain ⟨h, c, ⟨rfl, hfits⟩, n, hn, out, hout, rfl⟩ := h
  have hmeta : h.metaCt <:+: h.bytes ++ c :=
    ⟨magic ++ leBytes 4 h.chunkSize ++ leBytes 8 h.size ++ leBytes 4 h.metaCt.length, c, rfl⟩
  have hrest : c <:+: h.bytes ++ c := ⟨h.bytes, [], by simp⟩
  obtain ⟨htotal, hseal, hunit⟩ :=
    hblob h.metaCt hmeta metaIndex h.total n (by decide) (totalChunksFor_lt _ _) hn
  rw [htotal] at hout
  have hcontent := openChunks_unforged hblob (Nat.zero_add _) hrest hout
  have hlt : l.totalChunks < 2 ^ 32 := totalChunksFor_lt l.size l.chunkSize
  rcases hunit with ⟨-, rfl⟩ | ⟨hidx, -⟩
  · have hlen := haead.length_encrypt hseal
    exact ⟨rfl, hcontent, hlen ▸ hfits.metaCt⟩
  · unfold metaIndex at hidx
    omega

/-! ### Faithfulness -/

section

variable (prims : Prims) (key : Bytes) (name : String) (bytes : Bytes)

/-- The container of a file: `link_layout`, with the length of the file as its size. -/
def container : Option SealedLayout :=
  (Sealing.link key name bytes.length).layout prims bytes

/-- The bytes of a file name. -/
def nameBytes : Bytes := name.toUTF8.data.toList

structure Faithful : Prop where
  /-- The container exists and opens to what it was made of. -/
  roundTrip : ∃ l v, container prims key name bytes = some l ∧ l.toVec prims.aead = some v ∧
    decryptLink prims.aead key v = .ok (name, bytes)
  /-- Whatever the reader accepts under the key is what was sealed. -/
  sound : ∀ l, container prims key name bytes = some l → ∀ blob,
    Unforged prims.aead l (nameBytes name) blob →
      ∀ r, decryptLink prims.aead key blob = .ok r → r = (name, bytes)

/-- The counts of the container fit the words they are kept in. -/
structure InWords : Prop where
  chunks : (bytes.length + (linkChunkSize - 1)) / linkChunkSize < 2 ^ 32
  metaLen : (nameBytes name).length + tag < 2 ^ 32

theorem linkChunkSize_pos : 0 < linkChunkSize := by decide

theorem linkChunkSize_lt : linkChunkSize < 2 ^ 32 := by decide

/-- The container with the name sealed as `ct`. -/
def layoutOf (ct : Bytes) : SealedLayout :=
  ⟨⟨bytes, key, linkChunkSize, bytes.length, Header.bytes ⟨linkChunkSize, bytes.length, ct⟩, true,
    linkChunkSize_pos, linkChunkSize_lt⟩, .inr rfl⟩

variable {prims key name bytes}

theorem container_eq_some {l : SealedLayout} : container prims key name bytes = some l ↔
    ∃ ct, sealChunk prims.aead key metaIndex (totalChunksFor bytes.length linkChunkSize)
      (nameBytes name) = some ct ∧ layoutOf key bytes ct = l := by
  simp only [container, Sealing.layout, Sealing.header, Option.bind_eq_bind,
    Option.bind_eq_some_iff, Option.pure_def, Option.some.injEq, u32le_eq, u64le_eq]
  constructor
  · rintro ⟨-, ⟨ct, hct, rfl⟩, rfl⟩
    exact ⟨ct, hct, rfl⟩
  · rintro ⟨ct, hct, rfl⟩
    exact ⟨_, ⟨ct, hct, rfl⟩, rfl⟩

theorem fromUtf8_nameBytes (name : String) : fromUtf8 (nameBytes name) = some name :=
  dif_pos name.isValidUTF8

/-- The count of the chunks was not cut. -/
theorem InWords.count (h : InWords name bytes) (ct : Bytes) :
    (layoutOf key bytes ct).totalChunks = 0 ∧ (layoutOf key bytes ct).size = 0 ∨
      (layoutOf key bytes ct).Fits :=
  Layout.fits_of_count_lt _ h.chunks

theorem InWords.content (h : InWords name bytes) (ct : Bytes) :
    contentFrom (layoutOf key bytes ct) 0 = bytes := by
  rw [contentFrom_eq_drop (h.count ct) rfl (Nat.zero_le _), Nat.zero_mul]
  rfl

theorem InWords.roundTrip (h : InWords name bytes) (haead : prims.aead.Lawful)
    (htotal : prims.aead.Total) :
    ∃ l v, container prims key name bytes = some l ∧ l.toVec prims.aead = some v ∧
      decryptLink prims.aead key v = .ok (name, bytes) := by
  have hname : (nameBytes name).length ≤ 2 ^ 36 := by
    have := h.metaLen
    omega
  obtain ⟨ct, hct⟩ := Option.isSome_iff_exists.1 (htotal key (chunkNonce metaIndex)
    (chunkAad metaIndex (totalChunksFor bytes.length linkChunkSize)) (nameBytes name) hname)
  set l := layoutOf key bytes ct with hl
  obtain ⟨v, hv⟩ := Layout.toVec_isSome (l := l.toLayout) htotal le_rfl (h.count ct)
  refine ⟨l, v, container_eq_some.2 ⟨ct, hct, rfl⟩, hv, ?_⟩
  have hsize : bytes.length < 2 ^ 64 := by
    have hchunks := h.chunks
    unfold linkChunkSize at hchunks
    omega
  have hcs : linkChunkSize < 2 ^ 32 ∧ 0 < linkChunkSize := by decide
  have hmeta : ct.length < 2 ^ 32 := haead.length_encrypt hct ▸ h.metaLen
  have hread : readHeader v = some (⟨linkChunkSize, bytes.length, ct⟩, l.chunksFrom prims.aead 0) :=
    readHeader_eq_some.2 ⟨Layout.toVec_eq hv, ⟨hcs.1, hsize, hmeta⟩⟩
  have hchunks : openChunks prims.aead key l.totalChunks l.totalChunks 0
      (l.chunksFrom prims.aead 0) = some (contentFrom l 0) := by
    refine openChunks_chunksFrom haead rfl (Layout.isSome_of_toVec hv) (fun i hi => ?_) (by omega)
    have hlen := (Layout.plain_le_chunkSize (h.count ct) hi).1
    have hunit : (plainUnit l i).length ≤ linkChunkSize := (List.length_take_le _ _).trans hlen
    unfold linkChunkSize at hunit
    unfold tag
    omega
  rw [h.content ct] at hchunks
  refine decryptLink_eq_ok.2 ⟨⟨⟨linkChunkSize, bytes.length, ct⟩, nameBytes name, bytes⟩, ?_,
    hcs.2, fromUtf8_nameBytes name, rfl, rfl⟩
  have hopen : openChunk prims.aead key metaIndex l.totalChunks ct = some (nameBytes name) :=
    haead.decrypt_encrypt hct
  simp only [openWith, hread, Option.bind_eq_bind, Option.bind_some, Option.pure_def]
  change (openChunk prims.aead key metaIndex l.totalChunks ct).bind _ = _
  rw [hopen, Option.bind_some]
  change (openChunks prims.aead key l.totalChunks l.totalChunks 0 _).bind _ = _
  rw [hchunks, Option.bind_some]

/-- What is accepted from a blob with no forged ciphertext in it. -/
theorem decryptLink_unforged (haead : prims.aead.Lawful) {l : SealedLayout}
    (hl : container prims key name bytes = some l) {blob : Bytes}
    (hblob : Unforged prims.aead l (nameBytes name) blob) {r : String × Bytes}
    (h : decryptLink prims.aead key blob = .ok r) :
    r = (name, contentFrom l 0) ∧ (nameBytes name).length + tag < 2 ^ 32 := by
  obtain ⟨ct, -, rfl⟩ := container_eq_some.1 hl
  obtain ⟨n, out⟩ := r
  obtain ⟨o, hopen, -, hname, -, hout⟩ := decryptLink_eq_ok.1 h
  obtain ⟨hn, hcontent, hlen⟩ := accepted_unforged haead hblob hopen
  rw [hn, fromUtf8_nameBytes] at hname
  exact ⟨Prod.ext (Option.some.inj hname).symm (hout ▸ hcontent), hlen⟩

/-- A container that can be built covers its file, or has no chunks at all. -/
theorem chunks_lt_of_toVec (haead : prims.aead.Lawful) {ct v : Bytes}
    (hv : (layoutOf key bytes ct).toVec prims.aead = some v)
    (hcontent : contentFrom (layoutOf key bytes ct) 0 = bytes) :
    (bytes.length + (linkChunkSize - 1)) / linkChunkSize < 2 ^ 32 := by
  have htotal : (layoutOf key bytes ct).totalChunks < 2 ^ 32 := totalChunksFor_lt _ _
  rcases SealedLayout.fits_or_zero haead (Layout.isSome_of_toVec hv) with hzero | hfits
  · rw [contentFrom_of_le _ hzero.le] at hcontent
    subst hcontent
    decide
  · have hupper : bytes.length ≤ (layoutOf key bytes ct).totalChunks * linkChunkSize := hfits.upper
    unfold linkChunkSize at hupper ⊢
    omega

/-- The container is faithful exactly if its counts fit their words. -/
theorem faithful_iff (prims : Prims) (haead : prims.aead.Lawful) (htotal : prims.aead.Total)
    (key : Bytes) (name : String) (bytes : Bytes)
    (hideal : ∀ l v, container prims key name bytes = some l → l.toVec prims.aead = some v →
      Unforged prims.aead l (nameBytes name) v) :
    Faithful prims key name bytes ↔ InWords name bytes := by
  constructor
  · intro h
    obtain ⟨l, v, hl, hv, hdec⟩ := h.roundTrip
    obtain ⟨hr, hlen⟩ := decryptLink_unforged haead hl (hideal l v hl hv) hdec
    obtain ⟨ct, -, rfl⟩ := container_eq_some.1 hl
    exact ⟨chunks_lt_of_toVec haead hv (congrArg Prod.snd hr).symm, hlen⟩
  · intro h
    refine ⟨h.roundTrip haead htotal, fun l hl blob hblob r hr => ?_⟩
    rw [(decryptLink_unforged haead hl hblob hr).1]
    obtain ⟨ct, -, rfl⟩ := container_eq_some.1 hl
    rw [h.content ct]

/-- A container without chunks opens to nothing. -/
theorem size_of_totalChunks_zero {ct v : Bytes} (hsize : bytes.length < 2 ^ 64) (hct : ct.length < 2 ^ 32)
    (hzero : (layoutOf key bytes ct).totalChunks = 0)
    (hv : (layoutOf key bytes ct).toVec prims.aead = some v) {r : String × Bytes}
    (h : decryptLink prims.aead key v = .ok r) : bytes.length = 0 := by
  have hcs : linkChunkSize < 2 ^ 32 := by decide
  have hread : readHeader v = some (⟨linkChunkSize, bytes.length, ct⟩,
      (layoutOf key bytes ct).chunksFrom prims.aead 0) :=
    readHeader_eq_some.2 ⟨Layout.toVec_eq hv, ⟨hcs, hsize, hct⟩⟩
  obtain ⟨n, out⟩ := r
  obtain ⟨o, hopen, -, -, hlen, -⟩ := decryptLink_eq_ok.1 h
  simp only [openWith, hread, Option.bind_eq_bind, Option.bind_some, Option.bind_eq_some_iff,
    Option.pure_def, Option.some.injEq] at hopen
  obtain ⟨n, -, out, hout, rfl⟩ := hopen
  have hnone : Header.total ⟨linkChunkSize, bytes.length, ct⟩ = 0 := hzero
  rw [hnone, openChunks] at hout
  obtain rfl := Option.some.inj hout
  exact hlen.symm

end

/-! ### Runs -/

def spelledPrims : Prims := ⟨spelled, id, fun _ => []⟩

/-- A container of one chunk. -/
def oneByte : SealedLayout :=
  layoutOf [9] [7] ([97] ++ spelledTag (chunkNonce metaIndex) (chunkAad metaIndex 1) [97])

def oneByteBlob : Bytes := (oneByte.toVec spelled).getD []

/-- What opens in the container of one chunk, by its tag. -/
def oneByteUnit (c : Bytes) : Bool :=
  let m := c.take (c.length - tag)
  let t := c.drop (c.length - tag)
  decide (t.drop 8 = spelledEnd m →
    t.take 8 = leBytes 4 metaIndex ++ leBytes 4 1 ∧ m = [97] ∨
      t.take 8 = leBytes 4 0 ++ leBytes 4 1 ∧ m = [7])

theorem oneByteUnit_infix :
    (oneByteBlob.tails.flatMap List.inits).all oneByteUnit = true := by
  decide +kernel

theorem unforged_oneByte : Unforged spelled oneByte [97] oneByteBlob := by
  intro c hc idx total m hidx htotal hopen
  obtain ⟨t, hpre, hsuf⟩ := List.infix_iff_prefix_suffix.1 hc
  have hunit := List.all_eq_true.1 oneByteUnit_infix c
    (List.mem_flatMap.2 ⟨t, (List.mem_tails t _).2 hsuf, (List.mem_inits c t).2 hpre⟩)
  simp only [openChunk, spelled, spelledTag_chunk] at hopen
  split_ifs at hopen with htag
  obtain rfl := Option.some.inj hopen
  have hword : (c.drop (c.length - tag)).take 8 = leBytes 4 idx ++ leBytes 4 total := by
    rw [htag.2]
    exact List.take_left' (by simp)
  have hdrop : (c.drop (c.length - tag)).drop 8 =
      spelledEnd (c.take (c.length - tag)) := by
    rw [htag.2]
    exact List.drop_left' (by simp)
  have hcases := of_decide_eq_true hunit hdrop
  rw [hword] at hcases
  -- the words of the tag are the index and the count
  have hwords : ∀ {i n}, i < 2 ^ 32 → n < 2 ^ 32 →
      leBytes 4 idx ++ leBytes 4 total = leBytes 4 i ++ leBytes 4 n → idx = i ∧ total = n := by
    intro i n hi hn h
    obtain ⟨h₁, h₂⟩ := List.append_inj h (by simp)
    exact ⟨leBytes_inj hidx hi h₁, leBytes_inj htotal hn h₂⟩
  have hseal : sealChunk spelled oneByte.key idx total (c.take (c.length - tag)) = some c := by
    have hsmall : (c.take (c.length - tag)).length ≤ 2 ^ 36 := by
      have hlen := hc.length_le
      have hblob : oneByteBlob.length = 62 := by decide
      rw [List.length_take]
      omega
    simp only [sealChunk, spelled, spelledTag_chunk, if_pos hsmall]
    rw [← htag.2, List.take_append_drop]
  rcases hcases with ⟨h, hm⟩ | ⟨h, hm⟩
  · obtain ⟨rfl, rfl⟩ := hwords (by decide) (by decide) h
    exact ⟨by decide, hseal, .inl ⟨rfl, hm⟩⟩
  · obtain ⟨rfl, rfl⟩ := hwords (by decide) (by decide) h
    exact ⟨by decide, hseal, .inr ⟨by decide, by rw [hm]; decide⟩⟩

theorem unforged_container (l : SealedLayout) (v : Bytes)
    (hl : container spelledPrims [9] "a" [7] = some l) (hv : l.toVec spelled = some v) :
    Unforged spelled l (nameBytes "a") v := by
  obtain ⟨ct, hct, rfl⟩ := container_eq_some.1 hl
  have hname : nameBytes "a" = [97] := by decide
  have hseal : sealChunk spelled [9] metaIndex (totalChunksFor 1 linkChunkSize) [97] =
      some ([97] ++ spelledTag (chunkNonce metaIndex) (chunkAad metaIndex 1) [97]) := by decide
  rw [hname] at hct ⊢
  obtain rfl := Option.some.inj (hseal.symm.trans hct)
  have hblob : oneByteBlob = v := congrArg (Option.getD · []) hv
  exact hblob ▸ unforged_oneByte

/-- A file of one byte. -/
theorem faithful_oneByte : Faithful spelledPrims [9] "a" [7] ↔ InWords "a" [7] :=
  faithful_iff spelledPrims spelled_lawful spelled_total [9] "a" [7] unforged_container

/-- A file of 2^52 bytes: its chunks are as many as a `u32` holds and one more. -/
def fourPebibytes : Bytes := List.replicate (2 ^ 52) 0

/-- The container of such a file has no chunks, and does not open. -/
theorem not_faithful_fourPebibytes : ¬ Faithful spelledPrims [9] "a" fourPebibytes := by
  rintro ⟨⟨l, v, hl, hv, hdec⟩, -⟩
  obtain ⟨ct, hct, rfl⟩ := container_eq_some.1 hl
  have hlen : fourPebibytes.length = 2 ^ 52 := List.length_replicate
  have hname : (nameBytes "a").length = 1 := by decide
  have hctlen : ct.length = 17 := by
    rw [spelled_lawful.length_encrypt hct, hname]
    rfl
  have hzero : (layoutOf [9] fourPebibytes ct).totalChunks = 0 := by
    change totalChunksFor fourPebibytes.length linkChunkSize = 0
    rw [hlen]
    decide
  have hnil := size_of_totalChunks_zero (by omega) (by omega) hzero hv hdec
  omega

end Arvolo.Link
