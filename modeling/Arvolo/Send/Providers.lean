import Arvolo.Crypto.Wire
import Arvolo.Recv.Payload
import Arvolo.Send.Source

/-!
The providers of a chunk, `ChunkBackend` of `core/src/chunked.rs`: the sender, which
seals it from the payload, the relay, which keeps it as a file (`core/src/backfill.rs`),
and a receiver, which seals it again from its own output.

A chunk is asked for by the digest of its ciphertext, so providers agree when each
answers with a ciphertext of that digest.
-/

namespace Arvolo.Send

open Crypto Recv

/-! ### Preparing -/

/-- `hashes.resize` and `hashes[i] = Some(hash)`. -/
def place (hashes : List (Option Bytes)) (got : ℕ × Bytes) : List (Option Bytes) :=
  (if hashes.length ≤ got.1 then
    hashes ++ List.replicate (got.1 + 1 - hashes.length) none else hashes).set got.1 (some got.2)

/-- The answers of the workers, each put where its index says. -/
def collect (got : List (ℕ × Bytes)) : List (Option Bytes) := got.foldl place []

/-- The number of reads of a whole payload that return anything. -/
def reads (size : ℕ) : ℕ := (size + (chunkSize - 1)) / chunkSize

/-- `PreparedChunks::compute`. `order` is the order in which the workers answer; the
index of a chunk is a `u32`. -/
def compute (prims : Prims) (key payload : Bytes) (order : List ℕ) : Option Prepared := do
  let total := totalChunks payload.length
  let got ← order.mapM fun k =>
    (sealChunk prims.aead key (k % 2 ^ 32) total (chunkAt payload k)).map fun ct =>
      (k % 2 ^ 32, prims.blake3 ct)
  let chunks ← (collect got).mapM id
  return ⟨key, payload.length, chunks⟩

/-! ### Serving -/

/-- The chunk files of a relay, by digest. -/
abbrev ChunkDir := Bytes → Option Bytes

inductive ChunkBackend
  | onTheFly (source : SendSource) (prepared : Prepared)
  | files (dir : ChunkDir)
  | reseal (path : String) (prepared : Prepared) (have_ : Bytes)

namespace ChunkBackend

/-- Read chunk `idx` from where it lies and seal it. -/
def sealAt (prims : Prims) (fs : Files) (source : SendSource) (p : Prepared) (idx : ℕ) :
    Option Bytes := do
  let bytes ← fs.bytes source
  sealChunk prims.aead p.key idx (totalChunks p.totalSize) (chunkAt bytes idx)

def produce (prims : Prims) (fs : Files) (hash : Bytes) : ChunkBackend → Option Bytes
  | onTheFly source p => do
      let idx ← p.index hash
      sealAt prims fs source p idx
  | files dir => dir hash
  | reseal path p have_ => do
      let idx ← p.index hash
      -- not verified here yet
      if bitfieldHas have_ idx then sealAt prims fs (.path path) p idx else none

end ChunkBackend

/-! ### The relay's files -/

namespace ChunkDir

/-- `seed_one`: what was fetched is kept if it is whole and has the digest. -/
def seedOne (prims : Prims) (hash : Bytes) (fetched : Option (ℕ × Bytes)) : Option Bytes :=
  match fetched with
  | some (totalLen, ct) =>
      if ct.length = totalLen ∧ prims.blake3 ct = hash then some ct else none
  | none => none

theorem lawfulBEq_bytes : LawfulBEq Bytes := inferInstance

def remove (dir : ChunkDir) (hashes : List Bytes) : ChunkDir :=
  haveI : LawfulBEq Bytes := lawfulBEq_bytes
  fun h => if h ∈ hashes then none else dir h

/-- `seed_chunks`, with what each fetch returned. A failure takes back what the call
wrote. -/
def seedChunks (prims : Prims) : ChunkDir → List Bytes → List (Bytes × Option (ℕ × Bytes)) →
    ChunkDir
  | dir, _, [] => dir
  | dir, written, (hash, fetched) :: rest =>
      if (dir hash).isSome then seedChunks prims dir written rest
      else
        match seedOne prims hash fetched with
        | some ct =>
            seedChunks prims (Function.update dir hash (some ct)) (hash :: written) rest
        | none => dir.remove (hash :: written)

/-- What happens to the files: a seed, or chunks released or expired. -/
inductive Event
  | seed (fetched : List (Bytes × Option (ℕ × Bytes)))
  | release (hashes : List Bytes)

def step (prims : Prims) (dir : ChunkDir) : Event → ChunkDir
  | .seed fetched => dir.seedChunks prims [] fetched
  | .release hashes => dir.remove hashes

/-- The files of a relay after a run from none. -/
def run (prims : Prims) (es : List Event) : ChunkDir := es.foldl (step prims) fun _ => none

variable {prims : Prims} {dir : ChunkDir}

/-- Every file has the digest it is named by. -/
def Verified (prims : Prims) (dir : ChunkDir) : Prop :=
  ∀ h ct, dir h = some ct → prims.blake3 ct = h

theorem Verified.remove (h : dir.Verified prims) (hashes : List Bytes) :
    (dir.remove hashes).Verified prims := by
  intro g ct hg
  unfold ChunkDir.remove at hg
  split_ifs at hg
  exact h g ct hg

theorem seedOne_spec {hash ct : Bytes} {fetched : Option (ℕ × Bytes)}
    (h : seedOne prims hash fetched = some ct) : prims.blake3 ct = hash := by
  unfold seedOne at h
  split at h
  · split_ifs at h with hok
    exact Option.some.inj h ▸ hok.2
  · exact nomatch h

theorem Verified.update (h : dir.Verified prims) {hash ct : Bytes}
    (hct : prims.blake3 ct = hash) : Verified prims (Function.update dir hash (some ct)) := by
  intro g c hg
  by_cases hgh : g = hash
  · subst hgh
    rw [Function.update_self] at hg
    exact Option.some.inj hg ▸ hct
  · rw [Function.update_of_ne hgh] at hg
    exact h g c hg

theorem Verified.seedChunks (h : dir.Verified prims) (written : List Bytes)
    (fetched : List (Bytes × Option (ℕ × Bytes))) :
    (dir.seedChunks prims written fetched).Verified prims := by
  induction fetched generalizing dir written with
  | nil => exact h
  | cons f rest ih =>
      obtain ⟨hash, got⟩ := f
      unfold ChunkDir.seedChunks
      by_cases hheld : (dir hash).isSome
      · rw [if_pos hheld]
        exact ih h written
      · rw [if_neg hheld]
        cases hone : seedOne prims hash got with
        | none => exact h.remove _
        | some ct => exact ih (h.update (seedOne_spec hone)) _

theorem verified_run (prims : Prims) (es : List Event) : (run prims es).Verified prims := by
  have hnone : Verified prims fun _ => none := by
    intro h ct hct
    cases hct
  refine Lib.foldl_inv (Verified prims) (fun dir e h => ?_) hnone es
  cases e with
  | seed fetched => exact h.seedChunks [] fetched
  | release hashes => exact h.remove hashes

end ChunkDir

/-! ### The digests of a payload -/

theorem getElem?_place (hashes : List (Option Bytes)) (got : ℕ × Bytes) (i : ℕ) :
    (place hashes got)[i]?.join = if i = got.1 then some got.2 else hashes[i]?.join := by
  have hgrown : ∀ hs : List (Option Bytes), hs.length ≤ got.1 →
      (hs ++ List.replicate (got.1 + 1 - hs.length) none)[i]?.join = hs[i]?.join := by
    intro hs hle
    rcases Nat.lt_or_ge i hs.length with hlt | hge
    · rw [List.getElem?_append_left hlt]
    · rw [List.getElem?_append_right hge, List.getElem?_eq_none hge]
      cases hrep : (List.replicate (got.1 + 1 - hs.length) (none : Option Bytes))[i - hs.length]? with
      | none => rfl
      | some x => rw [(List.mem_replicate.1 (List.mem_of_getElem? hrep)).2]; rfl
  unfold place
  rw [List.getElem?_set]
  by_cases hi : i = got.1
  · subst hi
    rw [if_pos rfl, if_pos rfl]
    split_ifs with hle hlt hlt
    · rfl
    · exact absurd (by rw [List.length_append, List.length_replicate]; omega) hlt
    · rfl
    · exact absurd (by omega) hlt
  · rw [if_neg (Ne.symm hi), if_neg hi]
    split_ifs with hle
    · exact hgrown hashes hle
    · rfl

/-- The last answer for an index is the one that stays. -/
theorem getElem?_collect (got : List (ℕ × Bytes)) (i : ℕ) :
    (collect got)[i]?.join = (got.reverse.find? fun g => g.1 = i).map Prod.snd := by
  induction got using List.reverseRecOn with
  | nil => rfl
  | append_singleton got g ih =>
      rw [collect, List.foldl_append, List.foldl_cons, List.foldl_nil, getElem?_place,
        List.reverse_append, List.reverse_singleton, List.singleton_append, List.find?_cons]
      by_cases hi : i = g.1
      · subst hi
        simp
      · rw [if_neg hi]
        have hne : decide (g.1 = i) = false := decide_eq_false (Ne.symm hi)
        rw [hne]
        exact ih

theorem mapM_some {α β : Type} {f : α → Option β} {g : α → β} {xs : List α}
    (h : ∀ x ∈ xs, f x = some (g x)) : xs.mapM f = some (xs.map g) := by
  induction xs with
  | nil => rfl
  | cons x xs ih =>
      simp [List.mapM_cons, h x List.mem_cons_self, ih fun y hy => h y (List.mem_cons_of_mem _ hy)]

theorem mapM_id_eq_some {β : Type} {hs : List (Option β)} {cs : List β} (h : hs.mapM id = some cs) :
    hs = cs.map some := by
  induction hs generalizing cs with
  | nil =>
      obtain rfl := Option.some.inj h
      rfl
  | cons x hs ih =>
      simp only [List.mapM_cons, id, Option.bind_eq_bind, Option.bind_eq_some_iff, Option.pure_def,
        Option.some.injEq] at h
      obtain ⟨c, rfl, cs, hcs, rfl⟩ := h
      rw [ih hcs, List.map_cons]

/-- The last read whose index is `i`. -/
def lastRead (order : List ℕ) (i : ℕ) : Option ℕ := order.reverse.find? fun k => k % 2 ^ 32 = i

/-- The ciphertext of a chunk under the index `i`. -/
def sealedAs (prims : Prims) (key payload : Bytes) (i : ℕ) (plain : Bytes) : Bytes :=
  (sealChunk prims.aead key i (totalChunks payload.length) plain).getD []

section

variable {prims : Prims} {key payload : Bytes} {order : List ℕ}

theorem length_chunkAt_le (bytes : Bytes) (i : ℕ) : (chunkAt bytes i).length ≤ chunkSize :=
  List.length_take_le _ _

theorem sealChunk_chunkAt (key payload : Bytes) (htotal : prims.aead.Total) (bytes : Bytes)
    (i k : ℕ) : sealChunk prims.aead key i (totalChunks payload.length) (chunkAt bytes k) =
      some (sealedAs prims key payload i (chunkAt bytes k)) := by
  have hlen := length_chunkAt_le bytes k
  unfold chunkSize at hlen
  obtain ⟨ct, hct⟩ := Option.isSome_iff_exists.1 (htotal key (chunkNonce i)
    (chunkAad i (totalChunks payload.length)) (chunkAt bytes k) (by omega))
  change sealChunk prims.aead key i _ _ = some ct at hct
  rw [sealedAs, hct]
  rfl

theorem compute_eq (htotal : prims.aead.Total) {p : Prepared}
    (h : compute prims key payload order = some p) :
    p.key = key ∧ p.totalSize = payload.length ∧ ∀ i, p.chunks[i]? =
      (lastRead order i).map fun k =>
        prims.blake3 (sealedAs prims key payload (k % 2 ^ 32) (chunkAt payload k)) := by
  have hgot : order.mapM (fun k =>
      (sealChunk prims.aead key (k % 2 ^ 32) (totalChunks payload.length) (chunkAt payload k)).map
        fun ct => (k % 2 ^ 32, prims.blake3 ct)) =
      some (order.map fun k => (k % 2 ^ 32,
        prims.blake3 (sealedAs prims key payload (k % 2 ^ 32) (chunkAt payload k)))) :=
    mapM_some fun k _ => by rw [sealChunk_chunkAt key payload htotal, Option.map_some]
  simp only [compute, hgot, Option.bind_eq_bind, Option.bind_some, Option.bind_eq_some_iff,
    Option.pure_def, Option.some.injEq] at h
  obtain ⟨chunks, hchunks, rfl⟩ := h
  refine ⟨rfl, rfl, fun i => ?_⟩
  have hcollect := getElem?_collect (order.map fun k => (k % 2 ^ 32,
    prims.blake3 (sealedAs prims key payload (k % 2 ^ 32) (chunkAt payload k)))) i
  rw [mapM_id_eq_some hchunks, List.getElem?_map, ← List.map_reverse, List.find?_map,
    Option.map_map] at hcollect
  have hjoin : ((chunks[i]?).map some).join = chunks[i]? := by cases chunks[i]? <;> rfl
  rw [hjoin] at hcollect
  exact hcollect

theorem lastRead_spec {i k : ℕ} (h : lastRead order i = some k) : k ∈ order ∧ k % 2 ^ 32 = i := by
  have hmem := List.mem_of_find?_eq_some h
  exact ⟨List.mem_reverse.1 hmem, by simpa using List.find?_some h⟩

/-- Up to 2^32 chunks every index is read once. -/
theorem eq_of_lastRead (hreads : reads payload.length ≤ 2 ^ 32)
    (horder : ∀ k ∈ order, k < reads payload.length) {i k : ℕ} (h : lastRead order i = some k) :
    k = i := by
  obtain ⟨hmem, hmod⟩ := lastRead_spec h
  rw [← hmod, Nat.mod_eq_of_lt (by have := horder k hmem; omega)]

theorem chunk_eq (htotal : prims.aead.Total) {p : Prepared}
    (hp : compute prims key payload order = some p) {i : ℕ} {h : Bytes}
    (hi : p.chunks[i]? = some h) : ∃ k, lastRead order i = some k ∧ i < 2 ^ 32 ∧
      h = prims.blake3 (sealedAs prims key payload i (chunkAt payload k)) := by
  rw [(compute_eq htotal hp).2.2 i] at hi
  obtain ⟨k, hk, rfl⟩ := Option.map_eq_some_iff.1 hi
  have hmod := (lastRead_spec hk).2
  exact ⟨k, hk, hmod ▸ Nat.mod_lt _ (by decide), by rw [hmod]⟩

theorem sealedAs_inj (hlawful : prims.Lawful) (htotal : prims.aead.Total) {i k : ℕ} {bytes : Bytes}
    {j : ℕ} (h : sealedAs prims key payload i (chunkAt payload k) =
      sealedAs prims key payload i (chunkAt bytes j)) : chunkAt payload k = chunkAt bytes j := by
  have hk := sealChunk_chunkAt key payload htotal payload i k
  have hj := sealChunk_chunkAt key payload htotal bytes i j
  rw [← h] at hj
  exact Option.some.inj
    ((hlawful.aead.decrypt_encrypt hk).symm.trans (hlawful.aead.decrypt_encrypt hj))

/-- A digest is of one chunk only. -/
theorem index_unique (hlawful : prims.Lawful) (htotal : prims.aead.Total)
    (hbinds : prims.aead.BindsIndex) {p : Prepared}
    (hp : compute prims key payload order = some p) {i j : ℕ} {h : Bytes}
    (hi : p.chunks[i]? = some h) (hj : p.chunks[j]? = some h) : i = j := by
  obtain ⟨k, -, hilt, rfl⟩ := chunk_eq htotal hp hi
  obtain ⟨k', -, hjlt, heq⟩ := chunk_eq htotal hp hj
  have hct := hlawful.blake3 heq
  have hseal := sealChunk_chunkAt key payload htotal payload i k
  have hseal' := sealChunk_chunkAt key payload htotal payload j k'
  rw [← hct] at hseal'
  exact hbinds hilt hjlt hseal (hlawful.aead.decrypt_encrypt hseal')

theorem getElem?_of_index (htotal : prims.aead.Total) {p : Prepared}
    (hp : compute prims key payload order = some p) {i : ℕ} {h : Bytes}
    (hi : p.index h = some i) : p.chunks[i]? = some h := by
  obtain ⟨⟨g, j⟩, hfind, rfl⟩ := Option.map_eq_some_iff.1 hi
  have hmem := List.mem_reverse.1 (List.mem_of_find?_eq_some hfind)
  have hg : g = h := by simpa using List.find?_some hfind
  have hget : p.chunks[j]? = some h := hg ▸ List.mk_mem_zipIdx_iff_getElem?.1 hmem
  obtain ⟨k, -, hlt, -⟩ := chunk_eq htotal hp hget
  rw [Nat.mod_eq_of_lt hlt]
  exact hget

theorem index_eq (hlawful : prims.Lawful) (htotal : prims.aead.Total)
    (hbinds : prims.aead.BindsIndex) {p : Prepared}
    (hp : compute prims key payload order = some p) {i : ℕ} {h : Bytes}
    (hi : p.chunks[i]? = some h) : p.index h = some i := by
  cases hidx : p.index h with
  | some j => rw [index_unique hlawful htotal hbinds hp (getElem?_of_index htotal hp hidx) hi]
  | none =>
      have hmem : (h, i) ∈ p.chunks.zipIdx.reverse :=
        List.mem_reverse.2 (List.mk_mem_zipIdx_iff_getElem?.2 hi)
      have hfind := List.find?_eq_none.1 (Option.map_eq_none_iff.1 hidx) (h, i) hmem
      exact absurd (decide_eq_true rfl) hfind

end

/-! ### Agreement -/

/-- Every chunk whose bit is set is on disk at its offset. -/
def Held (payload : Bytes) (order : List ℕ) (out have_ : Bytes) : Prop :=
  ∀ i k, lastRead order i = some k → bitfieldHas have_ i = true →
    (out.drop (i * chunkSize)).take (chunkAt payload k).length = chunkAt payload k

/-- The providers of a payload answer with the same ciphertext of the digest that was
asked for, the receiver for what it holds and for nothing else. -/
structure Alike (prims : Prims) (fs : Files) (p : Prepared) (source : SendSource) (dir : ChunkDir)
    (path : String) (have_ : Bytes) : Prop where
  same : ∀ i h, p.chunks[i]? = some h → ∃ ct, prims.blake3 ct = h ∧
    (ChunkBackend.onTheFly source p).produce prims fs h = some ct ∧
    (∀ c, (ChunkBackend.files dir).produce prims fs h = some c → c = ct) ∧
    (bitfieldHas have_ i = true → (ChunkBackend.reseal path p have_).produce prims fs h = some ct)
  verified : ∀ h c, (ChunkBackend.reseal path p have_).produce prims fs h = some c →
    ∃ i, p.index h = some i ∧ p.chunks[i]? = some h ∧ bitfieldHas have_ i = true

/-- No index was read twice with different bytes, and the output does not go on after a
chunk that ends short. -/
structure Undisturbed (payload : Bytes) (order : List ℕ) (out have_ : Bytes) : Prop where
  reads : ∀ i k, lastRead order i = some k → chunkAt payload k = chunkAt payload i
  output : ∀ i k, lastRead order i = some k → bitfieldHas have_ i = true →
    (chunkAt payload k).length = chunkSize ∨
      out.length ≤ i * chunkSize + (chunkAt payload k).length

section

variable {prims : Prims} {key payload : Bytes} {order : List ℕ}

/-- What is read back from an output is the chunk exactly if nothing follows a short one. -/
theorem chunkAt_out {out have_ : Bytes} (hheld : Held payload order out have_) {i k : ℕ}
    (hk : lastRead order i = some k) (hbit : bitfieldHas have_ i = true) :
    chunkAt out i = chunkAt payload k ↔ (chunkAt payload k).length = chunkSize ∨
      out.length ≤ i * chunkSize + (chunkAt payload k).length := by
  have hread := hheld i k hk hbit
  have hle := length_chunkAt_le payload k
  have hlen : (out.drop (i * chunkSize)).length = out.length - i * chunkSize := List.length_drop
  constructor
  · intro h
    by_cases hfull : (chunkAt payload k).length = chunkSize
    · exact .inl hfull
    · right
      have hshort := congrArg List.length h
      rw [chunkAt, List.length_take, hlen] at hshort
      omega
  · rintro (hfull | hshort)
    · rw [hfull] at hread
      exact hread
    · rw [chunkAt, List.take_of_length_le (by omega), ← hread, List.take_of_length_le (by omega)]

theorem sealAt_eq (htotal : prims.aead.Total) {p : Prepared}
    (hp : compute prims key payload order = some p) {fs : Files} {source : SendSource}
    {bytes : Bytes} (hbytes : fs.bytes source = some bytes) (i : ℕ) :
    ChunkBackend.sealAt prims fs source p i =
      some (sealedAs prims key payload i (chunkAt bytes i)) := by
  obtain ⟨hkey, hsize, -⟩ := compute_eq htotal hp
  rw [ChunkBackend.sealAt, hbytes, hkey, hsize]
  exact sealChunk_chunkAt key payload htotal bytes i i

/-- A receiver answers only for what its bits say, whatever they say. -/
theorem held_of_reseal (htotal : prims.aead.Total) {p : Prepared}
    (hp : compute prims key payload order = some p) {fs : Files} {path : String}
    {have_ h c : Bytes}
    (hc : (ChunkBackend.reseal path p have_).produce prims fs h = some c) :
    ∃ i, p.index h = some i ∧ p.chunks[i]? = some h ∧ bitfieldHas have_ i = true := by
  rw [ChunkBackend.produce] at hc
  obtain ⟨i, hi, hc⟩ := Option.bind_eq_some_iff.1 hc
  refine ⟨i, hi, getElem?_of_index htotal hp hi, ?_⟩
  by_contra hbit
  rw [if_neg hbit] at hc
  cases hc

/-- The providers of a payload are alike exactly if its chunks and the output are
undisturbed. -/
theorem alike_iff_undisturbed (hlawful : prims.Lawful) (htotal : prims.aead.Total)
    (hbinds : prims.aead.BindsIndex) {p : Prepared}
    (hp : compute prims key payload order = some p) (fs : Files) {source : SendSource}
    (hsource : fs.bytes source = some payload) (es : List ChunkDir.Event) {path : String}
    {out have_ : Bytes} (hout : fs.bytes (.path path) = some out)
    (hheld : Held payload order out have_) :
    Alike prims fs p source (ChunkDir.run prims es) path have_ ↔
      Undisturbed payload order out have_ := by
  have hfly : ∀ {i h}, p.chunks[i]? = some h →
      (ChunkBackend.onTheFly source p).produce prims fs h =
        some (sealedAs prims key payload i (chunkAt payload i)) := by
    intro i h hi
    rw [ChunkBackend.produce, index_eq hlawful htotal hbinds hp hi]
    exact sealAt_eq htotal hp hsource i
  have hreseal : ∀ {i h}, p.chunks[i]? = some h → bitfieldHas have_ i = true →
      (ChunkBackend.reseal path p have_).produce prims fs h =
        some (sealedAs prims key payload i (chunkAt out i)) := by
    intro i h hi hbit
    rw [ChunkBackend.produce, index_eq hlawful htotal hbinds hp hi]
    simp only [Option.bind_eq_bind, Option.bind_some, if_pos hbit]
    exact sealAt_eq htotal hp hout i
  have hchunk : ∀ {i k}, lastRead order i = some k → ∃ h, p.chunks[i]? = some h ∧
      h = prims.blake3 (sealedAs prims key payload i (chunkAt payload k)) := by
    intro i k hk
    have hget := (compute_eq htotal hp).2.2 i
    rw [hk, Option.map_some, (lastRead_spec hk).2] at hget
    exact ⟨_, hget, rfl⟩
  constructor
  · intro h
    constructor
    · intro i k hk
      obtain ⟨d, hd, rfl⟩ := hchunk hk
      obtain ⟨ct, hct, hsend, -⟩ := h.same i _ hd
      obtain rfl := Option.some.inj ((hfly hd).symm.trans hsend)
      exact sealedAs_inj hlawful htotal (hlawful.blake3 hct.symm)
    · intro i k hk hbit
      obtain ⟨d, hd, rfl⟩ := hchunk hk
      obtain ⟨ct, hct, -, -, hrecv⟩ := h.same i _ hd
      obtain rfl := Option.some.inj ((hreseal hd hbit).symm.trans (hrecv hbit))
      exact (chunkAt_out hheld hk hbit).1 (sealedAs_inj hlawful htotal (hlawful.blake3 hct.symm)).symm
  · intro h
    constructor
    · intro i d hd
      obtain ⟨k, hk, -, rfl⟩ := chunk_eq htotal hp hd
      refine ⟨_, rfl, ?_, fun c hc => ?_, fun hbit => ?_⟩
      · rw [hfly hd, h.reads i k hk]
      · exact hlawful.blake3 (ChunkDir.verified_run prims es _ c hc)
      · rw [hreseal hd hbit, (chunkAt_out hheld hk hbit).2 (h.output i k hk hbit)]
    · exact fun d c hc => held_of_reseal htotal hp hc

/-- With chunks of the size that is read back, what a receive has on disk is held. -/
theorem held_of_agrees (hreads : reads payload.length ≤ 2 ^ 32)
    (horder : ∀ k ∈ order, k < reads payload.length) {out have_ : Bytes}
    (h : ∀ i < reads payload.length, bitfieldHas have_ i = true →
      Agrees chunkSize payload out i) : Held payload order out have_ := by
  intro i k hk hbit
  have hki := eq_of_lastRead hreads horder hk
  subst hki
  have hagrees := h k (horder k (lastRead_spec hk).1) hbit
  refine List.ext_getElem? fun j => ?_
  rcases Nat.lt_or_ge j (chunkAt payload k).length with hj | hj
  · have hlen : j < chunkSize := Nat.lt_of_lt_of_le hj (length_chunkAt_le payload k)
    have hdiv : (k * chunkSize + j) / chunkSize = k := by
      rw [Nat.mul_comm, Nat.mul_add_div (by decide), Nat.div_eq_of_lt hlen, Nat.add_zero]
    have hin : k * chunkSize + j < payload.length := by
      rw [chunkAt, List.length_take, List.length_drop] at hj
      omega
    rw [List.getElem?_take_of_lt hj, List.getElem?_drop, hagrees _ hdiv hin, chunkAt,
      List.getElem?_take_of_lt hlen, List.getElem?_drop]
  · rw [List.getElem?_eq_none hj, List.getElem?_eq_none (by rw [List.length_take]; omega)]

end

/-! ### Runs -/

/-- The byte `5` as a payload, and as the output of a receive, where a longer file was. -/
def oneByteOver : Files where
  file f := if f = 0 then ⟨[5], none⟩ else ⟨[5, 6], none⟩
  names p := if p = "sent" then some 0 else if p = "out" then some 1 else none

/-- The cipher that is spelled out, with ciphertexts as their own digests. -/
def bare : Prims := ⟨spelled, id, fun _ => []⟩

def oneByteSealed : Bytes := [5] ++ spelledTag (chunkNonce 0) (chunkAad 0 1) [5]

theorem compute_oneByte : compute bare [9] [5] [0] = some ⟨[9], 1, [oneByteSealed]⟩ := by
  decide +kernel

theorem bare_lawful : bare.Lawful := ⟨spelled_lawful, fun _ _ h => h⟩

theorem held_oneByte (rest : Bytes) : Held [5] [0] (5 :: rest) [1] := by
  intro i k hk hbit
  obtain ⟨hmem, hmod⟩ := lastRead_spec hk
  obtain rfl := List.mem_singleton.1 hmem
  rw [← hmod, Nat.zero_mod, Nat.zero_mul, List.drop_zero]
  rfl

theorem alike_ownFile :
    Alike bare oneByteOver ⟨[9], 1, [oneByteSealed]⟩ (.path "sent")
        (ChunkDir.run bare [.seed [(oneByteSealed, some (17, oneByteSealed))]]) "sent" [1] ↔
      Undisturbed [5] [0] [5] [1] :=
  alike_iff_undisturbed bare_lawful spelled_total spelled_bindsIndex compute_oneByte oneByteOver
    rfl _ rfl (held_oneByte [])

/-- A receiver that wrote over a longer file seals another chunk than the sender's. -/
theorem not_alike_longerFile :
    compute bare [9] [5] [0] = some ⟨[9], 1, [oneByteSealed]⟩ ∧ Held [5] [0] [5, 6] [1] ∧
      ¬ Alike bare oneByteOver ⟨[9], 1, [oneByteSealed]⟩ (.path "sent")
        (ChunkDir.run bare [.seed [(oneByteSealed, some (17, oneByteSealed))]]) "out" [1] := by
  refine ⟨compute_oneByte, held_oneByte [6], fun h => ?_⟩
  obtain ⟨ct, hct, -, -, hreseal⟩ := h.same 0 oneByteSealed rfl
  have hother : (ChunkBackend.reseal "out" ⟨[9], 1, [oneByteSealed]⟩ [1]).produce bare oneByteOver
      oneByteSealed = some ([5, 6] ++ spelledTag (chunkNonce 0) (chunkAad 0 1) [5, 6]) := by
    decide +kernel
  have heq := Option.some.inj ((hreseal (by decide)).symm.trans hother)
  exact absurd (hct.symm.trans heq) (by decide)

end Arvolo.Send
