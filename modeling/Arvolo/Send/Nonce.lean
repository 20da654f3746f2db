import Arvolo.Lib.Machine
import Arvolo.Send.Sender

/-!
What goes out under one content key.

The nonce of a chunk is its index, so two different plaintexts must never be
sealed under one key at one index. The argument is that each key stands for one
text: what its source reads as from the moment the key is drawn. It holds as
long as nobody changes the source under a key in memory and a change is visible
in the stamp of the file, since that is all a restart looks at.
-/

namespace Arvolo.Send

open Crypto Upload Lib

/-- A file being hashed has fewer than `2 ^ 32` chunks. -/
def Live.Short : Live → Prop
  | .pass p => p.chunks.length < 2 ^ 32
  | .prep _ | .upload _ => True

/-- A descriptor is the file its label names, if its label names one. -/
def Live.Labelled (fs : Files) : Live → Prop
  | .prep p => fs.names p.source.label = none ∨ fs.names p.source.label = fs.ino p.source
  | .pass _ | .upload _ => True

instance : DecidablePred Live.Short
  | .pass p => inferInstanceAs (Decidable (p.chunks.length < 2 ^ 32))
  | .prep _ | .upload _ => .isTrue trivial

instance (fs : Files) : DecidablePred (Live.Labelled fs)
  | .prep p => inferInstanceAs
      (Decidable (fs.names p.source.label = none ∨ fs.names p.source.label = fs.ino p.source))
  | .pass _ | .upload _ => .isTrue trivial

/-- What keeps the sender safe. A file is left alone while a content key over it is
in memory, and so is a path; a file that is written to gets a stamp no record
carries. The last two are of no consequence for ordinary files. -/
def Sender.Calm (s : Sender) : Event → Prop
  | .rewrite f content =>
      (content.bytes = (s.fs.file f).bytes ∨
        ∀ x ∈ s.memory.entries, s.fs.ino x.2.source ≠ some f) ∧
      ∀ x ∈ s.disk.entries, x.2.stamp ≠ none → x.2.stamp ≠ (s.fs.rewrite f content).stamp f
  | .relink p _ => ∀ x ∈ s.memory.entries, x.2.source ≠ .path p
  | .hashNext id => ∀ v ∈ s.memory.lookup (.prep, id), v.Short
  | .persistPrepRecord id => ∀ v ∈ s.memory.lookup (.prep, id), v.Labelled s.fs
  | _ => True

instance (s : Sender) : DecidablePred s.Calm := by
  intro e
  cases e <;> unfold Sender.Calm <;> infer_instance

/-! ### What a content key stands for -/

section Truth

variable (prims : Prims)

/-- The digests of the chunks `t` under `key`. -/
def Hashed (key : Bytes) (total : ℕ) (t : ℕ → Bytes) (chunks : List Bytes) : Prop :=
  ∀ (i : ℕ) (h : Bytes), chunks[i]? = some h →
    ∃ ct, sealChunk prims.aead key i total (t i) = some ct ∧ prims.blake3 ct = h

/-- Whatever an upload would send of these bytes is in `t`. -/
def UploadTrue (t : ℕ → Bytes) (sealing : Sealing) (bytes : Bytes) : Prop :=
  ∀ i e, sealing.emitUnit prims bytes i = some e → e.plain = t e.index

def HeaderTrue (t : ℕ → Bytes) (sealing : Sealing) : Prop :=
  ∀ e, sealing.header prims = some e → e.plain = t e.index

/-- Whatever would be sent under a key in memory is in `t`. -/
def LiveTrue (t : ℕ → Bytes) (fs : Files) : Live → Prop
  | .pass p =>
      fs.ino p.source = some p.file ∧
      p.totalSize = (fs.file p.file).bytes.length ∧
      (∀ i < p.chunks.length, chunkAt (fs.file p.file).bytes i ≠ []) ∧
      Hashed prims p.key (totalChunks p.totalSize) (chunkAt (fs.file p.file).bytes) p.chunks ∧
      match p.expected with
      | none => ∀ i, chunkAt (fs.file p.file).bytes i = t i
      | some chunks => Hashed prims p.key chunks.length t chunks
  | .prep p =>
      (∀ bytes, fs.bytes p.source = some bytes → ∀ i < p.chunks.length, chunkAt bytes i = t i) ∧
      (p.held = false → Hashed prims p.key p.chunks.length t p.chunks)
  | .upload u =>
      (∀ bytes, fs.bytes u.source = some bytes → UploadTrue prims t u.sealing bytes) ∧
      HeaderTrue prims t u.sealing

/-- A record is only picked up over the content it was made for. -/
def RecordTrue (t : ℕ → Bytes) (fs : Files) : Record → Prop
  | .prep p stamp => ∀ f, fs.stamp f = some stamp →
      ∀ i < p.chunks.length, chunkAt (fs.file f).bytes i = t i
  | .upload sealing _ stamp =>
      (∀ f, fs.stamp f = some stamp → UploadTrue prims t sealing (fs.file f).bytes) ∧
      HeaderTrue prims t sealing
  | .send _ key chunks => Hashed prims key chunks.length t chunks

def Sender.Drawn (s : Sender) (key : Bytes) : Prop := ∃ n < s.drawn, prims.randomChunkKey n = key

/-- Each content key stands for one text, and everything the sender has sent, or
can still send under a key it holds, is of that text. -/
structure Truthful (truth : Bytes → ℕ → Bytes) (s : Sender) : Prop where
  emitted : ∀ e ∈ s.emitted, s.Drawn prims e.key ∧ e.plain = truth e.key e.index
  memory : ∀ x ∈ s.memory.entries,
    s.Drawn prims x.2.key ∧ LiveTrue prims (truth x.2.key) s.fs x.2
  disk : ∀ x ∈ s.disk.entries,
    s.Drawn prims x.2.key ∧ RecordTrue prims (truth x.2.key) s.fs x.2

end Truth

/-! ### Chunks and digests -/

section Chunks

theorem chunkAt_eq_nil {bytes : Bytes} {i : ℕ} :
    chunkAt bytes i = [] ↔ bytes.length ≤ i * chunkSize := by
  simp [chunkAt, chunkSize]

/-- A pass that has read to the end has as many chunks as the size says. -/
theorem totalChunks_eq {bytes : Bytes} {n : ℕ} (hbefore : ∀ i < n, chunkAt bytes i ≠ [])
    (hend : chunkAt bytes n = []) (hn : n < 2 ^ 32) : totalChunks bytes.length = n := by
  rw [chunkAt_eq_nil] at hend
  have hceil : (bytes.length + (chunkSize - 1)) / chunkSize = n := by
    cases n with
    | zero =>
        have hzero : bytes.length = 0 := by simpa using hend
        rw [hzero]
        decide
    | succ m =>
        have hm := (not_congr chunkAt_eq_nil).mp (hbefore m (Nat.lt_succ_self m))
        have hcs : chunkSize = 16777216 := rfl
        rw [hcs] at hm hend ⊢
        omega
  rw [totalChunks, hceil, Nat.mod_eq_of_lt hn]

variable {prims : Prims}

/-- Digests tell texts apart. -/
theorem Hashed.unique (hlaw : prims.Lawful) {key : Bytes} {total : ℕ} {t t' : ℕ → Bytes}
    {chunks : List Bytes} (h : Hashed prims key total t chunks)
    (h' : Hashed prims key total t' chunks) {i : ℕ} (hi : i < chunks.length) : t i = t' i := by
  have hget : chunks[i]? = some chunks[i] := List.getElem?_eq_getElem hi
  obtain ⟨ct, hct, hhash⟩ := h i _ hget
  obtain ⟨ct', hct', hhash'⟩ := h' i _ hget
  obtain rfl : ct = ct' := hlaw.blake3 (hhash.trans hhash'.symm)
  exact Option.some.inj ((hlaw.aead.decrypt_encrypt hct).symm.trans
    (hlaw.aead.decrypt_encrypt hct'))

theorem Hashed.congr {key : Bytes} {total : ℕ} {t t' : ℕ → Bytes} {chunks : List Bytes}
    (h : Hashed prims key total t chunks) (ht : ∀ i < chunks.length, t i = t' i) :
    Hashed prims key total t' chunks := by
  intro i d hd
  obtain ⟨hi, -⟩ := List.getElem?_eq_some_iff.mp hd
  rw [← ht i hi]
  exact h i d hd

theorem Hashed.snoc {key : Bytes} {total : ℕ} {t : ℕ → Bytes} {chunks : List Bytes}
    (h : Hashed prims key total t chunks) {ct : Bytes}
    (hct : sealChunk prims.aead key chunks.length total (t chunks.length) = some ct) :
    Hashed prims key total t (chunks ++ [prims.blake3 ct]) := by
  intro i d hd
  rcases Nat.lt_trichotomy i chunks.length with hi | rfl | hi
  · rw [List.getElem?_append_left hi] at hd
    exact h i d hd
  · refine ⟨ct, hct, ?_⟩
    simpa using hd
  · rw [List.getElem?_eq_none (by simp; omega)] at hd
    cases hd

theorem index_lt {p : Prepared} {hash : Bytes} {idx : ℕ} (h : p.index hash = some idx) :
    idx < p.chunks.length := by
  obtain ⟨c, hc, rfl⟩ := Option.map_eq_some_iff.mp h
  have hmem := List.mem_of_find?_eq_some hc
  rw [List.mem_reverse] at hmem
  have hlt := (List.mem_zipIdx hmem).2.1
  exact (Nat.mod_le _ _).trans_lt (by simpa using hlt)

theorem produce_spec {p : Prepared} {bytes hash : Bytes} {e : Emission}
    (h : p.produce prims bytes hash = some e) :
    e.key = p.key ∧ e.index < p.chunks.length ∧ e.plain = chunkAt bytes e.index := by
  simp only [Prepared.produce, Option.bind_eq_bind, Option.bind_eq_some_iff, Option.pure_def,
    Option.some.injEq] at h
  obtain ⟨idx, hidx, ct, -, rfl⟩ := h
  exact ⟨rfl, index_lt hidx, rfl⟩

theorem header_spec {sealing : Sealing} {e : Emission} (h : sealing.header prims = some e) :
    e.key = sealing.key ∧ e.index = metaIndex := by
  cases sealing with
  | mailbox key size => cases h
  | link key name size =>
      simp only [Sealing.header, Option.bind_eq_bind, Option.bind_eq_some_iff, Option.pure_def,
        Option.some.injEq] at h
      obtain ⟨ct, -, rfl⟩ := h
      exact ⟨rfl, rfl⟩

theorem layout_key {sealing : Sealing} {bytes : Bytes} {l : SealedLayout}
    (h : sealing.layout prims bytes = some l) : l.key = sealing.key := by
  cases sealing with
  | mailbox key size =>
      obtain rfl := Option.some.inj h
      rfl
  | link key name size =>
      simp only [Sealing.layout, Option.bind_eq_bind, Option.bind_eq_some_iff, Option.pure_def,
        Option.some.injEq] at h
      obtain ⟨header, -, rfl⟩ := h
      rfl

/-- The index of a file's chunk is never that of the header. -/
theorem emitUnit_spec {sealing : Sealing} {bytes : Bytes} {i : ℕ} {e : Emission}
    (h : sealing.emitUnit prims bytes i = some e) :
    e.key = sealing.key ∧ e.index = i ∧ i ≠ metaIndex := by
  simp only [Sealing.emitUnit, Option.bind_eq_bind, Option.bind_eq_some_iff] at h
  obtain ⟨l, hl, h⟩ := h
  split_ifs at h with hi
  simp only [Option.bind_eq_some_iff, Option.pure_def, Option.some.injEq] at h
  obtain ⟨out, -, rfl⟩ := h
  refine ⟨layout_key hl, rfl, ?_⟩
  have hlt : l.totalChunks < 2 ^ 32 := Nat.mod_lt _ (by decide)
  have hmeta : metaIndex = 2 ^ 32 - 1 := rfl
  omega

/-- The text of a fresh upload: what it would send of the bytes the file has. -/
def uploadText (prims : Prims) (sealing : Sealing) (bytes : Bytes) (i : ℕ) : Bytes :=
  let e := if i = metaIndex then sealing.header prims else sealing.emitUnit prims bytes i
  (e.map Emission.plain).getD []

theorem uploadTrue_uploadText (sealing : Sealing) (bytes : Bytes) :
    UploadTrue prims (uploadText prims sealing bytes) sealing bytes := by
  intro i e he
  obtain ⟨-, hidx, hne⟩ := emitUnit_spec he
  simp [uploadText, hidx, hne, he]

theorem headerTrue_uploadText (sealing : Sealing) (bytes : Bytes) :
    HeaderTrue prims (uploadText prims sealing bytes) sealing := by
  intro e he
  simp [uploadText, (header_spec he).2, he]

end Chunks

/-! ### What each operation keeps -/

namespace Truthful

variable {prims : Prims} {truth : Bytes → ℕ → Bytes} {s : Sender}

theorem hold (h : Truthful prims truth s) {k : Kind × ℕ} {v : Live} (hkey : s.Drawn prims v.key)
    (hv : LiveTrue prims (truth v.key) s.fs v) : Truthful prims truth (s.hold k v) where
  emitted := h.emitted
  memory := Table.forall_insert h.memory ⟨hkey, hv⟩
  disk := h.disk

theorem release (h : Truthful prims truth s) (k : Kind × ℕ) :
    Truthful prims truth (s.release k) where
  emitted := h.emitted
  memory := Table.forall_erase h.memory
  disk := h.disk

theorem persist (h : Truthful prims truth s) {k : Kind × ℕ} {r : Record}
    (hkey : s.Drawn prims r.key) (hr : RecordTrue prims (truth r.key) s.fs r) :
    Truthful prims truth (s.persist k r) where
  emitted := h.emitted
  memory := h.memory
  disk := Table.forall_insert h.disk ⟨hkey, hr⟩

theorem remove (h : Truthful prims truth s) (k : Kind × ℕ) :
    Truthful prims truth (s.remove k) where
  emitted := h.emitted
  memory := h.memory
  disk := Table.forall_erase h.disk

theorem emit (h : Truthful prims truth s) {e : Emission} (hkey : s.Drawn prims e.key)
    (he : e.plain = truth e.key e.index) : Truthful prims truth (s.emit e) where
  emitted := by
    intro e' he'
    rcases List.mem_cons.mp he' with rfl | he'
    · exact ⟨hkey, he⟩
    · exact h.emitted e' he'
  memory := h.memory
  disk := h.disk

theorem die (h : Truthful prims truth s) : Truthful prims truth { s with memory := ∅ } where
  emitted := h.emitted
  memory := by
    intro x hx
    cases hx
  disk := h.disk

theorem finish (h : Truthful prims truth s) (id : ℕ) : Truthful prims truth (s.finish id) := by
  simp only [Sender.finish, List.foldl_cons, List.foldl_nil]
  exact ((((((h.release _).remove _).release _).remove _).release _).remove _)

theorem forget (h : Truthful prims truth s) (id : ℕ) : Truthful prims truth (s.forget id) :=
  (h.release _).remove _

theorem live (h : Truthful prims truth s) {k : Kind × ℕ} {v : Live}
    (hv : s.memory.lookup k = some v) :
    s.Drawn prims v.key ∧ LiveTrue prims (truth v.key) s.fs v :=
  h.memory _ (Table.mem_of_lookup hv)

theorem record (h : Truthful prims truth s) {k : Kind × ℕ} {r : Record}
    (hr : s.disk.lookup k = some r) :
    s.Drawn prims r.key ∧ RecordTrue prims (truth r.key) s.fs r :=
  h.disk _ (Table.mem_of_lookup hr)

/-- A fresh key may stand for any text. -/
theorem draw (h : Truthful prims truth s) {n : ℕ} (hn : s.drawn < n)
    (hkeys : Set.InjOn prims.randomChunkKey (Set.Iio n)) (t : ℕ → Bytes) :
    Truthful prims (Function.update truth (prims.randomChunkKey s.drawn) t) (s.draw prims).2 := by
  have hold {key : Bytes} (hk : s.Drawn prims key) : (s.draw prims).2.Drawn prims key ∧
      Function.update truth (prims.randomChunkKey s.drawn) t key = truth key := by
    obtain ⟨m, hm, rfl⟩ := hk
    refine ⟨⟨m, Nat.lt_succ_of_lt hm, rfl⟩, Function.update_of_ne ?_ _ _⟩
    intro he
    exact hm.ne (hkeys (hm.trans hn) hn he)
  constructor
  · intro e he
    obtain ⟨hk, hplain⟩ := h.emitted e he
    rw [(hold hk).2]
    exact ⟨(hold hk).1, hplain⟩
  · intro x hx
    obtain ⟨hk, hlive⟩ := h.memory x hx
    rw [(hold hk).2]
    exact ⟨(hold hk).1, hlive⟩
  · intro x hx
    obtain ⟨hk, hrec⟩ := h.disk x hx
    rw [(hold hk).2]
    exact ⟨(hold hk).1, hrec⟩

/-! ### Files that change -/

theorem relink (h : Truthful prims truth s) {p : String} {f : Option FileId}
    (hcalm : s.Calm (.relink p f)) : Truthful prims truth { s with fs := s.fs.relink p f } where
  emitted := h.emitted
  memory := by
    intro x hx
    obtain ⟨hk, hlive⟩ := h.memory x hx
    have hsrc := hcalm x hx
    refine ⟨hk, ?_⟩
    obtain ⟨k, v⟩ := x
    cases v with
    | pass p => exact ⟨(s.fs.ino_relink hsrc f).trans hlive.1, hlive.2⟩
    | prep p => exact ⟨fun b hb => hlive.1 b ((s.fs.bytes_relink hsrc f).symm.trans hb), hlive.2⟩
    | upload u => exact ⟨fun b hb => hlive.1 b ((s.fs.bytes_relink hsrc f).symm.trans hb), hlive.2⟩
  disk := h.disk

theorem rewrite (h : Truthful prims truth s) {f : FileId} {content : File}
    (hcalm : s.Calm (.rewrite f content)) :
    Truthful prims truth { s with fs := s.fs.rewrite f content } where
  emitted := h.emitted
  memory := by
    intro x hx
    obtain ⟨hk, hlive⟩ := h.memory x hx
    have hfile (g : FileId) (hg : s.fs.ino x.2.source = some g) :
        ((s.fs.rewrite f content).file g).bytes = (s.fs.file g).bytes := by
      by_cases hgf : g = f
      · subst hgf
        rcases hcalm.1 with hsame | hother
        · simpa [Files.rewrite] using hsame
        · exact absurd hg (hother x hx)
      · simp [Files.rewrite, Function.update_of_ne hgf]
    have hbytes : (s.fs.rewrite f content).bytes x.2.source = s.fs.bytes x.2.source := by
      change (s.fs.ino x.2.source).map _ = (s.fs.ino x.2.source).map _
      cases hg : s.fs.ino x.2.source with
      | none => rfl
      | some g => exact congrArg some (hfile g hg)
    refine ⟨hk, ?_⟩
    obtain ⟨k, v⟩ := x
    cases v with
    | pass p =>
        have hp := hfile p.file hlive.1
        refine ⟨hlive.1, ?_⟩
        rw [hp]
        exact hlive.2
    | prep p => exact ⟨fun b hb => hlive.1 b (hbytes.symm.trans hb), hlive.2⟩
    | upload u => exact ⟨fun b hb => hlive.1 b (hbytes.symm.trans hb), hlive.2⟩
  disk := by
    intro x hx
    obtain ⟨hk, hrec⟩ := h.disk x hx
    have hstamp {g : FileId} {st : PayloadStamp} (hx' : x.2.stamp = some st)
        (hg : (s.fs.rewrite f content).stamp g = some st) :
        (s.fs.rewrite f content).file g = s.fs.file g := by
      have hgf : g ≠ f := by
        rintro rfl
        exact hcalm.2 x hx (by simp [hx']) (hx'.trans hg.symm)
      simp [Files.rewrite, Function.update_of_ne hgf]
    have hold {g : FileId} {st : PayloadStamp} (hx' : x.2.stamp = some st)
        (hg : (s.fs.rewrite f content).stamp g = some st) : s.fs.stamp g = some st := by
      rw [Files.stamp, hstamp hx' hg] at hg
      exact hg
    refine ⟨hk, ?_⟩
    obtain ⟨k, r⟩ := x
    cases r with
    | prep p st =>
        intro g hg
        change ∀ i < p.chunks.length, chunkAt ((s.fs.rewrite f content).file g).bytes i = _
        rw [hstamp rfl hg]
        exact hrec g (hold rfl hg)
    | upload sealing payload st =>
        refine ⟨fun g hg => ?_, hrec.2⟩
        change UploadTrue prims _ sealing ((s.fs.rewrite f content).file g).bytes
        rw [hstamp rfl hg]
        exact hrec.1 g (hold rfl hg)
    | send path key chunks => exact hrec

/-! ### Live sends -/

/-- The text a pass that starts now would hash. -/
theorem startPass (h : Truthful prims truth s) {id : ℕ} {source : SendSource} {key : Bytes}
    {held : Bool} {expected : Option (List Bytes)} (hkey : s.Drawn prims key)
    (hexp : match expected with
      | none => ∀ bytes, s.fs.bytes source = some bytes → ∀ i, chunkAt bytes i = truth key i
      | some chunks => Hashed prims key chunks.length (truth key) chunks) :
    Truthful prims truth (s.startPass id source key held expected) := by
  unfold Sender.startPass
  split
  · exact h.finish id
  next file hfile =>
    refine h.hold hkey ⟨hfile, rfl, ?_, ?_, ?_⟩
    · intro i hi
      cases hi
    · intro i d hd
      cases hd
    · cases expected with
      | none =>
          intro i
          exact hexp _ (by simp [Files.bytes, hfile]) i
      | some chunks => exact hexp

theorem drawn_draw (s : Sender) :
    (s.draw prims).2.Drawn prims (prims.randomChunkKey s.drawn) :=
  ⟨s.drawn, Nat.lt_succ_self _, rfl⟩

theorem prepareSend (h : Truthful prims truth s) {n : ℕ}
    (hkeys : Set.InjOn prims.randomChunkKey (Set.Iio n)) (id : ℕ) (source : SendSource)
    (held : Bool) (hn : (s.prepareSend prims id source held).drawn ≤ n) :
    ∃ truth, Truthful prims truth (s.prepareSend prims id source held) := by
  unfold Sender.prepareSend at hn ⊢
  split
  next hnone =>
    simp only [hnone, Sender.drawn_startPass] at hn
    refine ⟨_, (h.draw hn hkeys (chunkAt ((s.fs.bytes source).getD []))).startPass
      (drawn_draw s) ?_⟩
    intro bytes hbytes i
    have hb : s.fs.bytes source = some bytes := hbytes
    simp [hb]
  · exact ⟨truth, h⟩

theorem hashNext (hlaw : prims.Lawful) (h : Truthful prims truth s) {id : ℕ}
    (hcalm : s.Calm (.hashNext id)) : Truthful prims truth (s.hashNext prims id) := by
  unfold Sender.hashNext
  split
  next p hp =>
    obtain ⟨hkey, hino, hsize, hfull, hhashed, hexp⟩ := h.live hp
    have hshort : p.chunks.length < 2 ^ 32 := hcalm _ hp
    rw [Nat.mod_eq_of_lt hshort]
    simp only
    split_ifs with hend hmeets
    · -- the pass is over, and the text is the one the key stands for
      have htotal := totalChunks_eq hfull hend hshort
      rw [hsize, htotal] at hhashed
      have htext : ∀ i < p.chunks.length,
          chunkAt (s.fs.file p.file).bytes i = truth p.key i := by
        intro i hi
        cases hexpected : p.expected with
        | none =>
            rw [hexpected] at hexp
            exact hexp i
        | some chunks =>
            rw [hexpected] at hexp hmeets
            obtain rfl : chunks = p.chunks := by simpa using hmeets
            exact hhashed.unique hlaw hexp hi
      refine h.hold hkey ⟨?_, fun _ => hhashed.congr htext⟩
      intro bytes hbytes i hi
      have hb : bytes = (s.fs.file p.file).bytes := by
        have hb' : s.fs.bytes p.source = some bytes := hbytes
        rw [Files.bytes, hino] at hb'
        exact (Option.some.inj hb').symm
      rw [hb]
      exact htext i hi
    · exact h.finish id
    · split
      · exact h.finish id
      next ct hct =>
        refine h.hold hkey ⟨hino, hsize, ?_, hhashed.snoc hct, hexp⟩
        intro i hi
        rw [List.length_append, List.length_singleton] at hi
        rcases Nat.lt_succ_iff_lt_or_eq.mp hi with hi | rfl
        · exact hfull i hi
        · exact hend
  · exact h

theorem request (h : Truthful prims truth s) (id : ℕ) (hash : Bytes) :
    Truthful prims truth (s.request prims id hash) := by
  unfold Sender.request
  split
  next p hp =>
    obtain ⟨hkey, hlive, -⟩ := h.live hp
    split
    next e he =>
      obtain ⟨bytes, hbytes, hprod⟩ := Option.bind_eq_some_iff.mp he
      obtain ⟨hek, hidx, hplain⟩ := produce_spec hprod
      refine h.emit (hek ▸ hkey) ?_
      rw [hplain, hek]
      exact hlive bytes hbytes _ hidx
    · exact h
  · exact h

theorem beginServing (h : Truthful prims truth s) (id : ℕ) :
    Truthful prims truth (s.beginServing id) := by
  unfold Sender.beginServing
  split
  next p hp =>
    obtain ⟨hkey, -, hhashed⟩ := h.live hp
    split
    · exact h
    next hheld => exact h.persist hkey (hhashed (by simpa using hheld))
  · exact h

theorem persistPrepRecord (h : Truthful prims truth s) {id : ℕ}
    (hcalm : s.Calm (.persistPrepRecord id)) : Truthful prims truth (s.persistPrepRecord id) := by
  unfold Sender.persistPrepRecord
  split
  next p hp =>
    obtain ⟨hkey, hlive, -⟩ := h.live hp
    split
    next before after hbefore hafter =>
      split
      · refine h.persist hkey ?_
        intro f hf
        -- the stamp is of the file the preparation reads
        obtain ⟨g, hname, hg⟩ := Files.payloadStamp_eq_some.mp hafter
        obtain rfl := Files.stamp_unique hf hg
        have hlabel : s.fs.names p.source.label = none ∨
            s.fs.names p.source.label = s.fs.ino p.source := hcalm _ hp
        rcases hlabel with hnone | hsame
        · rw [hname] at hnone
          cases hnone
        · refine hlive _ ?_
          simp [Files.bytes, ← hsame, hname]
      · exact h
    · exact h
  · exact h

theorem resumeServe (h : Truthful prims truth s) (old new : ℕ) :
    Truthful prims truth (s.resumeServe old new) := by
  unfold Sender.resumeServe
  split
  next path key chunks hr =>
    obtain ⟨hkey, hhashed⟩ := h.record hr
    exact ((h.remove _).persist hkey hhashed).startPass hkey hhashed
  · exact h

/-! ### Uploads -/

theorem persistUpload (h : Truthful prims truth s) {u : Resumable}
    (hkey : s.Drawn prims u.sealing.key)
    (hu : LiveTrue prims (truth u.sealing.key) s.fs (.upload u)) (id : ℕ) :
    Truthful prims truth (s.persistUpload id u) := by
  unfold Sender.persistUpload
  split
  next p hsource _ =>
    split
    next st hst =>
      refine h.persist hkey ⟨?_, hu.2⟩
      intro f hf
      obtain ⟨g, hname, hg⟩ := Files.payloadStamp_eq_some.mp hst
      obtain rfl := Files.stamp_unique hf hg
      refine hu.1 _ ?_
      simp [Files.bytes, Files.ino, hsource, hname]
    · exact h
  · exact h

theorem remember (h : Truthful prims truth s) {u : Resumable}
    (hkey : s.Drawn prims u.sealing.key)
    (hu : LiveTrue prims (truth u.sealing.key) s.fs (.upload u)) (id : ℕ) :
    Truthful prims truth (s.remember id u) := by
  refine (h.persistUpload hkey hu id).hold ?_ ?_
  · obtain ⟨n, hn, hk⟩ := hkey
    exact ⟨n, by simpa using hn, hk⟩
  · rw [Sender.fs_persistUpload]
    exact hu

/-- A seal under a fresh key. -/
theorem remember_draw (h : Truthful prims truth s) {n : ℕ} (hn : s.drawn < n)
    (hkeys : Set.InjOn prims.randomChunkKey (Set.Iio n)) (id : ℕ) {u : Resumable}
    (hu : u.sealing.key = prims.randomChunkKey s.drawn) :
    ∃ truth, Truthful prims truth ((s.draw prims).2.remember id u) := by
  refine ⟨_, (h.draw hn hkeys
    (uploadText prims u.sealing ((s.fs.bytes u.source).getD []))).remember ?_ ?_ id⟩
  · rw [hu]
    exact drawn_draw s
  · rw [hu, Function.update_self]
    refine ⟨?_, headerTrue_uploadText _ _⟩
    intro bytes hbytes
    have hb : s.fs.bytes u.source = some bytes := hbytes
    rw [hb]
    exact uploadTrue_uploadText _ _

theorem createLink (h : Truthful prims truth s) {n : ℕ}
    (hkeys : Set.InjOn prims.randomChunkKey (Set.Iio n)) (id : ℕ) (source : SendSource)
    (hn : (s.createLink prims id source).drawn ≤ n) :
    ∃ truth, Truthful prims truth (s.createLink prims id source) := by
  unfold Sender.createLink at hn ⊢
  split
  · exact ⟨truth, h⟩
  next size hsize =>
    simp only [hsize, Sender.drawn_remember] at hn
    exact h.remember_draw hn hkeys id rfl

theorem newMailboxSeal (h : Truthful prims truth s) {n : ℕ}
    (hkeys : Set.InjOn prims.randomChunkKey (Set.Iio n)) (id : ℕ) (source : SendSource) (size : ℕ)
    (restorable : Bool) (hn : (s.newMailboxSeal prims id source size restorable).drawn ≤ n) :
    ∃ truth, Truthful prims truth (s.newMailboxSeal prims id source size restorable) := by
  simp only [Sender.newMailboxSeal, Sender.drawn_remember] at hn
  exact h.remember_draw hn hkeys id rfl

theorem mailboxSeal (h : Truthful prims truth s) {n : ℕ}
    (hkeys : Set.InjOn prims.randomChunkKey (Set.Iio n)) (id : ℕ) (source : SendSource)
    (restorable : Bool) (hn : (s.mailboxSeal prims id source restorable).drawn ≤ n) :
    ∃ truth, Truthful prims truth (s.mailboxSeal prims id source restorable) := by
  unfold Sender.mailboxSeal at hn ⊢
  split
  · exact ⟨truth, h⟩
  next size hsize =>
    simp only [hsize] at hn
    split at hn
    · split_ifs at hn ⊢
      · exact ⟨truth, h⟩
      · exact (h.forget id).newMailboxSeal hkeys id source size restorable hn
    · exact h.newMailboxSeal hkeys id source size restorable hn

theorem attempt (h : Truthful prims truth s) (id : ℕ) : Truthful prims truth (s.attempt id) := by
  unfold Sender.attempt
  split
  next u hu =>
    obtain ⟨hkey, hlive⟩ := h.live hu
    split
    · exact h.hold hkey hlive
    · exact h.forget id
  · exact h

theorem interrupt (h : Truthful prims truth s) (id : ℕ) :
    Truthful prims truth (s.interrupt id) := by
  unfold Sender.interrupt
  split
  next u hu =>
    obtain ⟨hkey, hlive⟩ := h.live hu
    exact h.hold hkey hlive
  · exact h

theorem sessionChanged (h : Truthful prims truth s) (id : ℕ) :
    Truthful prims truth (s.sessionChanged id) := by
  unfold Sender.sessionChanged
  split
  next u hu =>
    obtain ⟨hkey, hlive⟩ := h.live hu
    exact h.persistUpload hkey hlive id
  · exact h

theorem sendUnit (h : Truthful prims truth s) (id i : ℕ) :
    Truthful prims truth (s.sendUnit prims id i) := by
  unfold Sender.sendUnit
  split
  next u hu =>
    obtain ⟨hkey, hlive, -⟩ := h.live hu
    split
    next e he =>
      obtain ⟨bytes, hbytes, hunit⟩ := Option.bind_eq_some_iff.mp he
      have hek := (emitUnit_spec hunit).1
      split
      · refine h.emit (hek ▸ hkey) ?_
        rw [hek]
        exact hlive bytes hbytes i e hunit
      · exact h
    · exact h
  · exact h

theorem sendHeader (h : Truthful prims truth s) (id : ℕ) :
    Truthful prims truth (s.sendHeader prims id) := by
  unfold Sender.sendHeader
  split
  next u hu =>
    obtain ⟨hkey, -, hlive⟩ := h.live hu
    split
    next e he =>
      have hek := (header_spec he).1
      split
      · refine h.emit (hek ▸ hkey) ?_
        rw [hek]
        exact hlive e he
      · exact h
    · exact h
  · exact h

/-- A seal that is taken up again is over the content it was made for. -/
theorem takeUploadRecord (h : Truthful prims truth s) (old : ℕ) (payload : String) :
    Truthful prims truth (s.takeUploadRecord old payload).2 ∧
    ∀ sealing, (s.takeUploadRecord old payload).1 = some sealing →
      (s.takeUploadRecord old payload).2.Drawn prims sealing.key ∧
      ∀ restorable sending, LiveTrue prims (truth sealing.key)
        (s.takeUploadRecord old payload).2.fs
        (.upload ⟨.path payload, sealing, restorable, sending⟩) := by
  unfold Sender.takeUploadRecord
  split
  next sealing path st hr =>
    obtain ⟨hkey, hunits, hheader⟩ := h.record hr
    refine ⟨h.remove _, ?_⟩
    intro sealing' hs
    simp only at hs
    split_ifs at hs with hstamp
    obtain rfl := Option.some.inj hs
    refine ⟨hkey, fun restorable sending => ⟨?_, hheader⟩⟩
    intro bytes hbytes
    obtain ⟨f, hname, hf⟩ := Files.payloadStamp_eq_some.mp hstamp.2
    have hb : bytes = (s.fs.file f).bytes := by
      have hb' : s.fs.bytes (.path payload) = some bytes := hbytes
      rw [Files.bytes, Files.ino, hname] at hb'
      exact (Option.some.inj hb').symm
    rw [hb]
    exact hunits f hf
  · exact ⟨h.remove _, fun _ hs => by cases hs⟩

theorem restoreLink (h : Truthful prims truth s) {n : ℕ}
    (hkeys : Set.InjOn prims.randomChunkKey (Set.Iio n)) (old new : ℕ) (payload : String)
    (hn : (s.restoreLink prims old new payload).drawn ≤ n) :
    ∃ truth, Truthful prims truth (s.restoreLink prims old new payload) := by
  obtain ⟨hs, hseal⟩ := h.takeUploadRecord old payload
  unfold Sender.restoreLink at hn ⊢
  generalize s.takeUploadRecord old payload = taken at *
  obtain ⟨resumed, s'⟩ := taken
  cases resumed with
  | none => exact hs.createLink hkeys new _ hn
  | some sealing =>
      cases sealing with
      | mailbox key size => exact hs.createLink hkeys new _ hn
      | link key name size =>
          obtain ⟨hkey, hlive⟩ := hseal _ rfl
          exact ⟨truth, hs.remember hkey (hlive true false) new⟩

theorem restoreUpload (h : Truthful prims truth s) (old new : ℕ) (payload : String) :
    Truthful prims truth (s.restoreUpload old new payload) := by
  obtain ⟨hs, hseal⟩ := h.takeUploadRecord old payload
  unfold Sender.restoreUpload
  generalize s.takeUploadRecord old payload = taken at *
  obtain ⟨resumed, s'⟩ := taken
  cases resumed with
  | none => exact hs
  | some sealing =>
      obtain ⟨hkey, hlive⟩ := hseal _ rfl
      exact hs.remember hkey (hlive true false) new

theorem restoreSendto (h : Truthful prims truth s) (old new : ℕ) (payload : String) :
    Truthful prims truth (s.restoreSendto old new payload) := by
  unfold Sender.restoreSendto
  split
  next p st hr =>
    have hremoved := h.remove (.prep, old)
    have hrest := hremoved.restoreUpload old new payload
    have hrec : RecordTrue prims (truth p.key)
        ((s.remove (.prep, old)).restoreUpload old new payload).fs (.prep p st) := by
      rw [Sender.fs_restoreUpload]
      exact (h.record hr).2
    have hkey : ((s.remove (.prep, old)).restoreUpload old new payload).Drawn prims p.key := by
      obtain ⟨n, hn, hk⟩ := (h.record hr).1
      exact ⟨n, by simpa [Sender.remove] using hn, hk⟩
    generalize (s.remove (.prep, old)).restoreUpload old new payload = s' at *
    simp only
    split
    next prep hprep =>
      unfold Sender.rebuildPrep at hprep
      split_ifs at hprep with hsame
      obtain rfl := Option.some.inj hprep
      have hlive : LiveTrue prims (truth p.key) s'.fs
          (.prep { p with source := .path payload, held := true, before := none }) := by
        refine ⟨?_, fun hheld => by cases hheld⟩
        intro bytes hbytes
        obtain ⟨f, hname, hf⟩ := Files.payloadStamp_eq_some.mp hsame.1
        have hb : bytes = (s'.fs.file f).bytes := by
          rw [Files.bytes, Files.ino, hname] at hbytes
          exact (Option.some.inj hbytes).symm
        rw [hb]
        exact hrec f hf
      refine Truthful.persist ?_ hkey hrec
      exact hrest.hold (v := .prep _) hkey hlive
    · exact hrest
  · exact h.restoreUpload old new payload

end Truthful

/-! ### Runs -/

variable {prims : Prims} {s : Sender}

theorem drawn_le_step (s : Sender) (e : Event) : s.drawn ≤ (s.step prims e).drawn := by
  cases e with
  | prepareSend id source held =>
      simp only [Sender.step, Sender.prepareSend]
      split
      · simp [Sender.draw]
      · exact le_rfl
  | hashNext id =>
      simp only [Sender.step, Sender.hashNext]
      split
      · split_ifs <;> (try split) <;> exact le_rfl
      · exact le_rfl
  | request id hash =>
      simp only [Sender.step, Sender.request]
      split
      · split <;> exact le_rfl
      · exact le_rfl
  | beginServing id =>
      simp only [Sender.step, Sender.beginServing]
      split
      · split <;> exact le_rfl
      · exact le_rfl
  | persistPrepRecord id =>
      simp only [Sender.step, Sender.persistPrepRecord]
      split
      · split
        · split <;> exact le_rfl
        · exact le_rfl
      · exact le_rfl
  | createLink id source => exact s.drawn_le_createLink prims id source
  | mailboxSeal id source restorable =>
      simp only [Sender.step, Sender.mailboxSeal]
      split
      · exact le_rfl
      · split
        · split
          · exact le_rfl
          · simp [Sender.newMailboxSeal, Sender.draw, Sender.forget, Sender.release, Sender.remove]
        · simp [Sender.newMailboxSeal, Sender.draw]
  | attempt id =>
      simp only [Sender.step, Sender.attempt]
      split
      · split <;> exact le_rfl
      · exact le_rfl
  | interrupt id =>
      simp only [Sender.step, Sender.interrupt]
      split <;> exact le_rfl
  | sessionChanged id =>
      simp only [Sender.step, Sender.sessionChanged]
      split
      · simp
      · exact le_rfl
  | sendUnit id i =>
      simp only [Sender.step, Sender.sendUnit]
      split
      · split
        · split <;> exact le_rfl
        · exact le_rfl
      · exact le_rfl
  | sendHeader id =>
      simp only [Sender.step, Sender.sendHeader]
      split
      · split
        · split <;> exact le_rfl
        · exact le_rfl
      · exact le_rfl
  | restoreLink old new payload =>
      have htake := s.drawn_takeUploadRecord old payload
      simp only [Sender.step, Sender.restoreLink]
      generalize s.takeUploadRecord old payload = taken at *
      obtain ⟨resumed, s'⟩ := taken
      have hlink := s'.drawn_le_createLink prims new (.path payload)
      cases resumed with
      | none => exact htake.ge.trans hlink
      | some sealing =>
          cases sealing with
          | mailbox key size => exact htake.ge.trans hlink
          | link key name size => simpa using htake.ge
  | restoreSendto old new payload =>
      simp only [Sender.step, Sender.restoreSendto]
      split
      · split
        · simp [Sender.persist, Sender.hold, Sender.remove]
        · simp [Sender.remove]
      · simp
  | resumeServe old new =>
      simp only [Sender.step, Sender.resumeServe]
      split
      · simp [Sender.persist, Sender.remove]
      · exact le_rfl
  | rewrite | relink | forget | finish | sweep | die => exact le_rfl

theorem truthful_step (hlaw : prims.Lawful) {n : ℕ}
    (hkeys : Set.InjOn prims.randomChunkKey (Set.Iio n)) {e : Event} {truth : Bytes → ℕ → Bytes}
    (h : Truthful prims truth s) (hcalm : s.Calm e) (hn : (s.step prims e).drawn ≤ n) :
    ∃ truth, Truthful prims truth (s.step prims e) := by
  cases e with
  | rewrite f content => exact ⟨truth, h.rewrite hcalm⟩
  | relink p f => exact ⟨truth, h.relink hcalm⟩
  | prepareSend id source held => exact h.prepareSend hkeys id source held hn
  | hashNext id => exact ⟨truth, h.hashNext hlaw hcalm⟩
  | request id hash => exact ⟨truth, h.request id hash⟩
  | beginServing id => exact ⟨truth, h.beginServing id⟩
  | persistPrepRecord id => exact ⟨truth, h.persistPrepRecord hcalm⟩
  | createLink id source => exact h.createLink hkeys id source hn
  | mailboxSeal id source restorable => exact h.mailboxSeal hkeys id source restorable hn
  | attempt id => exact ⟨truth, h.attempt id⟩
  | interrupt id => exact ⟨truth, h.interrupt id⟩
  | sessionChanged id => exact ⟨truth, h.sessionChanged id⟩
  | sendUnit id i => exact ⟨truth, h.sendUnit id i⟩
  | sendHeader id => exact ⟨truth, h.sendHeader id⟩
  | forget id => exact ⟨truth, h.forget id⟩
  | finish id => exact ⟨truth, h.finish id⟩
  | sweep k id => exact ⟨truth, h.remove (k, id)⟩
  | die => exact ⟨truth, h.die⟩
  | restoreSendto old new payload => exact ⟨truth, h.restoreSendto old new payload⟩
  | restoreLink old new payload => exact h.restoreLink hkeys old new payload hn
  | resumeServe old new => exact ⟨truth, h.resumeServe old new⟩

theorem truthful_start (fs : Files) (truth : Bytes → ℕ → Bytes) : Truthful prims truth { fs } := by
  constructor <;> (intro x hx; cases hx)

/-- All that was sent under one key at one index is one plaintext. -/
def Sender.NoncesUnique (s : Sender) : Prop :=
  ∀ e ∈ s.emitted, ∀ e' ∈ s.emitted, e.key = e'.key → e.index = e'.index → e.plain = e'.plain

instance (s : Sender) : Decidable s.NoncesUnique :=
  inferInstanceAs (Decidable (∀ e ∈ s.emitted, ∀ e' ∈ s.emitted, _))

/-- A stand-in for the primitives: `Aead.plain`, no hashing, and keys that count. -/
def Prims.plain : Prims := ⟨Aead.plain, id, fun n => List.replicate n 1⟩

theorem Prims.plain_lawful : Prims.plain.Lawful := ⟨Aead.plain_lawful, Function.injective_id⟩

/-- One file, `report`, of two bytes. -/
def oneFile : Files := ⟨fun _ => ⟨[1, 2], some 0⟩, fun p => if p = "report" then some 7 else none⟩

/-- The digest of the file's only chunk under the first key. -/
def onlyDigest : Bytes := [1, 2] ++ List.replicate tag 255

/-- A share is served, and the file is corrected between two requests for one chunk. -/
def correctedRun : List Event :=
  [.prepareSend 1 (.path "report") false, .hashNext 1, .hashNext 1, .beginServing 1,
    .request 1 onlyDigest, .rewrite 7 ⟨[1, 3], some 1⟩, .request 1 onlyDigest]

/-- A share is served, comes back after a restart and is served again; the file is
corrected when it is over. -/
def quietRun : List Event :=
  [.prepareSend 1 (.path "report") false, .hashNext 1, .hashNext 1, .beginServing 1,
    .request 1 onlyDigest, .die, .resumeServe 1 2, .hashNext 2, .hashNext 2,
    .request 2 onlyDigest, .finish 2, .rewrite 7 ⟨[1, 3], some 1⟩]

end Arvolo.Send
