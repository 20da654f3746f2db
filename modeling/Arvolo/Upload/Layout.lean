import Arvolo.Crypto.Chunk

/-!
`SealedLayout` of `core/src/upload.rs`: the ciphertext of one deposit, generated
on demand.

A layout is a header followed by sealed chunks, each optionally preceded by its
length. `stream` produces any range of it by sealing the chunks the range
touches; the main result here is that this is the same range of the whole
ciphertext, `toVec`.
-/

namespace Arvolo.Upload

open Crypto

def chunkSizeMailbox : ℕ := 16 * 1024 * 1024

def linkChunkSize : ℕ := 1024 * 1024

/-- What a layout is made of. The source is the file's bytes. -/
structure Layout where
  source : Bytes
  key : Bytes
  chunkSize : ℕ
  size : ℕ
  /-- Bytes before the first chunk (the link container's header). -/
  lead : Bytes
  /-- Whether each chunk is preceded by its ciphertext length. -/
  lenPrefixed : Bool
  chunkSize_pos : 0 < chunkSize
  chunkSize_lt : chunkSize < 2 ^ 32

/-- The layouts the program builds have one of two chunk sizes. -/
structure SealedLayout extends Layout where
  chunkSize_known : chunkSize = chunkSizeMailbox ∨ chunkSize = linkChunkSize

namespace Layout

variable (aead : Aead) (l : Layout)

/-- The number of chunks, cut to a `u32` as the source's cast does. -/
def totalChunks : ℕ := (l.size + (l.chunkSize - 1)) / l.chunkSize % 2 ^ 32

def framing : ℕ := if l.lenPrefixed then 4 else 0

/-- Total ciphertext length: what the relay will hold. -/
def len : ℕ := l.lead.length + l.size + l.totalChunks * (tag + l.framing)

def unitLen (i : ℕ) : ℕ :=
  (if i + 1 = l.totalChunks then l.size - i * l.chunkSize else l.chunkSize) + tag + l.framing

/-- A sealed chunk as it goes out. -/
def frame (ct : Bytes) : Bytes := if l.lenPrefixed then u32le ct.length ++ ct else ct

/-- Read and seal chunk `i`. -/
def unit (i : ℕ) : Option Bytes :=
  let want := l.unitLen i - tag - l.framing
  let buf := (l.source.drop (i * l.chunkSize)).take want
  if buf.length = want then
    (sealChunk aead l.key i l.totalChunks buf).map l.frame
  else none

/-- The whole ciphertext. -/
def toVec : Option Bytes :=
  ((List.range l.totalChunks).mapM (l.unit aead)).map fun units => l.lead ++ units.flatten

/-- The chunks from `i` on: the first without its first `skip` bytes, and `stop`
the position to end at. A chunk that cannot be read ends the body. -/
def streamUnits (stop pos i skip : ℕ) : Bytes :=
  if pos < stop ∧ i < l.totalChunks then
    match l.unit aead i with
    | none => []
    | some u =>
        let fin := min (skip + (stop - pos)) u.length
        (u.take fin).drop skip ++ streamUnits stop (pos + (fin - skip)) (i + 1) 0
  else []
  termination_by l.totalChunks - i

/-- The ciphertext bytes `[start, stop)`, as the body of a request. -/
def stream (start stop : ℕ) : Bytes :=
  let stop := min stop l.len
  let plen := l.lead.length
  let first := if start < plen ∧ start < stop then (l.lead.take (min stop plen)).drop start else []
  let pos := if start < plen ∧ start < stop then min stop plen else start
  if pos ≥ stop then first
  else
    let full := l.unitLen 0
    first ++ l.streamUnits aead stop pos ((pos - plen) / full % 2 ^ 32) ((pos - plen) % full)

/-! ### The chunks of a layout that can be sealed -/

theorem length_frame (ct : Bytes) : (l.frame ct).length = ct.length + l.framing := by
  unfold frame framing
  split <;> simp [Nat.add_comm]

section

variable {aead} {l} (haead : aead.Lawful)

include haead

theorem length_unit {i : ℕ} {u : Bytes} (h : l.unit aead i = some u) :
    u.length = l.unitLen i := by
  simp only [unit, sealChunk] at h
  split_ifs at h with hfull
  obtain ⟨ct, hct, rfl⟩ := Option.map_eq_some_iff.mp h
  rw [length_frame, haead.length_encrypt hct, hfull]
  unfold unitLen
  omega

/-- A chunk that could be sealed is within the limit of the cipher. -/
theorem unitLen_le_of_unit {i : ℕ} {u : Bytes} (h : l.unit aead i = some u) :
    l.unitLen i - tag - l.framing ≤ 2 ^ 36 := by
  simp only [unit, sealChunk] at h
  split_ifs at h with hfull
  obtain ⟨ct, hct, -⟩ := Option.map_eq_some_iff.mp h
  rw [← hfull]
  exact haead.limit hct

end

/-- The last chunk starts inside the file and reaches its end. -/
structure Fits : Prop where
  lower : (l.totalChunks - 1) * l.chunkSize < l.size
  upper : l.size ≤ l.totalChunks * l.chunkSize

/-- A count that was not cut short fits. -/
theorem fits_of_count_lt (h : (l.size + (l.chunkSize - 1)) / l.chunkSize < 2 ^ 32) :
    l.totalChunks = 0 ∧ l.size = 0 ∨ l.Fits := by
  have hpos := l.chunkSize_pos
  have hceil := Nat.div_add_mod (l.size + (l.chunkSize - 1)) l.chunkSize
  have hrem := Nat.mod_lt (l.size + (l.chunkSize - 1)) hpos
  have htotal : l.totalChunks = (l.size + (l.chunkSize - 1)) / l.chunkSize := Nat.mod_eq_of_lt h
  rw [← htotal] at hceil
  rcases Nat.eq_zero_or_pos l.totalChunks with hzero | hsome
  · left
    rw [hzero, Nat.mul_zero] at hceil
    exact ⟨hzero, by omega⟩
  · right
    have hpred : l.chunkSize * l.totalChunks =
        (l.totalChunks - 1) * l.chunkSize + l.chunkSize := by
      rw [Nat.mul_comm, ← Nat.succ_mul, Nat.succ_eq_add_one, Nat.sub_add_cancel hsome]
    have hcomm : l.totalChunks * l.chunkSize = l.chunkSize * l.totalChunks := Nat.mul_comm ..
    constructor <;> omega

/-! ### Ranges of the ciphertext -/

theorem mapM_eq_some {α β : Type} {f : α → Option β} (d : β) {xs : List α} {ys : List β}
    (h : xs.mapM f = some ys) :
    (∀ x ∈ xs, (f x).isSome) ∧ ys = xs.map fun x => (f x).getD d := by
  induction xs generalizing ys with
  | nil => simpa using h
  | cons x xs ih =>
      simp only [List.mapM_cons, Option.bind_eq_bind, Option.pure_def, Option.bind_eq_some_iff] at h
      obtain ⟨y, hy, ys', hys, heq⟩ := h
      obtain ⟨hsome, htail⟩ := ih hys
      simp only [Option.some.injEq] at heq
      subst heq
      refine ⟨?_, by simp [hy, htail]⟩
      intro z hz
      rcases List.mem_cons.mp hz with rfl | hz'
      · simp [hy]
      · exact hsome z hz'

/-- Chunks `i` to the last, one after another. -/
def chunksFrom (i : ℕ) : Bytes :=
  (List.range' i (l.totalChunks - i)).flatMap fun j => (l.unit aead j).getD []

theorem chunksFrom_succ {i : ℕ} (h : i < l.totalChunks) :
    l.chunksFrom aead i = (l.unit aead i).getD [] ++ l.chunksFrom aead (i + 1) := by
  have hn : l.totalChunks - i = (l.totalChunks - (i + 1)) + 1 := by omega
  simp only [chunksFrom, hn, List.range'_succ, List.flatMap_cons]

theorem chunksFrom_of_le {i : ℕ} (h : l.totalChunks ≤ i) : l.chunksFrom aead i = [] := by
  simp [chunksFrom, Nat.sub_eq_zero_of_le h]

variable {aead l} {v : Bytes}

theorem isSome_of_toVec (h : l.toVec aead = some v) (i : ℕ) (hi : i < l.totalChunks) :
    (l.unit aead i).isSome := by
  obtain ⟨us, hus, -⟩ := Option.map_eq_some_iff.mp h
  exact (mapM_eq_some [] hus).1 i (List.mem_range.mpr hi)

theorem toVec_eq (h : l.toVec aead = some v) : v = l.lead ++ l.chunksFrom aead 0 := by
  obtain ⟨us, hus, rfl⟩ := Option.map_eq_some_iff.mp h
  rw [(mapM_eq_some [] hus).2, chunksFrom, Nat.sub_zero, ← List.range_eq_range', List.flatMap_def]

/-- Sealing chunk after chunk gives the range of what is left to send. -/
theorem streamUnits_eq (hsome : ∀ i < l.totalChunks, (l.unit aead i).isSome)
    (stop pos i skip : ℕ)
    (hskip : i < l.totalChunks → skip ≤ ((l.unit aead i).getD []).length) (hpos : pos ≤ stop) :
    l.streamUnits aead stop pos i skip =
      ((l.chunksFrom aead i).drop skip).take (stop - pos) := by
  -- along the function's own recursion: the chunks not yet reached
  induction hn : l.totalChunks - i generalizing pos i skip with
  | zero =>
      rw [streamUnits, if_neg (by omega), chunksFrom_of_le aead l (by omega)]
      simp
  | succ n ih =>
      have hi : i < l.totalChunks := by omega
      obtain ⟨u, hu⟩ := Option.isSome_iff_exists.mp (hsome i hi)
      have hskip' : skip ≤ u.length := by simpa [hu] using hskip hi
      rw [streamUnits, chunksFrom_succ aead l hi, hu, Option.getD_some]
      by_cases hlt : pos < stop
      · rw [if_pos ⟨hlt, hi⟩]
        simp only
        rw [ih _ _ _ (fun _ => Nat.zero_le _) (by omega) (by omega), List.drop_zero,
          List.drop_append_of_le_length hskip', List.take_append, List.length_drop, List.drop_take]
        congr 1
        · rcases Nat.le_total (skip + (stop - pos)) u.length with hle | hge
          · rw [min_eq_left hle, Nat.add_sub_cancel_left]
          · rw [min_eq_right hge, List.take_of_length_le (by simp),
              List.take_of_length_le (by rw [List.length_drop]; omega)]
        · congr 1
          omega
      · rw [if_neg (fun h => hlt h.1), show stop - pos = 0 by omega, List.take_zero]

section Lawful

variable (haead : aead.Lawful)

include haead

theorem length_chunk (h : l.toVec aead = some v) {i : ℕ} (hi : i < l.totalChunks) :
    ((l.unit aead i).getD []).length = l.unitLen i := by
  obtain ⟨u, hu⟩ := Option.isSome_iff_exists.mp (isSome_of_toVec h i hi)
  rw [hu]
  exact length_unit haead hu

omit haead in
/-- Every unit before the last is full-sized. -/
theorem unitLen_of_lt {i : ℕ} (hi : i + 1 < l.totalChunks) : l.unitLen i = l.unitLen 0 := by
  unfold unitLen
  rw [if_neg (by omega), if_neg (by omega)]

/-- Dropping whole units, then a part of one. -/
theorem chunksFrom_drop (h : l.toVec aead = some v) {i : ℕ} (hi : i < l.totalChunks) (skip : ℕ) :
    (l.chunksFrom aead 0).drop (i * l.unitLen 0 + skip) = (l.chunksFrom aead i).drop skip := by
  induction i generalizing skip with
  | zero => rw [Nat.zero_mul, Nat.zero_add]
  | succ i ih =>
      have hlen : ((l.unit aead i).getD []).length = l.unitLen 0 := by
        rw [length_chunk haead h (by omega), unitLen_of_lt hi]
      rw [Nat.succ_mul, Nat.add_assoc, ih (by omega), chunksFrom_succ aead l (by omega)]
      rw [← hlen, List.drop_append, List.drop_of_length_le (by omega), List.nil_append]
      congr 1
      omega

theorem length_chunksFrom_zero (h : l.toVec aead = some v) (hpos : 0 < l.totalChunks)
    (hfits : l.Fits) :
    (l.chunksFrom aead 0).length = l.size + l.totalChunks * (tag + l.framing) := by
  -- all units but the last by `chunksFrom_drop`, the last by its own length
  have hlast := chunksFrom_drop haead h (i := l.totalChunks - 1) (by omega) 0
  rw [Nat.add_zero, List.drop_zero, chunksFrom_succ aead l (i := l.totalChunks - 1) (by omega),
    chunksFrom_of_le aead l (i := l.totalChunks - 1 + 1) (by omega), List.append_nil] at hlast
  have hlen := congrArg List.length hlast
  rw [List.length_drop, length_chunk haead h (by omega)] at hlen
  have hunit : l.unitLen (l.totalChunks - 1) =
      l.size - (l.totalChunks - 1) * l.chunkSize + (tag + l.framing) := by
    unfold unitLen
    rw [if_pos (by omega), Nat.add_assoc]
  have hfull : (l.totalChunks - 1) * l.unitLen 0 =
      (l.totalChunks - 1) * l.chunkSize + (l.totalChunks - 1) * (tag + l.framing) := by
    rcases Nat.eq_zero_or_pos (l.totalChunks - 1) with h0 | h1
    · simp [h0]
    · have hu : l.unitLen 0 = l.chunkSize + (tag + l.framing) := by
        unfold unitLen
        rw [if_neg (by omega), Nat.add_assoc]
      rw [hu, Nat.mul_add]
  have hpred : (l.totalChunks - 1) * (tag + l.framing) + (tag + l.framing) =
      l.totalChunks * (tag + l.framing) := by
    rw [← Nat.succ_mul]
    congr 1
    omega
  have htag : 0 < tag + l.framing := Nat.add_pos_left (by decide) _
  have hlo := hfits.lower
  rw [hunit] at hlen
  generalize tag + l.framing = w at *
  omega

/-- The ciphertext is never longer than the length declared for it. -/
theorem length_toVec_le (h : l.toVec aead = some v) (hcount : l.totalChunks = 0 ∨ l.Fits) :
    v.length ≤ l.len := by
  rw [toVec_eq h, List.length_append]
  rcases Nat.eq_zero_or_pos l.totalChunks with hz | hpos
  · rw [chunksFrom_of_le aead l (by omega)]
    simp [len]
    omega
  · have hfits := hcount.resolve_left (by omega)
    rw [length_chunksFrom_zero haead h hpos hfits, len]
    omega

/-- A position inside the chunks, split into the unit that holds it and the
offset in that unit. -/
theorem unit_of_position (h : l.toVec aead = some v)
    (hcount : l.totalChunks = 0 ∨ l.Fits) {p : ℕ}
    (hp : p < (l.chunksFrom aead 0).length) :
    p / l.unitLen 0 < l.totalChunks ∧
      p % l.unitLen 0 ≤ ((l.unit aead (p / l.unitLen 0)).getD []).length := by
  have hpos : 0 < l.totalChunks := by
    by_contra hz
    rw [chunksFrom_of_le aead l (by omega)] at hp
    simp at hp
  have hfits := hcount.resolve_left (by omega)
  have hfull : 0 < l.unitLen 0 := by
    unfold unitLen tag
    omega
  have hdiv := Nat.div_add_mod p (l.unitLen 0)
  have hmod := Nat.mod_lt p hfull
  -- the units together are no longer than as many full ones
  have hbound : (l.chunksFrom aead 0).length ≤ l.totalChunks * l.unitLen 0 := by
    rw [length_chunksFrom_zero haead h hpos hfits]
    have hup := hfits.upper
    rcases Nat.lt_or_ge 1 l.totalChunks with hmany | hone
    · have hu : l.unitLen 0 = l.chunkSize + (tag + l.framing) := by
        unfold unitLen
        rw [if_neg (by omega), Nat.add_assoc]
      rw [hu, Nat.mul_add l.totalChunks l.chunkSize]
      exact Nat.add_le_add_right hup _
    · have h1 : l.totalChunks = 1 := by omega
      unfold unitLen
      rw [if_pos (by omega), h1]
      omega
  have hi : p / l.unitLen 0 < l.totalChunks :=
    Nat.div_lt_of_lt_mul (by rw [Nat.mul_comm]; omega)
  refine ⟨hi, ?_⟩
  have hrest := congrArg List.length (chunksFrom_drop haead h hi 0)
  rw [Nat.add_zero, List.length_drop, List.drop_zero, chunksFrom_succ aead l hi,
    List.length_append] at hrest
  have hcomm : l.unitLen 0 * (p / l.unitLen 0) = p / l.unitLen 0 * l.unitLen 0 := mul_comm _ _
  rcases Nat.lt_or_ge (p / l.unitLen 0 + 1) l.totalChunks with hmid | hlast
  · rw [length_chunk haead h hi, unitLen_of_lt hmid]
    omega
  · rw [chunksFrom_of_le aead l hlast, List.length_nil] at hrest
    omega

/-- A range of the stream is that range of the ciphertext. -/
theorem stream_eq (h : l.toVec aead = some v) (hcount : l.totalChunks = 0 ∨ l.Fits)
    (start stop : ℕ) :
    l.stream aead start stop = (v.drop start).take (min stop l.len - start) := by
  have hv := toVec_eq h
  simp only [stream]
  generalize hstop : min stop l.len = stop'
  have hlen : stop' ≤ l.len := by omega
  by_cases hin : start < l.lead.length ∧ start < stop'
  · rw [if_pos hin, if_pos hin]
    have hfirst : (l.lead.take (min stop' l.lead.length)).drop start =
        (l.lead.drop start).take (stop' - start) := by
      rw [List.drop_take]
      rcases Nat.le_total stop' l.lead.length with hle | hge
      · rw [min_eq_left hle]
      · rw [min_eq_right hge, List.take_of_length_le (by simp),
          List.take_of_length_le (by rw [List.length_drop]; omega)]
    rw [hfirst, hv, List.drop_append_of_le_length hin.1.le, List.take_append, List.length_drop]
    by_cases hend : min stop' l.lead.length ≥ stop'
    · rw [if_pos hend, show stop' - start - (l.lead.length - start) = 0 by omega, List.take_zero,
        List.append_nil]
    · rw [if_neg hend]
      congr 1
      rw [show min stop' l.lead.length = l.lead.length by omega, Nat.sub_self, Nat.zero_div,
        Nat.zero_mod, Nat.zero_mod,
        streamUnits_eq (isSome_of_toVec h) _ _ _ _ (fun _ => Nat.zero_le _) (by omega),
        List.drop_zero]
      congr 1
      omega
  · rw [if_neg hin, if_neg hin]
    by_cases hend : start ≥ stop'
    · rw [if_pos hend, Nat.sub_eq_zero_of_le hend, List.take_zero]
    · have hge : l.lead.length ≤ start := by omega
      rw [if_neg hend, List.nil_append, hv, List.drop_append,
        List.drop_of_length_le hge, List.nil_append]
      rcases Nat.eq_zero_or_pos l.totalChunks with hz | hpos
      · rw [streamUnits, if_neg (by omega), chunksFrom_of_le aead l (by omega)]
        simp
      · -- the unit holding `start` is a division away
        have hfits := hcount.resolve_left (by omega)
        have hp : start - l.lead.length < (l.chunksFrom aead 0).length := by
          rw [length_chunksFrom_zero haead h hpos hfits]
          unfold len at hlen
          omega
        obtain ⟨hi, hskip⟩ := unit_of_position haead h hcount hp
        have hcast : (start - l.lead.length) / l.unitLen 0 % 2 ^ 32 =
            (start - l.lead.length) / l.unitLen 0 :=
          Nat.mod_eq_of_lt (hi.trans (Nat.mod_lt _ (by decide)))
        rw [hcast, streamUnits_eq (isSome_of_toVec h) _ _ _ _ (fun _ => hskip) (by omega),
          ← chunksFrom_drop haead h hi, Nat.mul_comm, Nat.div_add_mod]

end Lawful

end Layout

namespace SealedLayout

/-- A mailbox blob: the file as bare sealed chunks. -/
def mailbox (source key : Bytes) (size : ℕ) : SealedLayout :=
  ⟨⟨source, key, chunkSizeMailbox, size, [], false, by decide, by decide⟩, .inl rfl⟩

theorem chunkSize_ge (l : SealedLayout) : 16 ≤ l.chunkSize := by
  rcases l.chunkSize_known with h | h <;> simp [h, chunkSizeMailbox, linkChunkSize]

/-- The chunk count is only cut short on sizes whose last chunk the cipher
refuses, or whose count is cut to zero. -/
theorem fits_or_zero {aead : Aead} (haead : aead.Lawful) {l : SealedLayout}
    (h : ∀ i < l.totalChunks, (l.unit aead i).isSome) : l.totalChunks = 0 ∨ l.Fits := by
  rcases Nat.eq_zero_or_pos l.totalChunks with hzero | hpos
  · exact .inl hzero
  right
  have hchunk := l.chunkSize_ge
  have hceil := Nat.div_add_mod (l.size + (l.chunkSize - 1)) l.chunkSize
  have hrem := Nat.mod_lt (l.size + (l.chunkSize - 1)) (show 0 < l.chunkSize by omega)
  have hcut := Nat.div_add_mod ((l.size + (l.chunkSize - 1)) / l.chunkSize) (2 ^ 32)
  obtain ⟨u, hu⟩ := Option.isSome_iff_exists.mp (h (l.totalChunks - 1) (by omega))
  have hlimit := Layout.unitLen_le_of_unit haead hu
  have hlast : l.unitLen (l.totalChunks - 1) - tag - l.framing =
      l.size - (l.totalChunks - 1) * l.chunkSize := by
    simp only [Layout.unitLen, show l.totalChunks - 1 + 1 = l.totalChunks by omega, if_true]
    omega
  rw [hlast] at hlimit
  set n := (l.size + (l.chunkSize - 1)) / l.chunkSize with hn
  set q := n / 2 ^ 32 with hq
  have htot : l.totalChunks = n % 2 ^ 32 := rfl
  have hnq : n = 2 ^ 32 * q + l.totalChunks := by omega
  have hprod : l.chunkSize * n = l.chunkSize * l.totalChunks + l.chunkSize * (2 ^ 32 * q) := by
    rw [hnq]; ring
  have hpred : (l.totalChunks - 1) * l.chunkSize + l.chunkSize = l.totalChunks * l.chunkSize := by
    obtain ⟨t, ht⟩ := Nat.exists_eq_add_of_lt hpos
    rw [ht]
    simp
    ring
  have hcomm : l.chunkSize * l.totalChunks = l.totalChunks * l.chunkSize := mul_comm _ _
  have hq0 : q = 0 := by
    by_contra hne
    have hbig : 2 ^ 36 ≤ l.chunkSize * (2 ^ 32 * q) := by
      calc 2 ^ 36 = 16 * (2 ^ 32 * 1) := by norm_num
        _ ≤ l.chunkSize * (2 ^ 32 * q) :=
            Nat.mul_le_mul hchunk (Nat.mul_le_mul_left _ (Nat.one_le_iff_ne_zero.mpr hne))
    omega
  rw [hq0] at hprod
  constructor <;> omega

variable {aead : Aead} {l : SealedLayout} {v : Bytes} (haead : aead.Lawful)

include haead

theorem length_toVec_le (h : l.toVec aead = some v) : v.length ≤ l.len :=
  Layout.length_toVec_le haead h (fits_or_zero haead (Layout.isSome_of_toVec h))

theorem stream_eq (h : l.toVec aead = some v) (start stop : ℕ) :
    l.stream aead start stop = (v.drop start).take (min stop l.len - start) :=
  Layout.stream_eq haead h (fits_or_zero haead (Layout.isSome_of_toVec h)) start stop

end SealedLayout

end Arvolo.Upload
