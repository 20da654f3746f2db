import Arvolo.Upload.Ranges

/-!
The body of an upload request, piece by piece: the lead, then chunk after chunk, each read
from the file when the connection asks for it.

A piece depends on the file through one chunk at most, so pieces read at different times
may be of different files. What `append_piece_prefix` says of a ciphertext, and
`piece_le_of_unit_none` of a file with a chunk that cannot be sealed, is about one file.
-/

namespace Arvolo.Upload

open Crypto

namespace Layout

section Pieces

variable (aead : Aead) (l : Layout)

/-- Where the piece at `pos` ends: the lead is one piece, and then every chunk. -/
def pieceEnd (pos : ℕ) : ℕ :=
  if pos < l.lead.length then l.lead.length
  else l.lead.length + ((pos - l.lead.length) / l.unitLen 0 + 1) * l.unitLen 0

/-- What `stream` yields next at `pos`, for a request that ends at `stop`. -/
def piece (pos stop : ℕ) : Bytes := l.stream aead pos (min stop (l.pieceEnd pos))

/-- The same layout over what the file holds at another time. -/
def reading (source : Bytes) : Layout := { l with source }

theorem streamUnits_congr (l l' : Layout) (htotal : l'.totalChunks = l.totalChunks)
    (h : ∀ i < l.totalChunks, l'.unit aead i = l.unit aead i) (stop pos i skip : ℕ) :
    l'.streamUnits aead stop pos i skip = l.streamUnits aead stop pos i skip := by
  induction hn : l.totalChunks - i generalizing pos i skip with
  | zero =>
      rw [streamUnits, if_neg (by omega), streamUnits, if_neg (by omega)]
  | succ n ih =>
      have hi : i < l.totalChunks := by omega
      rw [streamUnits, streamUnits, htotal, h i hi]
      by_cases hlt : pos < stop ∧ i < l.totalChunks
      · rw [if_pos hlt, if_pos hlt]
        cases l.unit aead i with
        | none => rfl
        | some u => simp only [ih _ _ _ (show l.totalChunks - (i + 1) = n by omega)]
      · rw [if_neg hlt, if_neg hlt]

/-- A stream depends on the file only through the chunks. -/
theorem stream_reading {source : Bytes}
    (h : ∀ i < l.totalChunks, (l.reading source).unit aead i = l.unit aead i) (start stop : ℕ) :
    (l.reading source).stream aead start stop = l.stream aead start stop := by
  have hunits := streamUnits_congr aead l (l.reading source) rfl h
  have hlen : (l.reading source).len = l.len := rfl
  have hunit : (l.reading source).unitLen 0 = l.unitLen 0 := rfl
  have hlead : (l.reading source).lead = l.lead := rfl
  simp only [stream, hunits, hlen, hunit, hlead]

variable {l}

/-- A chunk lies within the size the layout was made for. -/
theorem chunk_end_le {i : ℕ} (hi : i < l.totalChunks) :
    i * l.chunkSize + (l.unitLen i - tag - l.framing) ≤ l.size := by
  have hpos := l.chunkSize_pos
  have hle : l.totalChunks ≤ (l.size + (l.chunkSize - 1)) / l.chunkSize := Nat.mod_le _ _
  have hceil := Nat.div_mul_le_self (l.size + (l.chunkSize - 1)) l.chunkSize
  have hnext : (i + 1) * l.chunkSize ≤
      (l.size + (l.chunkSize - 1)) / l.chunkSize * l.chunkSize :=
    Nat.mul_le_mul_right _ (by omega)
  rw [Nat.succ_mul] at hnext
  unfold unitLen
  split_ifs with hlast
  · omega
  · have hmid : (i + 1 + 1) * l.chunkSize ≤
        (l.size + (l.chunkSize - 1)) / l.chunkSize * l.chunkSize :=
      Nat.mul_le_mul_right _ (by omega)
    rw [Nat.succ_mul, Nat.succ_mul] at hmid
    omega

theorem unit_reading (source : Bytes) (i : ℕ) : (l.reading source).unit aead i =
    if ((source.drop (i * l.chunkSize)).take (l.unitLen i - tag - l.framing)).length =
        l.unitLen i - tag - l.framing then
      (sealChunk aead l.key i l.totalChunks
        ((source.drop (i * l.chunkSize)).take (l.unitLen i - tag - l.framing))).map l.frame
    else none := rfl

/-- Nothing past the size the layout was made for is read. -/
theorem unit_reading_take {i : ℕ} (hi : i < l.totalChunks) :
    (l.reading (l.source.take l.size)).unit aead i = l.unit aead i := by
  have hend := chunk_end_le hi
  have hread : ((l.source.take l.size).drop (i * l.chunkSize)).take
      (l.unitLen i - tag - l.framing) =
      (l.source.drop (i * l.chunkSize)).take (l.unitLen i - tag - l.framing) := by
    rw [List.drop_take, List.take_take, min_eq_left (by omega)]
  rw [unit_reading, hread]
  rfl

theorem piece_reading_take (pos stop : ℕ) :
    (l.reading (l.source.take l.size)).piece aead pos stop = l.piece aead pos stop :=
  stream_reading aead l (fun _ hi => unit_reading_take aead hi) _ _

theorem piece_of_lt_lead {pos : ℕ} (hpos : pos < l.lead.length) (stop : ℕ) :
    l.piece aead pos stop = (l.lead.take stop).drop pos := by
  have hlen : l.lead.length ≤ l.len := by
    unfold len
    omega
  unfold piece pieceEnd stream
  rw [if_pos hpos]
  have hstop : min (min stop l.lead.length) l.len = min stop l.lead.length := by omega
  have htake : l.lead.take (min stop l.lead.length) = l.lead.take stop := by
    rw [← List.take_take, List.take_length]
  by_cases hlt : pos < min stop l.lead.length
  · simp [hstop, hpos, hlt, htake]
  · rw [List.drop_of_length_le (by rw [List.length_take]; omega)]
    simp only [hstop, hlt, and_false, if_false, ge_iff_le, not_lt.mp hlt, if_true]

/-! ### A layout with a chunk that cannot be sealed -/

theorem length_streamUnits_le (stop pos i skip : ℕ) :
    (l.streamUnits aead stop pos i skip).length ≤ stop - pos := by
  induction hn : l.totalChunks - i generalizing pos i skip with
  | zero =>
      rw [streamUnits, if_neg (by omega)]
      exact Nat.zero_le _
  | succ n ih =>
      rw [streamUnits]
      split_ifs with hlt
      · cases l.unit aead i with
        | none => exact Nat.zero_le _
        | some u =>
            have hrest := ih (pos + (min (skip + (stop - pos)) u.length - skip)) (i + 1) 0
              (by omega)
            simp only [List.length_append, List.length_drop, List.length_take]
            omega
      · exact Nat.zero_le _

/-- The body never gets past a chunk that cannot be sealed. -/
theorem piece_le_of_unit_none {k : ℕ} (hk : k < l.totalChunks) (hnone : l.unit aead k = none)
    {pos : ℕ} (hpos : pos ≤ l.lead.length + k * l.unitLen 0) (stop : ℕ) :
    pos + (l.piece aead pos stop).length ≤ l.lead.length + k * l.unitLen 0 := by
  have hfull : 0 < l.unitLen 0 := by
    unfold unitLen tag
    omega
  have htotal : l.totalChunks < 2 ^ 32 := Nat.mod_lt _ (by decide)
  by_cases hlead : pos < l.lead.length
  · -- within the lead the piece ends with it
    rw [piece_of_lt_lead aead hlead, List.length_drop, List.length_take]
    omega
  · unfold piece pieceEnd stream
    rw [if_neg hlead]
    have hdiv : (pos - l.lead.length) / l.unitLen 0 ≤ k :=
      Nat.div_le_of_le_mul (by rw [Nat.mul_comm]; omega)
    have hsmall : (pos - l.lead.length) / l.unitLen 0 % 2 ^ 32 =
        (pos - l.lead.length) / l.unitLen 0 := Nat.mod_eq_of_lt (by omega)
    simp only [hlead, false_and, if_false, List.nil_append, hsmall]
    split_ifs with hend
    · simpa using hpos
    · rcases Nat.lt_or_eq_of_le hdiv with hbefore | hat
      · have hle := length_streamUnits_le aead (l := l)
          (min (min stop (l.lead.length + ((pos - l.lead.length) / l.unitLen 0 + 1) * l.unitLen 0))
            l.len) pos ((pos - l.lead.length) / l.unitLen 0) ((pos - l.lead.length) % l.unitLen 0)
        have hunits : ((pos - l.lead.length) / l.unitLen 0 + 1) * l.unitLen 0 ≤
            k * l.unitLen 0 := Nat.mul_le_mul_right _ hbefore
        omega
      · rw [hat, streamUnits, hnone]
        simpa using hpos

theorem stalled_lt_len {k : ℕ} (hk : k < l.totalChunks) :
    l.lead.length + k * l.unitLen 0 < l.len := by
  have hframe : (k + 1) * (tag + l.framing) ≤ l.totalChunks * (tag + l.framing) :=
    Nat.mul_le_mul_right _ hk
  have htag : 0 < tag + l.framing := Nat.add_pos_left (by decide) _
  rw [Nat.succ_mul] at hframe
  unfold len
  rcases Nat.eq_zero_or_pos k with rfl | hpos
  · omega
  · have hend := chunk_end_le (i := k - 1) (l := l) (by omega)
    have hfull (i : ℕ) (hi : i + 1 < l.totalChunks) :
        l.unitLen i = l.chunkSize + (tag + l.framing) := by
      unfold unitLen
      rw [if_neg (by omega), Nat.add_assoc]
    rw [hfull (k - 1) (by omega)] at hend
    have hpred : (k - 1) * l.chunkSize + l.chunkSize = k * l.chunkSize := by
      rw [← Nat.succ_mul, Nat.succ_eq_add_one, Nat.sub_add_cancel hpos]
    rw [hfull 0 (by omega), Nat.mul_add]
    omega

theorem exists_unit_none (h : l.toVec aead = none) :
    ∃ k < l.totalChunks, l.unit aead k = none := by
  by_contra hall
  push Not at hall
  have hsome : ∀ i ∈ List.range l.totalChunks, (l.unit aead i).isSome = true := fun i hi =>
    Option.isSome_iff_ne_none.mpr (hall i (List.mem_range.mp hi))
  obtain ⟨units, hunits⟩ := mapM_isSome hsome
  simp [toVec, hunits] at h

end Pieces

end Layout

namespace SealedLayout

variable {aead : Aead} {l : SealedLayout} {v : Bytes} (haead : aead.Lawful)

include haead

/-- The piece after the beginning of the ciphertext goes on with it. -/
theorem append_piece_prefix (h : l.toVec aead = some v) {b : Bytes} (hb : b <+: v) (stop : ℕ) :
    b ++ l.piece aead b.length stop <+: v := by
  obtain ⟨rest, rfl⟩ := hb
  rw [Layout.piece, stream_eq haead h, List.drop_left]
  exact (List.prefix_append_right_inj b).mpr (List.take_prefix _ _)

/-- A ciphertext of the length declared for it is of a file of the size declared for it, or
a longer one. -/
theorem size_le_of_toVec (h : l.toVec aead = some v) (hlen : v.length = l.len) :
    l.size ≤ l.source.length := by
  have hsome := Layout.isSome_of_toVec h
  rcases Nat.eq_zero_or_pos l.totalChunks with hzero | hpos
  · rw [Layout.toVec_eq h, Layout.chunksFrom_of_le aead l.toLayout hzero.le, List.append_nil,
      Layout.len, hzero] at hlen
    omega
  · have hfits := (fits_or_zero haead hsome).resolve_left (by omega)
    obtain ⟨u, hu⟩ := Option.isSome_iff_exists.mp (hsome (l.totalChunks - 1) (by omega))
    have hlast : l.unitLen (l.totalChunks - 1) - tag - l.framing =
        l.size - (l.totalChunks - 1) * l.chunkSize := by
      simp only [Layout.unitLen, show l.totalChunks - 1 + 1 = l.totalChunks by omega, if_true]
      omega
    -- the last chunk was read in full
    simp only [Layout.unit] at hu
    split_ifs at hu with hread
    rw [List.length_take, List.length_drop, hlast] at hread
    have hlower := hfits.lower
    omega

end SealedLayout

end Arvolo.Upload
