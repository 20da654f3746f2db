import Arvolo.Upload.Layout

/-!
Any range of a layout's stream is that range of the whole ciphertext, for every chunk
size, lead and framing.
-/

namespace Arvolo.Upload

open Crypto

namespace Layout

variable {aead : Aead} {l : Layout}

theorem plain_le_chunkSize (hcount : l.totalChunks = 0 ∧ l.size = 0 ∨ l.Fits) {i : ℕ}
    (hi : i < l.totalChunks) : l.unitLen i - tag - l.framing ≤ l.chunkSize ∧
      i * l.chunkSize + (l.unitLen i - tag - l.framing) ≤ l.size := by
  have hfits := hcount.resolve_left fun h => absurd h.1 (by omega)
  have hlower := hfits.lower
  have hupper := hfits.upper
  have hpred : (l.totalChunks - 1) * l.chunkSize + l.chunkSize = l.totalChunks * l.chunkSize := by
    rw [← Nat.succ_mul, Nat.succ_eq_add_one, Nat.sub_add_cancel (by omega)]
  unfold unitLen
  split_ifs with hlast
  · have hidx : i = l.totalChunks - 1 := by omega
    rw [← hidx] at hlower hpred
    omega
  · have hnext : (i + 1) * l.chunkSize ≤ (l.totalChunks - 1) * l.chunkSize :=
      Nat.mul_le_mul_right _ (by omega)
    rw [Nat.succ_mul] at hnext
    omega

/-- Every chunk of a file that is there can be sealed. -/
theorem isSome_unit (htotal : aead.Total) (hsource : l.size ≤ l.source.length)
    (hcount : l.totalChunks = 0 ∧ l.size = 0 ∨ l.Fits) {i : ℕ} (hi : i < l.totalChunks) :
    (l.unit aead i).isSome = true := by
  obtain ⟨hchunk, hend⟩ := plain_le_chunkSize hcount hi
  have hread : ((l.source.drop (i * l.chunkSize)).take
      (l.unitLen i - tag - l.framing)).length = l.unitLen i - tag - l.framing := by
    rw [List.length_take, List.length_drop]
    omega
  have hlimit := l.chunkSize_lt
  rw [unit, if_pos hread, Option.isSome_map]
  exact htotal _ _ _ _ (by rw [hread]; omega)

theorem mapM_isSome {α β : Type} {f : α → Option β} {xs : List α}
    (h : ∀ x ∈ xs, (f x).isSome = true) : ∃ ys, xs.mapM f = some ys := by
  induction xs with
  | nil => exact ⟨[], rfl⟩
  | cons x xs ih =>
      obtain ⟨y, hy⟩ := Option.isSome_iff_exists.1 (h x List.mem_cons_self)
      obtain ⟨ys, hys⟩ := ih fun z hz => h z (List.mem_cons_of_mem _ hz)
      exact ⟨y :: ys, by simp [List.mapM_cons, hy, hys]⟩

theorem toVec_isSome (htotal : aead.Total) (hsource : l.size ≤ l.source.length)
    (hcount : l.totalChunks = 0 ∧ l.size = 0 ∨ l.Fits) : ∃ v, l.toVec aead = some v := by
  have hsome : ∀ i ∈ List.range l.totalChunks, (l.unit aead i).isSome = true :=
    fun i hi => isSome_unit htotal hsource hcount (List.mem_range.1 hi)
  obtain ⟨units, hunits⟩ := mapM_isSome hsome
  exact ⟨_, by rw [toVec, hunits, Option.map_some]⟩

theorem length_toVec (haead : aead.Lawful) (hcount : l.totalChunks = 0 ∧ l.size = 0 ∨ l.Fits)
    {v : Bytes} (hv : l.toVec aead = some v) : v.length = l.len := by
  rw [toVec_eq hv, List.length_append, len]
  rcases Nat.eq_zero_or_pos l.totalChunks with hzero | hpos
  · have hsize : l.size = 0 := by
      rcases hcount with ⟨-, hsize⟩ | hfits
      · exact hsize
      · have hupper := hfits.upper
        rw [hzero, Nat.zero_mul] at hupper
        omega
    rw [chunksFrom_of_le aead l hzero.le, hzero, hsize, Nat.zero_mul]
    rfl
  · have hfits := hcount.resolve_left fun h => absurd h.1 (by omega)
    rw [length_chunksFrom_zero haead hv hpos hfits, Nat.add_assoc]

/-- A layout of fewer than 2^32 chunks over a file that is there: the ciphertext exists, is
as long as it says, and every range of the stream is that range of it. -/
theorem stream_range (haead : aead.Lawful) (htotal : aead.Total) (l : Layout)
    (hsource : l.size ≤ l.source.length)
    (hcount : (l.size + (l.chunkSize - 1)) / l.chunkSize < 2 ^ 32) :
    ∃ v, l.toVec aead = some v ∧ l.len = v.length ∧
      ∀ start stop, start ≤ stop → stop ≤ l.len →
        l.stream aead start stop = (v.drop start).take (stop - start) := by
  have hfits := fits_of_count_lt l hcount
  obtain ⟨v, hv⟩ := toVec_isSome htotal hsource hfits
  refine ⟨v, hv, (length_toVec haead hfits hv).symm, fun start stop _ hstop => ?_⟩
  rw [stream_eq haead hv (hfits.imp_left And.left), Nat.min_eq_left hstop]

/-- Seven bytes in chunks of three behind a lead of two, with their lengths. -/
def sevenBytes : Layout :=
  ⟨[1, 2, 3, 4, 5, 6, 7], [9], 3, 7, [70, 71], true, by decide, by decide⟩

/-- The range from within the lead to within the last chunk. -/
theorem stream_range_sevenBytes :
    ∃ v, sevenBytes.toVec .tagged = some v ∧ sevenBytes.len = v.length ∧
      ∀ start stop, start ≤ stop → stop ≤ sevenBytes.len →
        sevenBytes.stream .tagged start stop = (v.drop start).take (stop - start) :=
  stream_range Aead.tagged_lawful Aead.tagged_total sevenBytes (by decide) (by decide)

end Layout

end Arvolo.Upload
