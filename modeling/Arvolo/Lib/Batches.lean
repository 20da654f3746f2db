import Mathlib

/-!
Cutting a list into pieces of one length, the last of which may be shorter.
-/

namespace Lib

universe u

variable {α : Type u}

/-- `chunks(n)`. -/
def batches (n : ℕ) (xs : List α) : List (List α) :=
  if n = 0 ∨ xs = [] then [] else xs.take n :: batches n (xs.drop n)
  termination_by xs.length
  decreasing_by
    have hpos : 0 < xs.length := List.length_pos_iff.2 fun h => by simp_all
    rw [List.length_drop]
    omega

@[simp] theorem batches_nil (n : ℕ) : batches n ([] : List α) = [] := by
  unfold batches
  simp

theorem batches_of_ne_nil {n : ℕ} (hn : 0 < n) {xs : List α} (h : xs ≠ []) :
    batches n xs = xs.take n :: batches n (xs.drop n) := by
  rw [batches, if_neg]
  rintro (hzero | hnil)
  · omega
  · exact h hnil

/-- Induction over the pieces. -/
theorem batches_induction {n : ℕ} (hn : 0 < n) {P : List α → Prop} (hnil : P [])
    (hcut : ∀ xs, xs ≠ [] → P (xs.drop n) → P xs) (xs : List α) : P xs := by
  induction hlen : xs.length using Nat.strong_induction_on generalizing xs with
  | _ m ih =>
    by_cases hxs : xs = []
    · exact hxs ▸ hnil
    · have hpos : 0 < xs.length := List.length_pos_iff.2 hxs
      refine hcut xs hxs (ih (xs.drop n).length ?_ _ rfl)
      rw [List.length_drop]
      omega

/-- Put together again, the pieces are the list. -/
theorem flatten_batches {n : ℕ} (hn : 0 < n) (xs : List α) : (batches n xs).flatten = xs := by
  induction xs using batches_induction hn with
  | hnil => simp
  | hcut xs hxs ih =>
      rw [batches_of_ne_nil hn hxs, List.flatten_cons, ih, List.take_append_drop]

/-- Piece `b` is what lies from `b * n` on. -/
theorem getElem?_batches {n : ℕ} (hn : 0 < n) (xs : List α) (b : ℕ) :
    (batches n xs)[b]? = if b * n < xs.length then some ((xs.drop (b * n)).take n) else none := by
  induction xs using batches_induction hn generalizing b with
  | hnil => simp
  | hcut xs hxs ih =>
      rw [batches_of_ne_nil hn hxs]
      cases b with
      | zero => simp [List.length_pos_iff.2 hxs]
      | succ b =>
          rw [List.getElem?_cons_succ, ih, List.length_drop, List.drop_drop, Nat.add_one_mul,
            Nat.add_comm n]
          have hiff : b * n < xs.length - n ↔ b * n + n < xs.length := by omega
          simp only [hiff]

theorem length_le_of_mem_batches {n : ℕ} (hn : 0 < n) {xs ys : List α} (h : ys ∈ batches n xs) :
    ys.length ≤ n := by
  obtain ⟨b, hb⟩ := List.mem_iff_getElem?.1 h
  rw [getElem?_batches hn] at hb
  split_ifs at hb
  obtain rfl := Option.some.inj hb
  exact List.length_take_le n _

/-- A list of full pieces is cut where it was put together. -/
theorem batches_flatten {n : ℕ} (hn : 0 < n) {xss : List (List α)}
    (h : ∀ xs ∈ xss, xs.length = n) : batches n xss.flatten = xss := by
  induction xss with
  | nil => simp
  | cons xs xss ih =>
      have hlen : xs.length = n := h xs List.mem_cons_self
      have hne : (xs :: xss).flatten ≠ [] := by
        rw [List.flatten_cons]
        exact List.append_ne_nil_of_left_ne_nil (List.ne_nil_of_length_pos (by omega)) _
      rw [batches_of_ne_nil hn hne, List.flatten_cons, List.take_left' hlen, List.drop_left' hlen,
        ih fun ys hys => h ys (List.mem_cons_of_mem _ hys)]

end Lib
