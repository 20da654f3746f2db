import Mathlib

/-!
Sorting as the standard library of the source does it, `sort`, `sort_by_key` and `dedup`
of `Vec`. What is sorted by a linear order does not depend on the order it came in.
-/

namespace Lib

section

variable {α : Type} [LinearOrder α]

/-- `Vec::sort`. -/
def sort (l : List α) : List α := l.mergeSort fun a b => a ≤ b

/-- `Vec::dedup`: the first of each run of equal elements stays. -/
def dedup (l : List α) : List α := l.destutter (· ≠ ·)

theorem sort_perm (l : List α) : (sort l).Perm l := List.mergeSort_perm l _

@[simp]
theorem mem_sort {l : List α} {a : α} : a ∈ sort l ↔ a ∈ l := (sort_perm l).mem_iff

theorem pairwise_sort (l : List α) : (sort l).Pairwise (· ≤ ·) := by
  have h : (sort l).Pairwise fun a b => decide (a ≤ b) = true :=
    List.pairwise_mergeSort
      (fun a b c hab hbc => by
        simp only [decide_eq_true_eq] at hab hbc ⊢
        exact hab.trans hbc)
      (fun a b => by simpa using le_total a b) l
  exact h.imp fun hab => by simpa using hab

theorem sort_eq_of_perm {l m : List α} (h : l.Perm m) : sort l = sort m :=
  ((sort_perm l).trans (h.trans (sort_perm m).symm)).eq_of_pairwise'
    (pairwise_sort l) (pairwise_sort m)

theorem mem_destutter' {l : List α} {a b : α} :
    b ∈ l.destutter' (· ≠ ·) a ↔ b = a ∨ b ∈ l := by
  induction l generalizing a with
  | nil => simp
  | cons c l ih =>
      rw [List.destutter'_cons]
      split_ifs with hac
      · rw [List.mem_cons, ih, List.mem_cons]
      · obtain rfl : a = c := not_not.1 hac
        rw [ih, List.mem_cons]
        exact or_self_left.symm

@[simp]
theorem mem_dedup {l : List α} {a : α} : a ∈ dedup l ↔ a ∈ l := by
  cases l with
  | nil => simp [dedup]
  | cons b l =>
      show a ∈ List.destutter' (· ≠ ·) b l ↔ a ∈ b :: l
      rw [mem_destutter', List.mem_cons]

theorem pairwise_dedup {l : List α} (h : l.Pairwise (· ≤ ·)) : (dedup l).Pairwise (· ≤ ·) :=
  h.sublist (List.destutter_sublist _ l)

/-- In a sorted list what is smaller came before. -/
theorem mem_of_lt {before rest : List α} {a b : α}
    (hl : (before ++ b :: rest).Pairwise (· ≤ ·)) (ha : a ∈ before ++ b :: rest) (hab : a < b) :
    a ∈ before := by
  have hrest := (List.pairwise_cons.1 (List.pairwise_append.1 hl).2.1).1
  rcases List.mem_append.1 ha with hbefore | hafter
  · exact hbefore
  · rcases List.mem_cons.1 hafter with rfl | hlater
    · exact absurd hab (lt_irrefl a)
    · exact absurd hab (not_lt.2 (hrest a hlater))

end

end Lib
