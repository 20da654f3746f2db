import Mathlib

/-!
Walking a list with a function that may fail.

A walk succeeds where every step does, and its result is then the list of what the steps gave.
-/

namespace Lib

universe u

variable {α β : Type u} {f : α → Option β} {xs : List α} {ys : List β}

theorem mapM_eq_some_iff : xs.mapM f = some ys ↔ List.Forall₂ (fun x y => f x = some y) xs ys := by
  induction xs generalizing ys with
  | nil => simp [eq_comm]
  | cons x xs ih =>
      simp only [List.mapM_cons, Option.bind_eq_bind, Option.pure_def, Option.bind_eq_some_iff,
        Option.some.injEq, ih, List.forall₂_cons_left_iff]
      constructor
      · rintro ⟨y, hy, ys', hys, rfl⟩
        exact ⟨y, ys', hy, hys, rfl⟩
      · rintro ⟨y, ys', hy, hys, rfl⟩
        exact ⟨y, hy, ys', hys, rfl⟩

/-- Where every step gives what `g` says, so does the walk. -/
theorem mapM_eq_map {g : α → β} (h : ∀ x ∈ xs, f x = some (g x)) : xs.mapM f = some (xs.map g) :=
  mapM_eq_some_iff.2 (List.forall₂_map_right_iff.2 (List.forall₂_same.2 h))

theorem isSome_mapM_iff : (xs.mapM f).isSome = true ↔ ∀ x ∈ xs, (f x).isSome = true := by
  induction xs with
  | nil => simp
  | cons x xs ih =>
      rw [List.forall_mem_cons, ← ih, List.mapM_cons]
      cases f x with
      | none => simp
      | some y => cases xs.mapM f <;> simp

/-- The results are those of the steps. -/
theorem mem_iff_of_mapM (h : xs.mapM f = some ys) {y : β} : y ∈ ys ↔ ∃ x ∈ xs, f x = some y := by
  induction mapM_eq_some_iff.1 h with
  | nil => simp
  | cons hx hrest ih =>
      rw [List.mem_cons, ih (mapM_eq_some_iff.2 hrest), List.exists_mem_cons_iff, hx,
        Option.some.injEq, eq_comm]

/-- One step that fails makes the walk fail. -/
theorem mapM_eq_none {x : α} (hx : x ∈ xs) (h : f x = none) : xs.mapM f = none := by
  rw [← Option.not_isSome_iff_eq_none, isSome_mapM_iff]
  intro hall
  have hsome := hall x hx
  rw [h] at hsome
  cases hsome

end Lib
