import Mathlib

/-!
A pool: a list of workers, known by their position, that keep out of each
other's way pairwise. A worker may be replaced in place, a new one joins at the
end, and one that is done is taken out.
-/

namespace Lib

universe u

variable {α : Type u} {R : α → α → Prop}

theorem pairwise_getElem? (hsymm : ∀ a b, R a b → R b a) {l : List α} (h : l.Pairwise R) {j k : ℕ}
    {a b : α} (hj : l[j]? = some a) (hk : l[k]? = some b) (hne : j ≠ k) : R a b := by
  obtain ⟨hjl, rfl⟩ := List.getElem?_eq_some_iff.mp hj
  obtain ⟨hkl, rfl⟩ := List.getElem?_eq_some_iff.mp hk
  rcases Nat.lt_or_gt_of_ne hne with hlt | hgt
  · exact List.pairwise_iff_getElem.mp h j k hjl hkl hlt
  · exact hsymm _ _ (List.pairwise_iff_getElem.mp h k j hkl hjl hgt)

/-- A worker that keeps out of the others' way may take the place of one. -/
theorem pairwise_set (hsymm : ∀ a b, R a b → R b a) {l : List α} (h : l.Pairwise R) {j : ℕ} {a : α}
    (ha : ∀ k b, l[k]? = some b → k ≠ j → R a b) : (l.set j a).Pairwise R := by
  refine List.pairwise_iff_getElem.mpr fun m n hm hn hmn => ?_
  rw [List.length_set] at hm hn
  rw [List.getElem_set, List.getElem_set]
  split_ifs with hjm hjn hjn
  · omega
  · exact ha n _ (List.getElem?_eq_getElem hn) (Ne.symm hjn)
  · exact hsymm _ _ (ha m _ (List.getElem?_eq_getElem hm) (Ne.symm hjm))
  · exact List.pairwise_iff_getElem.mp h m n hm hn hmn

/-- What holds of the replacement and of every other worker holds of all. -/
theorem forall_mem_set {P : α → Prop} {l : List α} {j : ℕ} {a : α} (ha : P a)
    (hl : ∀ k b, l[k]? = some b → k ≠ j → P b) : ∀ b ∈ l.set j a, P b := by
  intro b hb
  obtain ⟨k, hk⟩ := List.mem_iff_getElem?.mp hb
  by_cases hkj : k = j
  · subst hkj
    rcases List.mem_or_eq_of_mem_set hb with _ | rfl
    · rw [List.getElem?_set_self'] at hk
      cases hl : l[k]? with
      | none => simp [hl] at hk
      | some x =>
          simp only [hl, Option.map_eq_map, Option.map_some, Function.const_apply,
            Option.some.injEq] at hk
          exact hk ▸ ha
    · exact ha
  · rw [List.getElem?_set_ne (Ne.symm hkj)] at hk
    exact hl k b hk hkj

theorem mem_set_iff {l : List α} {j : ℕ} {a : α} (h : l[j]? = some a) (b c : α) :
    c ∈ l.set j b ↔ c = b ∨ ∃ k, k ≠ j ∧ l[k]? = some c := by
  have hj : j < l.length := (List.getElem?_eq_some_iff.mp h).1
  rw [List.mem_iff_getElem?]
  constructor
  · rintro ⟨k, hk⟩
    rw [List.getElem?_set] at hk
    split_ifs at hk with hjk
    · exact .inl (Option.some.inj hk).symm
    · exact .inr ⟨k, Ne.symm hjk, hk⟩
  · rintro (rfl | ⟨k, hkj, hk⟩)
    · exact ⟨j, List.getElem?_set_self hj⟩
    · exact ⟨k, by rw [List.getElem?_set_ne (Ne.symm hkj), hk]⟩

/-- All that a pool of lists holds is what one of them holds and what the others do. -/
theorem flatten_perm_set {l : List (List α)} {j : ℕ} {a : List α} (h : l[j]? = some a) :
    l.flatten.Perm (a ++ (l.set j []).flatten) := by
  induction l generalizing j with
  | nil => cases h
  | cons b l ih =>
      cases j with
      | zero =>
          obtain rfl := Option.some.inj h
          simp
      | succ j =>
          rw [List.set_cons_succ, List.flatten_cons, List.flatten_cons]
          refine ((ih h).append_left b).trans ?_
          rw [← List.append_assoc, ← List.append_assoc]
          exact List.perm_append_comm.append_right _

/-- A worker that is replaced takes its measure out of the sum. -/
theorem sum_map_set (f : α → ℕ) {l : List α} {j : ℕ} {a : α} (h : l[j]? = some a) (b : α) :
    ((l.set j b).map f).sum + f a = (l.map f).sum + f b := by
  induction l generalizing j with
  | nil => cases h
  | cons c l ih =>
      cases j with
      | zero =>
          obtain rfl := Option.some.inj h
          simp only [List.set_cons_zero, List.map_cons, List.sum_cons]
          omega
      | succ j =>
          have := ih h
          simp only [List.set_cons_succ, List.map_cons, List.sum_cons]
          omega

theorem sum_map_eraseIdx (f : α → ℕ) {l : List α} {j : ℕ} {a : α} (h : l[j]? = some a) :
    ((l.eraseIdx j).map f).sum + f a = (l.map f).sum := by
  induction l generalizing j with
  | nil => cases h
  | cons c l ih =>
      cases j with
      | zero =>
          obtain rfl := Option.some.inj h
          simp only [List.eraseIdx_cons_zero, List.map_cons, List.sum_cons]
          omega
      | succ j =>
          have := ih h
          simp only [List.eraseIdx_cons_succ, List.map_cons, List.sum_cons]
          omega

end Lib
