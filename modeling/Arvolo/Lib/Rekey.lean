import Arvolo.Lib.Table

/-!
Filing what stands under old keys under fresh ones, one key after the other.

The value of an old key is taken in memory, the old key is blanked, and the value is put
under the next fresh key. The fresh key may be the old key of a value that has yet to be
filed, and then one of the two is lost. `Clear` says that this happens nowhere: where it
holds every value is found under its fresh key, and where it does not one is missing.
-/

namespace Lib

universe u v

/-- No fresh key, from `base` on, is the old key of a value filed after its own. -/
def Clear : ℕ → List ℕ → Prop
  | _, [] => True
  | base, _ :: olds => base ∉ olds ∧ Clear (base + 1) olds

instance Clear.decide : (base : ℕ) → (olds : List ℕ) → Decidable (Clear base olds)
  | _, [] => .isTrue trivial
  | base, _ :: olds =>
      have : Decidable (Clear (base + 1) olds) := Clear.decide (base + 1) olds
      inferInstanceAs (Decidable (base ∉ olds ∧ Clear (base + 1) olds))

/-- Keys that are all below the fresh ones are never in the way. -/
theorem clear_of_lt {base : ℕ} {olds : List ℕ} (h : ∀ k ∈ olds, k < base) : Clear base olds := by
  induction olds generalizing base with
  | nil => trivial
  | cons old olds ih =>
      refine ⟨fun hmem => (h base (List.mem_cons_of_mem _ hmem)).false, ih fun k hk => ?_⟩
      have := h k (List.mem_cons_of_mem _ hk)
      omega

section

variable {τ : Type u} (blank : τ)

/-- The value `a` under the fresh key, and nothing under the old one. -/
def rekey (v : ℕ → τ) (old new : ℕ) (a : τ) : ℕ → τ :=
  Function.update (Function.update v old blank) new a

/-- Value after value, each with its old key. -/
def rekeyAll : (ℕ → τ) → ℕ → List (ℕ × τ) → ℕ → τ
  | v, _, [] => v
  | v, base, (old, a) :: rows => rekeyAll (rekey blank v old base a) (base + 1) rows

variable {blank} {v : ℕ → τ} {base old j : ℕ} {a : τ} {rows : List (ℕ × τ)}

theorem rekey_apply :
    rekey blank v old base a j = if j = base then a else if j = old then blank else v j := by
  simp only [rekey, Function.update_apply]

/-- Away from the fresh keys: nothing is left under the old ones, and the rest is untouched. -/
theorem rekeyAll_of_notFresh (hj : j < base ∨ base + rows.length ≤ j) :
    rekeyAll blank v base rows j = if j ∈ rows.map Prod.fst then blank else v j := by
  induction rows generalizing v base with
  | nil => simp [rekeyAll]
  | cons row rows ih =>
      obtain ⟨old, a⟩ := row
      rw [List.length_cons] at hj
      rw [rekeyAll, ih (by omega), rekey_apply, if_neg (show ¬ j = base by omega)]
      by_cases hold : j = old
      · simp [hold]
      · simp only [List.map_cons, List.mem_cons, hold, if_false, false_or]

/-- Where the fresh keys are clear, each value is found under its own. -/
theorem rekeyAll_fresh (hclear : Clear base (rows.map Prod.fst)) {i : ℕ}
    (hrow : rows[i]? = some (old, a)) : rekeyAll blank v base rows (base + i) = a := by
  induction rows generalizing v base i with
  | nil => simp at hrow
  | cons row rows ih =>
      obtain ⟨hfresh, hrest⟩ := hclear
      rw [rekeyAll]
      cases i with
      | zero =>
          obtain ⟨rfl, rfl⟩ := Prod.mk.inj (Option.some.inj hrow)
          change rekeyAll blank _ (base + 1) rows base = _
          rw [rekeyAll_of_notFresh (.inl (by omega)), if_neg hfresh, rekey_apply, if_pos rfl]
      | succ i =>
          rw [show base + (i + 1) = base + 1 + i by omega]
          exact ih hrest hrow

/-- Where they are not, one is missing. -/
theorem exists_rekeyAll_blank (blank : τ) (v : ℕ → τ) (base : ℕ)
    (h : ¬ Clear base (rows.map Prod.fst)) :
    ∃ i < rows.length, rekeyAll blank v base rows (base + i) = blank := by
  induction rows generalizing v base with
  | nil => exact absurd trivial h
  | cons row rows ih =>
      obtain ⟨old, a⟩ := row
      rw [rekeyAll]
      by_cases hfresh : base ∈ rows.map Prod.fst
      · refine ⟨0, Nat.succ_pos _, ?_⟩
        change rekeyAll blank _ (base + 1) rows base = _
        rw [rekeyAll_of_notFresh (.inl (by omega)), if_pos hfresh]
      · obtain ⟨i, hi, hblank⟩ := ih (rekey blank v old base a) (base + 1)
          fun hclear => h ⟨hfresh, hclear⟩
        refine ⟨i + 1, Nat.succ_lt_succ hi, ?_⟩
        rwa [show base + (i + 1) = base + 1 + i by omega]

/-- Where nothing stood but under the old keys, exactly the values filed are found. -/
theorem rekeyAll_eq_iff (hclear : Clear base (rows.map Prod.fst))
    (hv : ∀ j, v j ≠ blank → j ∈ rows.map Prod.fst) (ha : a ≠ blank) :
    rekeyAll blank v base rows j = a ↔ (a, j) ∈ (rows.map Prod.snd).zipIdx base := by
  rw [List.mk_mem_zipIdx_iff_le_and_getElem?_sub, List.getElem?_map]
  by_cases hj : base ≤ j ∧ j < base + rows.length
  · obtain ⟨i, rfl⟩ := Nat.exists_eq_add_of_le hj.1
    have hi : i < rows.length := by omega
    have hrow : rows[i]? = some (rows[i].1, rows[i].2) := List.getElem?_eq_getElem hi
    rw [rekeyAll_fresh hclear hrow]
    simp [List.getElem?_eq_getElem hi]
  · have hblank : rekeyAll blank v base rows j = blank := by
      rw [rekeyAll_of_notFresh (by omega)]
      split_ifs with hmem
      · rfl
      · by_contra hne
        exact hmem (hv j hne)
    rw [hblank]
    constructor
    · exact fun heq => absurd heq.symm ha
    · rintro ⟨hle, hget⟩
      rw [List.getElem?_eq_none (by omega)] at hget
      cases hget

end

namespace Table

variable {α : Type u} (t : Table ℕ α) (old new : ℕ)

theorem lookup_erase_insert (a : α) :
    ((t.erase old).insert new a).lookup = rekey none t.lookup old new (some a) := by
  ext1 j
  rw [lookup_insert_eq, lookup_erase_eq, rekey_apply]

/-- With nothing to file, as long as nothing stood under the fresh key. -/
theorem lookup_erase_eq_rekey (h : new ≠ old → t.lookup new = none) :
    (t.erase old).lookup = rekey none t.lookup old new none := by
  ext1 j
  rw [lookup_erase_eq, rekey_apply]
  split_ifs with hold hnew hnew
  · rfl
  · rfl
  · rw [hnew, h (fun heq => hold (hnew.trans heq))]
  · rfl

/-- What is read of the rows is filed anew as they are. -/
theorem comp_lookup_rekey {σ : Type v} {blank : σ} (f : Option α → σ) (hf : f none = blank)
    {t t' : Table ℕ α} {old new : ℕ} {o : Option α}
    (h : t'.lookup = rekey none t.lookup old new o) :
    (fun j => f (t'.lookup j)) = rekey blank (fun j => f (t.lookup j)) old new (f o) := by
  ext1 j
  rw [congrFun h j, rekey_apply, rekey_apply]
  split_ifs with hnew hold
  · rfl
  · exact hf
  · rfl

end Table

end Lib
