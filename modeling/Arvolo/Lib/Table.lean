import Mathlib

/-!
Tables: finite maps whose rows can be enumerated.

A table is Mathlib's `AList` at a constant type. Invariants of a table are stated
of its rows, `∀ r ∈ t.entries, …`, and kept by the three operations for the
reasons below.
-/

namespace Lib

universe u v

abbrev Table (κ : Type u) (α : Type v) := AList fun _ : κ => α

namespace Table

variable {κ : Type u} {α : Type v} [DecidableEq κ] {t : Table κ α} {k : κ} {a : α}

theorem mem_of_lookup (h : t.lookup k = some a) : (⟨k, a⟩ : Σ _ : κ, α) ∈ t.entries :=
  AList.mem_lookup_iff.mp h

theorem mem_of_mem_erase {r : Σ _ : κ, α} (h : r ∈ (t.erase k).entries) : r ∈ t.entries :=
  (List.kerase_sublist k t.entries).subset h

theorem mem_insert {r : Σ _ : κ, α} (h : r ∈ (t.insert k a).entries) :
    r = ⟨k, a⟩ ∨ r ∈ t.entries := by
  rw [AList.entries_insert, List.mem_cons] at h
  exact h.imp_right fun h => (List.kerase_sublist k t.entries).subset h

theorem lookup_insert_eq (t : Table κ α) (k j : κ) (a : α) :
    (t.insert k a).lookup j = if j = k then some a else t.lookup j := by
  split_ifs with h
  · rw [h, AList.lookup_insert]
  · rw [AList.lookup_insert_ne h]

theorem lookup_erase_eq (t : Table κ α) (k j : κ) :
    (t.erase k).lookup j = if j = k then none else t.lookup j := by
  split_ifs with h
  · rw [h, AList.lookup_erase]
  · rw [AList.lookup_erase_ne h]

def mapValues {β : Type v} (f : κ → α → β) (t : Table κ α) : Table κ β :=
  ⟨t.entries.map (.map id f), t.nodupKeys.map₂ f⟩

@[simp] theorem lookup_mapValues {β : Type v} (f : κ → α → β) (t : Table κ α) (k : κ) :
    (t.mapValues f).lookup k = (t.lookup k).map (f k) :=
  List.dlookup_map₂ k

/-- Erasing several keys one after the other. -/
theorem lookup_foldl_erase (keys : List κ) (t : Table κ α) (j : κ) :
    (keys.foldl (fun t k => t.erase k) t).lookup j = if j ∈ keys then none else t.lookup j := by
  induction keys generalizing t with
  | nil => simp
  | cons k keys ih =>
      rw [List.foldl_cons, ih, lookup_erase_eq]
      by_cases hk : j = k <;> simp [hk]

/-- What holds of every row holds after a row is put in, if it holds of that row. -/
theorem forall_insert {P : (Σ _ : κ, α) → Prop} (h : ∀ r ∈ t.entries, P r) (ha : P ⟨k, a⟩) :
    ∀ r ∈ (t.insert k a).entries, P r := by
  intro r hr
  rcases mem_insert hr with rfl | hr
  · exact ha
  · exact h r hr

theorem forall_erase {P : (Σ _ : κ, α) → Prop} (h : ∀ r ∈ t.entries, P r) :
    ∀ r ∈ (t.erase k).entries, P r :=
  fun r hr => h r (mem_of_mem_erase hr)

/-! ### Adding up the rows -/

/-- The sum of a measure over the rows. -/
def total (f : α → ℕ) (t : Table κ α) : ℕ := (t.entries.map fun r => f r.2).sum

variable {f : α → ℕ}

theorem total_erase (h : t.lookup k = some a) : total f (t.erase k) + f a = total f t := by
  have hk : k ∈ t.entries.keys := AList.lookup_isSome.1 (by simp [h])
  obtain ⟨b, l₁, l₂, -, hl, herase⟩ := List.exists_of_kerase hk
  have hb : t.lookup k = some b := AList.mem_lookup_iff.2 (by rw [hl]; simp)
  obtain rfl : a = b := Option.some.inj (h.symm.trans hb)
  have hrest : (t.erase k).entries = l₁ ++ l₂ := herase
  rw [total, hrest, total, hl]
  simp only [List.map_append, List.map_cons, List.sum_append, List.sum_cons]
  omega

theorem erase_of_lookup_none (h : t.lookup k = none) : t.erase k = t := by
  have hk : k ∉ t.entries.keys := AList.lookup_eq_none.1 h
  exact AList.ext (List.kerase_of_notMem_keys hk)

theorem total_erase_le (f : α → ℕ) (t : Table κ α) (k : κ) : total f (t.erase k) ≤ total f t := by
  cases h : t.lookup k with
  | none => rw [erase_of_lookup_none h]
  | some a => exact (Nat.le_add_right _ (f a)).trans_eq (total_erase h)

theorem total_insert_of_none (h : t.lookup k = none) :
    total f (t.insert k a) = f a + total f t := by
  change f a + total f (t.erase k) = _
  rw [erase_of_lookup_none h]

theorem total_insert_of_some {b : α} (h : t.lookup k = some b) :
    total f (t.insert k a) + f b = f a + total f t := by
  change f a + total f (t.erase k) + f b = _
  rw [← total_erase h, Nat.add_assoc]

theorem le_total (f : α → ℕ) (h : t.lookup k = some a) : f a ≤ total f t :=
  (Nat.le_add_left (f a) (total f (t.erase k))).trans_eq (total_erase h)

theorem total_le_total {g : α → ℕ} (h : ∀ k a, t.lookup k = some a → f a ≤ g a) :
    total f t ≤ total g t := by
  refine List.sum_le_sum fun r hr => h r.1 r.2 ?_
  exact AList.mem_lookup_iff.2 hr

theorem total_congr {g : α → ℕ} (h : ∀ k a, t.lookup k = some a → f a = g a) :
    total f t = total g t :=
  (total_le_total fun k a ha => (h k a ha).le).antisymm
    (total_le_total fun k a ha => (h k a ha).ge)

/-! ### The keys of some of the rows -/

/-- The keys of the rows that pass the test. -/
def keysWhere (P : α → Bool) (t : Table κ α) : List κ := (t.entries.filter (P ·.2)).map (·.1)

variable {P : α → Bool}

theorem mem_keysWhere : k ∈ t.keysWhere P ↔ ∃ a, t.lookup k = some a ∧ P a = true := by
  simp only [keysWhere, List.mem_map, List.mem_filter]
  constructor
  · rintro ⟨r, ⟨hr, hP⟩, rfl⟩
    exact ⟨r.2, AList.mem_lookup_iff.2 hr, hP⟩
  · rintro ⟨a, ha, hP⟩
    exact ⟨⟨k, a⟩, ⟨mem_of_lookup ha, hP⟩, rfl⟩

omit [DecidableEq κ] in
theorem nodup_keysWhere : (t.keysWhere P).Nodup :=
  (List.filter_sublist.map _).nodup t.nodupKeys

end Table

end Lib
