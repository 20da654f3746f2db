import Mathlib

/-!
Folding over finite ordered maps.

A loop that walks one map and inserts into another is a `foldl` over the
walked map's entries. Two facts settle every such loop: when the loop treats
each key by itself, the result can be read off key by key (`getElem?_foldInto`);
when it threads an accumulator, a relation that is reflexive and transitive and
holds across one turn holds across the whole loop (`foldl_rel`).
-/

namespace Lib

open Std

universe u v w

variable {α : Type u} {β : Type v} {γ : Type w}

section FoldInto

variable [Ord α] [TransOrd α] [LawfulEqOrd α]

/-- Take one incoming value at `k`: `rule` sees what is held there and either
names the value to store or leaves the map alone. -/
def upsert (rule : α → Option β → γ → Option β) (held : ExtTreeMap α β) (k : α) (v : γ) :
    ExtTreeMap α β :=
  match rule k held[k]? v with
  | some w => held.insert k w
  | none => held

/-- Take every entry of `other` into `held`, in key order. -/
def foldInto (rule : α → Option β → γ → Option β) (held : ExtTreeMap α β)
    (other : ExtTreeMap α γ) : ExtTreeMap α β :=
  other.foldl (upsert rule) held

theorem getElem?_upsert_self (rule : α → Option β → γ → Option β) (held : ExtTreeMap α β)
    (k : α) (v : γ) : (upsert rule held k v)[k]? = (rule k held[k]? v).or held[k]? := by
  unfold upsert
  cases h : rule k held[k]? v <;> simp

theorem getElem?_upsert_of_ne (rule : α → Option β → γ → Option β) (held : ExtTreeMap α β)
    {k j : α} (v : γ) (h : j ≠ k) : (upsert rule held k v)[j]? = held[j]? := by
  unfold upsert
  cases rule k held[k]? v with
  | none => rfl
  | some w =>
      have hne : compare k j ≠ .eq := fun he => h (LawfulEqCmp.eq_of_compare he).symm
      simp [ExtTreeMap.getElem?_insert, hne]

/-- Entries whose keys all differ from `j` leave position `j` alone. -/
theorem getElem?_foldl_upsert_of_notMem (rule : α → Option β → γ → Option β)
    (es : List (α × γ)) (held : ExtTreeMap α β) (j : α) (h : ∀ e ∈ es, e.1 ≠ j) :
    (es.foldl (fun m e => upsert rule m e.1 e.2) held)[j]? = held[j]? := by
  induction es generalizing held with
  | nil => rfl
  | cons e es ih =>
      rw [List.foldl_cons, ih _ (fun e' he' => h e' (List.mem_cons_of_mem _ he'))]
      exact getElem?_upsert_of_ne rule held e.2 (h e List.mem_cons_self).symm

theorem getElem?_foldl_upsert_of_mem (rule : α → Option β → γ → Option β)
    (es : List (α × γ)) (held : ExtTreeMap α β) (j : α) (v : γ)
    (hd : es.Pairwise (fun a b => a.1 ≠ b.1)) (h : (j, v) ∈ es) :
    (es.foldl (fun m e => upsert rule m e.1 e.2) held)[j]? =
      (rule j held[j]? v).or held[j]? := by
  induction es generalizing held with
  | nil => cases h
  | cons e es ih =>
      obtain ⟨hne, hd'⟩ := List.pairwise_cons.mp hd
      rw [List.foldl_cons]
      rcases List.mem_cons.mp h with rfl | hmem
      · rw [getElem?_foldl_upsert_of_notMem rule es _ j (fun e' he' => (hne e' he').symm)]
        exact getElem?_upsert_self rule held j v
      · have hej : j ≠ e.1 := (hne (j, v) hmem).symm
        rw [ih _ hd' hmem, getElem?_upsert_of_ne rule held e.2 hej]

/-- The keys of a map's entry list are pairwise different. -/
theorem pairwise_ne_toList (m : ExtTreeMap α β) :
    m.toList.Pairwise (fun a b => a.1 ≠ b.1) := by
  refine (ExtTreeMap.distinct_keys_toList (t := m)).imp ?_
  intro a b hab he
  exact hab (by rw [he]; exact ReflCmp.compare_self)

/-- Folding one map into another, read off at a key: untouched when the other
map has nothing there, and otherwise what the rule says. -/
theorem getElem?_foldInto (rule : α → Option β → γ → Option β) (held : ExtTreeMap α β)
    (other : ExtTreeMap α γ) (j : α) :
    (foldInto rule held other)[j]? =
      match other[j]? with
      | none => held[j]?
      | some v => (rule j held[j]? v).or held[j]? := by
  unfold foldInto
  rw [ExtTreeMap.foldl_eq_foldl_toList]
  cases hj : other[j]? with
  | none =>
      refine getElem?_foldl_upsert_of_notMem rule _ held j ?_
      rintro ⟨k, v⟩ he rfl
      rw [ExtTreeMap.mem_toList_iff_getElem?_eq_some] at he
      simp [hj] at he
  | some v =>
      exact getElem?_foldl_upsert_of_mem rule _ held j v (pairwise_ne_toList other)
        (ExtTreeMap.mem_toList_iff_getElem?_eq_some.mpr hj)

/-- A rule that has nothing to do the second time makes a loop that has nothing to do the
second time. -/
theorem foldInto_foldInto {rule : α → Option β → γ → Option β}
    (h : ∀ k cur v, (rule k ((rule k cur v).or cur) v).or ((rule k cur v).or cur) =
      (rule k cur v).or cur) (held : ExtTreeMap α β) (other : ExtTreeMap α γ) :
    foldInto rule (foldInto rule held other) other = foldInto rule held other := by
  refine ExtTreeMap.ext_getElem? fun j => ?_
  simp only [getElem?_foldInto]
  cases other[j]? with
  | none => rfl
  | some v => exact h j held[j]? v

/-- One more value is kept too, if the rule keeps it. -/
theorem foldInto_insert {rule : α → Option β → γ → Option β} {held : ExtTreeMap α β}
    {other : ExtTreeMap α γ} (h : foldInto rule held other = held) {k : α} {w : β}
    (hk : ∀ v, other[k]? = some v → (rule k (some w) v).or (some w) = some w) :
    foldInto rule (held.insert k w) other = held.insert k w := by
  refine ExtTreeMap.ext_getElem? fun j => ?_
  rw [getElem?_foldInto]
  by_cases hj : j = k
  · subst hj
    rw [ExtTreeMap.getElem?_insert_self]
    cases hv : other[j]? with
    | none => rfl
    | some v => exact hk v hv
  · have hne : compare k j ≠ .eq := fun he => hj (LawfulEqCmp.eq_of_compare he).symm
    have hheld := congrArg (·[j]?) h
    simp only [getElem?_foldInto] at hheld
    rw [ExtTreeMap.getElem?_insert, if_neg hne]
    exact hheld

/-- Writing a map out as its entries and inserting them one by one gives the
map back. -/
theorem foldl_insert_toList (m : ExtTreeMap α β) :
    m.toList.foldl (fun acc (e : α × β) => acc.insert e.1 e.2) (∅ : ExtTreeMap α β) = m := by
  have hstep : (fun (acc : ExtTreeMap α β) (e : α × β) => acc.insert e.1 e.2) =
      fun acc (e : α × β) => upsert (fun _ _ v => some v) acc e.1 e.2 := rfl
  refine ExtTreeMap.ext_getElem? fun j => ?_
  rw [hstep]
  cases hj : m[j]? with
  | none =>
      rw [getElem?_foldl_upsert_of_notMem]
      · simp
      · rintro ⟨k, v⟩ he rfl
        rw [ExtTreeMap.mem_toList_iff_getElem?_eq_some] at he
        simp [hj] at he
  | some v =>
      rw [getElem?_foldl_upsert_of_mem _ _ _ j v (pairwise_ne_toList m)
        (ExtTreeMap.mem_toList_iff_getElem?_eq_some.mpr hj)]
      rfl

end FoldInto

/-- A reflexive and transitive relation that holds across every turn of a loop
holds across the loop. -/
theorem foldl_rel {σ : Type u} {ε : Type v} (R : σ → σ → Prop) (hrefl : ∀ s, R s s)
    (htrans : ∀ {a b c}, R a b → R b c → R a c) (f : σ → ε → σ)
    (hstep : ∀ s e, R s (f s e)) (es : List ε) (s : σ) : R s (es.foldl f s) := by
  induction es generalizing s with
  | nil => exact hrefl s
  | cons e es ih => exact htrans (hstep s e) (ih (f s e))

end Lib
