import Mathlib

/-!
Runs of a deterministic machine.

A machine is a step function; its events are the choices of the environment,
and an event that is not possible in a state leaves the state as it is. A run
is a list of events. `Along` says that every event of a run was taken in a
state that meets a condition, and `Along.foldl_inv` is the invariant rule for
such runs.
-/

namespace Lib

universe u v

variable {σ : Type u} {ε : Type v} {step : σ → ε → σ}

/-- Every event of the run meets `P` in the state it is taken in. -/
def Along (step : σ → ε → σ) (P : σ → ε → Prop) : σ → List ε → Prop
  | _, [] => True
  | s, e :: es => P s e ∧ Along step P (step s e) es

instance Along.decidable (P : σ → ε → Prop) [∀ s e, Decidable (P s e)] :
    (s : σ) → (es : List ε) → Decidable (Along step P s es)
  | _, [] => .isTrue trivial
  | s, e :: es =>
      have := Along.decidable P (step s e) es
      inferInstanceAs (Decidable (P s e ∧ Along step P (step s e) es))

theorem along_cons {P : σ → ε → Prop} {s : σ} {e : ε} {es : List ε} :
    Along step P s (e :: es) ↔ P s e ∧ Along step P (step s e) es := Iff.rfl

/-- What one step keeps under the condition, a run under the condition keeps. -/
theorem Along.foldl_inv {P : σ → ε → Prop} (Inv : σ → Prop)
    (hstep : ∀ s e, Inv s → P s e → Inv (step s e)) {s : σ} {es : List ε} (hs : Inv s)
    (h : Along step P s es) : Inv (es.foldl step s) := by
  induction es generalizing s with
  | nil => exact hs
  | cons e es ih => exact ih (hstep s e hs h.1) h.2

/-- What an invariant and the condition give at each event, they give along the run. -/
theorem Along.imp {P Q : σ → ε → Prop} (Inv : σ → Prop) {s : σ} {es : List ε}
    (hstep : ∀ s, ∀ e ∈ es, Inv s → P s e → Inv (step s e))
    (himp : ∀ s, ∀ e ∈ es, Inv s → P s e → Q s e) (hs : Inv s) (h : Along step P s es) :
    Along step Q s es := by
  induction es generalizing s with
  | nil => trivial
  | cons e es ih =>
      have he : e ∈ e :: es := List.mem_cons_self
      refine ⟨himp s e he hs h.1, ih ?_ ?_ (hstep s e he hs h.1) h.2⟩
      · exact fun s e' h' => hstep s e' (List.mem_cons_of_mem _ h')
      · exact fun s e' h' => himp s e' (List.mem_cons_of_mem _ h')

/-- A condition met along a run is met along its beginning. -/
theorem Along.take {P : σ → ε → Prop} {s : σ} {es : List ε} (h : Along step P s es) (n : ℕ) :
    Along step P s (es.take n) := by
  induction es generalizing s n with
  | nil => simpa using h
  | cons e es ih =>
      cases n with
      | zero => trivial
      | succ n => exact ⟨h.1, ih h.2 n⟩

/-- And along what follows its beginning. -/
theorem Along.drop {P : σ → ε → Prop} {s : σ} {es : List ε} (h : Along step P s es) (n : ℕ) :
    Along step P ((es.take n).foldl step s) (es.drop n) := by
  induction es generalizing s n with
  | nil => simpa using h
  | cons e es ih =>
      cases n with
      | zero => exact h
      | succ n => exact ih h.2 n

/-- The state after one event more. -/
theorem foldl_take_succ {es : List ε} {n : ℕ} {e : ε} (h : es[n]? = some e) (s : σ) :
    (es.take (n + 1)).foldl step s = step ((es.take n).foldl step s) e := by
  rw [List.take_add_one, h, Option.toList_some, List.foldl_append]
  rfl

/-- What the events of a stretch of the run keep. -/
theorem foldl_take_inv {I : σ → Prop} {s : σ} {es : List ε} {i j : ℕ} (hij : i ≤ j)
    (hi : I ((es.take i).foldl step s))
    (h : ∀ m e, i ≤ m → m < j → es[m]? = some e → I ((es.take m).foldl step s) →
      I (step ((es.take m).foldl step s) e)) : I ((es.take j).foldl step s) := by
  induction j, hij using Nat.le_induction with
  | base => exact hi
  | succ j hij ih =>
      have hj := ih fun m e him hmj => h m e him (Nat.lt_succ_of_lt hmj)
      cases he : es[j]? with
      | none =>
          rw [List.getElem?_eq_none_iff] at he
          rwa [List.take_of_length_le (by omega), ← List.take_of_length_le he]
      | some e =>
          rw [foldl_take_succ he]
          exact h j e hij (Nat.lt_succ_self j) he hj

/-- A condition met along a run is met at each of its events. -/
theorem Along.of_getElem? {P : σ → ε → Prop} {s : σ} {es : List ε} (h : Along step P s es) {n : ℕ}
    {e : ε} (he : es[n]? = some e) : P ((es.take n).foldl step s) e := by
  have hrest := h.drop n
  rw [List.drop_eq_getElem?_toList_append, he] at hrest
  exact hrest.1

/-- Where one step keeps `I` exactly under the condition, a run keeps it throughout exactly
under the condition. -/
theorem forall_take_iff_along {P : σ → ε → Prop} {I : σ → Prop}
    (hstep : ∀ s e, I s → (I (step s e) ↔ P s e)) {s : σ} (hs : I s) (es : List ε) :
    (∀ n, I ((es.take n).foldl step s)) ↔ Along step P s es := by
  induction es generalizing s with
  | nil => simp [Along, hs]
  | cons e es ih =>
      constructor
      · intro h
        have he : I (step s e) := h 1
        exact ⟨(hstep s e hs).1 he, (ih he).1 fun n => h (n + 1)⟩
      · rintro ⟨he, hes⟩ n
        cases n with
        | zero => exact hs
        | succ n => exact (ih ((hstep s e hs).2 he)).2 hes n

/-- The same where what is looked for needs an invariant to be kept: the condition keeps the
invariant, and the invariant with what is looked for after a step gives the condition. -/
theorem forall_take_iff_along_of {P : σ → ε → Prop} {I Q : σ → Prop} (hQ : ∀ s, I s → Q s)
    (hkeep : ∀ s e, I s → P s e → I (step s e)) (hneed : ∀ s e, I s → Q (step s e) → P s e)
    {s : σ} (hs : I s) (es : List ε) :
    (∀ n, Q ((es.take n).foldl step s)) ↔ Along step P s es := by
  induction es generalizing s with
  | nil => simp [Along, hQ s hs]
  | cons e es ih =>
      constructor
      · intro h
        have he : P s e := hneed s e hs (h 1)
        exact ⟨he, (ih (hkeep s e hs he)).1 fun n => h (n + 1)⟩
      · rintro ⟨he, hes⟩ n
        cases n with
        | zero => exact hQ s hs
        | succ n => exact (ih (hkeep s e hs he)).2 hes n

/-- Where one step goes up in a preorder exactly under the condition, a run goes up throughout
exactly under the condition. -/
theorem forall_le_iff_along {P : σ → ε → Prop} {R : σ → σ → Prop} [Std.Refl R] [IsTrans σ R]
    (hstep : ∀ s e, R s (step s e) ↔ P s e) (s : σ) (es : List ε) :
    (∀ i j, i ≤ j → R ((es.take i).foldl step s) ((es.take j).foldl step s)) ↔
      Along step P s es := by
  induction es generalizing s with
  | nil => simp [Along, refl_of R s]
  | cons e es ih =>
      constructor
      · intro h
        refine ⟨(hstep s e).1 (h 0 1 (Nat.zero_le 1)), (ih (step s e)).1 fun i j hij => ?_⟩
        exact h (i + 1) (j + 1) (Nat.succ_le_succ hij)
      · rintro ⟨he, hes⟩ i j hij
        have hrest := (ih (step s e)).2 hes
        cases i with
        | zero =>
            cases j with
            | zero => exact refl_of R s
            | succ j => exact trans_of R ((hstep s e).2 he) (hrest 0 j (Nat.zero_le j))
        | succ i =>
            obtain ⟨j, rfl⟩ : ∃ k, j = k + 1 := Nat.exists_eq_add_one.2 (by omega)
            exact hrest i j (Nat.le_of_succ_le_succ hij)

/-- An invariant of every step holds after every run. -/
theorem foldl_inv (Inv : σ → Prop) (hstep : ∀ s e, Inv s → Inv (step s e)) {s : σ}
    (hs : Inv s) (es : List ε) : Inv (es.foldl step s) := by
  induction es generalizing s with
  | nil => exact hs
  | cons e es ih => exact ih (hstep s e hs)

/-- Where some of the events change nothing that is looked at, and the others do to it what it
says, those that change nothing can be left out. -/
theorem foldl_view {β : Type*} {I : σ → Prop} {view : σ → β} {loud : ε → Bool}
    (hI : ∀ s e, I s → I (step s e))
    (hquiet : ∀ s e, I s → loud e = false → view (step s e) = view s)
    (hloud : ∀ s s' e, I s → I s' → loud e = true → view s = view s' →
      view (step s e) = view (step s' e))
    {s s' : σ} (hs : I s) (hs' : I s') (hview : view s = view s') (es : List ε) :
    view (es.foldl step s) = view ((es.filter loud).foldl step s') := by
  induction es generalizing s s' with
  | nil => exact hview
  | cons e es ih =>
      cases he : loud e with
      | false =>
          rw [List.filter_cons_of_neg (by simp [he])]
          exact ih (hI s e hs) hs' ((hquiet s e hs he).trans hview)
      | true =>
          rw [List.filter_cons_of_pos he]
          exact ih (hI s e hs) (hI s' e hs') (hloud s s' e hs hs' he hview)

/-! ### Machines that refuse an event -/

section Partial

variable {move : σ → ε → Option σ}

/-- An invariant of every step that is taken holds after every run. -/
theorem foldlM_inv (Inv : σ → Prop) (hmove : ∀ s e t, Inv s → move s e = some t → Inv t) {s t : σ}
    (hs : Inv s) {es : List ε} (h : es.foldlM move s = some t) : Inv t := by
  induction es generalizing s with
  | nil => exact Option.some.inj h ▸ hs
  | cons e es ih =>
      obtain ⟨m, hm, hrest⟩ := Option.bind_eq_some_iff.1 h
      exact ih (hmove s e m hs hm) hrest

/-- Where each step lowers a measure by one, a run is as long as the measure fell. -/
theorem foldlM_length {Inv : σ → Prop} (μ : σ → ℕ)
    (hmove : ∀ s e t, Inv s → move s e = some t → Inv t ∧ μ t + 1 = μ s) {s t : σ} (hs : Inv s)
    {es : List ε} (h : es.foldlM move s = some t) : es.length + μ t = μ s := by
  induction es generalizing s with
  | nil => rw [Option.some.inj h, List.length_nil, Nat.zero_add]
  | cons e es ih =>
      obtain ⟨m, hm, hrest⟩ := Option.bind_eq_some_iff.1 h
      obtain ⟨hinv, hlow⟩ := hmove s e m hs hm
      have := ih hinv hrest
      rw [List.length_cons]
      omega

/-- If it is moreover never stuck before it is done, it can be run until it is. -/
theorem exists_foldlM_done {Inv Done : σ → Prop} (μ : σ → ℕ)
    (hmove : ∀ s e t, Inv s → move s e = some t → Inv t ∧ μ t + 1 = μ s)
    (hprogress : ∀ s, Inv s → Done s ∨ ∃ e t, move s e = some t) {s : σ} (hs : Inv s) :
    ∃ (es : List ε) (t : σ), es.foldlM move s = some t ∧ Done t := by
  induction hn : μ s using Nat.strong_induction_on generalizing s with
  | _ n ih =>
    rcases hprogress s hs with hdone | ⟨e, m, hm⟩
    · exact ⟨[], s, rfl, hdone⟩
    · obtain ⟨hinv, hlow⟩ := hmove s e m hs hm
      obtain ⟨es, t, ht, hdone⟩ := ih (μ m) (by omega) hinv rfl
      refine ⟨e :: es, t, ?_, hdone⟩
      rw [List.foldlM_cons, hm]
      exact ht

end Partial

/-- What is lowered at each step but the last is lowered for a while only. -/
theorem exists_of_lowered {f : ℕ → σ} {Done : σ → Prop} (μ : σ → ℕ) (N : ℕ)
    (h : ∀ n, N ≤ n → ¬ Done (f n) → μ (f (n + 1)) < μ (f n)) : ∃ n, Done (f n) := by
  by_contra hnone
  rw [not_exists] at hnone
  have hsum : ∀ k, μ (f (N + k)) + k ≤ μ (f N) := by
    intro k
    induction k with
    | zero => rfl
    | succ k ih =>
        have hlow : μ (f (N + (k + 1))) < μ (f (N + k)) := h (N + k) (Nat.le_add_right N k) (hnone _)
        omega
  have := hsum (μ (f N) + 1)
  omega

end Lib
