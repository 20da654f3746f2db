import Mathlib

/-!
Computations that change a state and may end with an error.

An error does not undo what was done before it. `Keeps R m` relates the state `m` starts in
with the one it leaves, on success and on error; where `R` is reflexive and transitive, it
is read off the text of `m`.
-/

namespace Lib

universe u

abbrev Effect (ε σ α : Type u) := ExceptT ε (StateM σ) α

variable {ε σ α β : Type u}

/-- The state that `m` leaves. -/
def Effect.after (m : Effect ε σ α) (s : σ) : σ := (StateT.run (ExceptT.run m) s).2

def Effect.result (m : Effect ε σ α) (s : σ) : Except ε α := (StateT.run (ExceptT.run m) s).1

namespace Effect

@[simp] theorem after_pure (a : α) (s : σ) : (pure a : Effect ε σ α).after s = s := rfl

@[simp] theorem after_throw (e : ε) (s : σ) : (throw e : Effect ε σ α).after s = s := rfl

@[simp] theorem after_get_bind (f : σ → Effect ε σ α) (s : σ) :
    ((get : Effect ε σ σ) >>= f).after s = (f s).after s := rfl

@[simp] theorem after_set (t s : σ) : (set t : Effect ε σ PUnit).after s = t := rfl

theorem after_bind (m : Effect ε σ α) (f : α → Effect ε σ β) (s : σ) :
    (m >>= f).after s =
      match m.result s with
      | .ok a => (f a).after (m.after s)
      | .error _ => m.after s := by
  have hrun : StateT.run (ExceptT.run (m >>= f)) s =
      StateT.run (ExceptT.bindCont f (m.result s)) (m.after s) := rfl
  rw [after, hrun]
  cases m.result s with
  | ok a => rfl
  | error e => rfl

theorem after_tryCatch (m : Effect ε σ α) (h : ε → Effect ε σ α) (s : σ) :
    (tryCatch m h).after s =
      match m.result s with
      | .ok _ => m.after s
      | .error e => (h e).after (m.after s) := by
  have hrun : StateT.run (ExceptT.run (tryCatch m h)) s =
      StateT.run (match m.result s with
        | .ok a => Pure.pure (.ok a)
        | .error e => (h e).run) (m.after s) := rfl
  rw [after, hrun]
  cases m.result s with
  | ok a => rfl
  | error e => rfl

/-- `m` succeeds with `a` and leaves `s'`. -/
def Yields (m : Effect ε σ α) (s : σ) (a : α) (s' : σ) : Prop := m.result s = .ok a ∧ m.after s = s'

section

variable {s s' : σ} {a : α} {b : β}

@[simp] theorem yields_pure_iff {c : α} : (pure c : Effect ε σ α).Yields s a s' ↔ c = a ∧ s = s' := by
  constructor
  · rintro ⟨h, rfl⟩
    exact ⟨Except.ok.inj h, rfl⟩
  · rintro ⟨rfl, rfl⟩
    exact ⟨rfl, rfl⟩

@[simp] theorem not_yields_throw (e : ε) : ¬ (throw e : Effect ε σ α).Yields s a s' := by
  rintro ⟨hresult, -⟩
  cases hresult

theorem yields_get_bind_iff {f : σ → Effect ε σ α} :
    ((get : Effect ε σ σ) >>= f).Yields s a s' ↔ (f s).Yields s a s' := Iff.rfl

theorem result_bind (m : Effect ε σ α) (f : α → Effect ε σ β) (s : σ) :
    (m >>= f).result s =
      match m.result s with
      | .ok a => (f a).result (m.after s)
      | .error e => .error e := by
  have hrun : StateT.run (ExceptT.run (m >>= f)) s =
      StateT.run (ExceptT.bindCont f (m.result s)) (m.after s) := rfl
  rw [result, hrun]
  cases m.result s with
  | ok a => rfl
  | error e => rfl

theorem result_tryCatch (m : Effect ε σ α) (h : ε → Effect ε σ α) (s : σ) :
    (tryCatch m h).result s =
      match m.result s with
      | .ok a => .ok a
      | .error e => (h e).result (m.after s) := by
  have hrun : StateT.run (ExceptT.run (tryCatch m h)) s =
      StateT.run (match m.result s with
        | .ok a => Pure.pure (.ok a)
        | .error e => (h e).run) (m.after s) := rfl
  rw [result, hrun]
  cases m.result s with
  | ok a => rfl
  | error e => rfl

theorem yields_bind_iff {m : Effect ε σ α} {f : α → Effect ε σ β} :
    (m >>= f).Yields s b s' ↔ ∃ a t, m.Yields s a t ∧ (f a).Yields t b s' := by
  rw [Yields, result_bind, after_bind]
  cases hm : m.result s with
  | ok a =>
      constructor
      · intro h
        exact ⟨a, m.after s, ⟨hm, rfl⟩, h⟩
      · rintro ⟨c, t, ⟨hc, rfl⟩, h⟩
        obtain rfl := Except.ok.inj (hm.symm.trans hc)
        exact h
  | error e =>
      constructor
      · rintro ⟨h, -⟩
        cases h
      · rintro ⟨c, t, ⟨hc, -⟩, -⟩
        rw [hm] at hc
        cases hc

/-- What follows a success. -/
theorem Yields.after_bind {m : Effect ε σ α} {f : α → Effect ε σ β} (h : m.Yields s a s') :
    (m >>= f).after s = (f a).after s' := by
  rw [Effect.after_bind, h.1, h.2]

end

end Effect

/-- What `m` does to the state stays within `R`. -/
def Keeps (R : σ → σ → Prop) (m : Effect ε σ α) : Prop := ∀ s, R s (m.after s)

namespace Keeps

variable {R : σ → σ → Prop} {m : Effect ε σ α} {f : α → Effect ε σ β}

theorem pure [Std.Refl R] (a : α) : Keeps R (Pure.pure a : Effect ε σ α) := fun s => refl_of R s

theorem throw [Std.Refl R] (e : ε) : Keeps R (MonadExcept.throw e : Effect ε σ α) :=
  fun s => refl_of R s

theorem bind [IsTrans σ R] (hm : Keeps R m) (hf : ∀ a, Keeps R (f a)) : Keeps R (m >>= f) := by
  intro s
  rw [Effect.after_bind]
  cases m.result s with
  | ok a => exact trans_of R (hm s) (hf a (m.after s))
  | error e => exact hm s

theorem get_bind {f : σ → Effect ε σ β} (hf : ∀ s, R s ((f s).after s)) :
    Keeps R ((get : Effect ε σ σ) >>= f) := hf

/-- Errors that are caught keep what was done before them. -/
theorem tryCatch [IsTrans σ R] {h : ε → Effect ε σ α} (hm : Keeps R m) (hh : ∀ e, Keeps R (h e)) :
    Keeps R (MonadExcept.tryCatch m h) := by
  intro s
  rw [Effect.after_tryCatch]
  cases m.result s with
  | ok a => exact hm s
  | error e => exact trans_of R (hm s) (hh e (m.after s))

theorem mono {R' : σ → σ → Prop} (hR : ∀ a b, R a b → R' a b) (hm : Keeps R m) : Keeps R' m :=
  fun s => hR _ _ (hm s)

end Keeps

end Lib
