import Mathlib

/-!
Clocked registers: values that carry a clock from a linear order, compared by
it. A position that may be empty ranks below every register. A merge of two
positions that takes one of them, and the higher one, is a *pick*; wherever
equal clocks mean equal registers, a position is determined by its rank.
-/

namespace Lib

universe u v w

variable {α : Type u} {β : Type v} {κ : Type w}

/-- The clock of a position, with the empty one below all. -/
def rank (clock : α → κ) : Option α → WithBot κ
  | none => ⊥
  | some a => (clock a : WithBot κ)

@[simp] theorem rank_none (clock : α → κ) : rank clock none = ⊥ := rfl

@[simp] theorem rank_some (clock : α → κ) (a : α) : rank clock (some a) = (clock a : WithBot κ) :=
  rfl

@[simp] theorem rank_map (clock : α → κ) (clock' : β → κ) (f : α → β)
    (h : ∀ a, clock' (f a) = clock a) (o : Option α) : rank clock' (o.map f) = rank clock o := by
  cases o with
  | none => rfl
  | some a => simp [h]

/-- `res` is one of `cur` and `inc`, and ranks as high as both. -/
structure Picks [LinearOrder κ] (clock : α → κ) (cur inc res : Option α) : Prop where
  choice : res = cur ∨ res = inc
  rank_eq : rank clock res = max (rank clock cur) (rank clock inc)

theorem Picks.of_cur [LinearOrder κ] {clock : α → κ} {cur inc : Option α}
    (h : rank clock inc ≤ rank clock cur) : Picks clock cur inc cur :=
  ⟨.inl rfl, (max_eq_left h).symm⟩

theorem Picks.of_inc [LinearOrder κ] {clock : α → κ} {cur inc : Option α}
    (h : rank clock cur ≤ rank clock inc) : Picks clock cur inc inc :=
  ⟨.inr rfl, (max_eq_right h).symm⟩

theorem Picks.map [LinearOrder κ] {clock : α → κ} {cur inc res : Option α} (h : Picks clock cur inc res)
    (clock' : β → κ) (f : α → β) (hf : ∀ a, clock' (f a) = clock a) :
    Picks clock' (cur.map f) (inc.map f) (res.map f) where
  choice := h.choice.imp (congrArg (Option.map f)) (congrArg (Option.map f))
  rank_eq := by
    rw [rank_map clock clock' f hf, rank_map clock clock' f hf, rank_map clock clock' f hf]
    exact h.rank_eq

/-- Equal clocks at one position name equal registers. -/
def Agree (clock : α → κ) (a b : Option α) : Prop :=
  ∀ x ∈ a, ∀ y ∈ b, clock x = clock y → x = y

theorem Agree.eq_of_rank_eq {clock : α → κ} {a b : Option α} (h : Agree clock a b)
    (hr : rank clock a = rank clock b) : a = b := by
  cases a with
  | none =>
      cases b with
      | none => rfl
      | some y => simp at hr
  | some x =>
      cases b with
      | none => simp at hr
      | some y => exact congrArg some (h x rfl y rfl (WithBot.coe_inj.mp hr))

end Lib
