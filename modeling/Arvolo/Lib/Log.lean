import Mathlib

/-!
Logs: what a run has done, in order.

A property of a run is often one of each entry and those before it: a promise that was
true when the entry was made. It is kept by appending entries that keep it themselves.
-/

namespace Lib

variable {ε : Type} {P : List ε → ε → Prop} {log : List ε}

/-- Every entry meets `P` after those before it. -/
def Lawful (P : List ε → ε → Prop) (log : List ε) : Prop :=
  ∀ pre e post, log = pre ++ e :: post → P pre e

theorem lawful_nil : Lawful P [] := by
  intro pre e post h
  simp at h

theorem Lawful.concat {e : ε} (h : Lawful P log) (he : P log e) : Lawful P (log ++ [e]) := by
  intro pre e' post heq
  induction post using List.reverseRecOn with
  | nil =>
      obtain ⟨rfl, hlast⟩ := List.append_inj' heq rfl
      obtain rfl := List.singleton_inj.1 hlast
      exact he
  | append_singleton post x _ =>
      rw [← List.cons_append, ← List.append_assoc] at heq
      obtain ⟨rfl, -⟩ := List.append_inj' heq rfl
      exact h pre e' post rfl

/-- Entries that meet `P` after whatever comes before them can be appended. -/
theorem Lawful.append {new : List ε} (h : Lawful P log)
    (hnew : ∀ pre, ∀ e ∈ new, P (log ++ pre) e) : Lawful P (log ++ new) := by
  induction new using List.reverseRecOn with
  | nil => rwa [List.append_nil]
  | append_singleton new e ih =>
      have hbefore := ih fun pre e' he' => hnew pre e' (List.mem_append_left _ he')
      rw [← List.append_assoc]
      exact hbefore.concat (hnew new e (by simp))

end Lib
