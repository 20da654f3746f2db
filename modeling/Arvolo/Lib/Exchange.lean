import Mathlib

/-!
Key exchanges from a shared secret, in which each of two sides sends one message.

The key stands for the secret and the two messages. So where two sides come by one key they
have one secret, and each has the other's message, unless they have sent the same message. A
party that keeps to no rules can do no more than to run sides of its own, and what it knows are
the keys of these.
-/

namespace Lib

universe u v w z

/-- `S` are the secrets, `X` what a side draws, `M` the messages and `K` the keys. -/
structure Exchange (S : Type u) (X : Type v) (M : Type w) (K : Type z) where
  start : S → X → M
  finish : S → X → M → Option K

/-- One side of an exchange, with the message it took for the other's. -/
structure Side (S : Type u) (X : Type v) (M : Type w) where
  secret : S
  scalar : X
  theirs : M

variable {S : Type u} {X : Type v} {M : Type w} {K : Type z}

namespace Side

variable (p : Exchange S X M K) (a b : Side S X M)

def ours : M := p.start a.secret a.scalar

def key : Option K := p.finish a.secret a.scalar a.theirs

/-- Two sides of one exchange, with nobody between them. -/
structure Faces : Prop where
  secret : a.secret = b.secret
  theirs : a.theirs = b.ours p
  ours : b.theirs = a.ours p

/-- The other side is run by somebody who tried this secret. -/
def Guessed (guesses : List (S × X)) : Prop :=
  ∃ y, (a.secret, y) ∈ guesses ∧ a.theirs = p.start a.secret y

variable {p a b}

theorem Faces.symm (h : a.Faces p b) : b.Faces p a := ⟨h.secret.symm, h.ours, h.theirs⟩

theorem Guessed.mono {guesses guesses' : List (S × X)} (h : a.Guessed p guesses)
    (hle : guesses ⊆ guesses') : a.Guessed p guesses' := by
  obtain ⟨y, hy, htheirs⟩ := h
  exact ⟨y, hle hy, htheirs⟩

end Side

namespace Exchange

/-- One key, one secret and one pair of messages. -/
def Binding (p : Exchange S X M K) : Prop :=
  ∀ (a b : Side S X M) (k : K), a.key p = some k → b.key p = some k →
    a.secret = b.secret ∧
      (a.ours p = b.ours p ∧ a.theirs = b.theirs ∨ a.theirs = b.ours p ∧ b.theirs = a.ours p)

/-- Sides that face each other come by one key. -/
def Agreeing (p : Exchange S X M K) : Prop :=
  ∀ (s : S) (x y : X), p.finish s x (p.start s y) = p.finish s y (p.start s x)

/-- The key of a side that whoever tried these secrets can have run. -/
def Known (p : Exchange S X M K) (guesses : List (S × X)) (k : K) : Prop :=
  ∃ g ∈ guesses, ∃ m, p.finish g.1 g.2 m = some k

variable {p : Exchange S X M K} {a b : Side S X M} {k : K}

theorem Known.mono {guesses guesses' : List (S × X)} (h : p.Known guesses k)
    (hle : guesses ⊆ guesses') : p.Known guesses' k := by
  obtain ⟨g, hg, hkey⟩ := h
  exact ⟨g, hle hg, hkey⟩

theorem Binding.secret_eq (hp : p.Binding) (ha : a.key p = some k) (hb : b.key p = some k) :
    a.secret = b.secret := (hp a b k ha hb).1

theorem Binding.faces (hp : p.Binding) (ha : a.key p = some k) (hb : b.key p = some k)
    (hne : a.ours p ≠ b.ours p) : a.Faces p b := by
  obtain ⟨hsecret, hmessages⟩ := hp a b k ha hb
  rcases hmessages with ⟨hours, -⟩ | ⟨htheirs, hours⟩
  · exact absurd hours hne
  · exact ⟨hsecret, htheirs, hours⟩

/-- A key known to whoever tries secrets is that of a side it stands opposite to. -/
theorem Binding.guessed (hp : p.Binding) {guesses : List (S × X)} (ha : a.key p = some k)
    (hk : p.Known guesses k) (hne : ∀ g ∈ guesses, p.start g.1 g.2 ≠ a.ours p) :
    a.Guessed p guesses := by
  obtain ⟨⟨s, y⟩, hg, m, hkey⟩ := hk
  have hfaces : a.Faces p ⟨s, y, m⟩ := hp.faces ha hkey fun h => hne (s, y) hg h.symm
  have hsecret : a.secret = s := hfaces.secret
  have htheirs : a.theirs = p.start s y := hfaces.theirs
  rw [← hsecret] at hg htheirs
  exact ⟨y, hg, htheirs⟩

end Exchange

end Lib
