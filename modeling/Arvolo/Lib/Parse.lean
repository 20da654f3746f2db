import Arvolo.Lib.Word

/-!
Reading a sequence from its front: a fixed number of items, a little-endian word. What a
reader returns is what it took and what is left.
-/

namespace Lib

/-- The first `n` items and the rest. -/
def take? {α : Type*} (n : ℕ) (s : List α) : Option (List α × List α) :=
  if n ≤ s.length then some (s.take n, s.drop n) else none

theorem take?_append {α : Type*} (a s : List α) : take? a.length (a ++ s) = some (a, s) := by
  rw [take?, if_pos (by simp), List.take_left, List.drop_left]

theorem take?_eq_some {α : Type*} {n : ℕ} {s a rest : List α} :
    take? n s = some (a, rest) ↔ s = a ++ rest ∧ a.length = n := by
  constructor
  · intro h
    by_cases hle : n ≤ s.length
    · rw [take?, if_pos hle] at h
      obtain ⟨rfl, rfl⟩ := Prod.mk.inj (Option.some.inj h)
      exact ⟨(List.take_append_drop n s).symm, List.length_take_of_le hle⟩
    · rw [take?, if_neg hle] at h
      exact nomatch h
  · rintro ⟨rfl, rfl⟩
    exact take?_append a rest

/-- A word of `k` bytes. -/
def word (k : ℕ) (s : List UInt8) : Option (ℕ × List UInt8) :=
  (take? k s).map fun p => (ofLeBytes p.1, p.2)

theorem word_leBytes {k n : ℕ} (h : n < 256 ^ k) (s : List UInt8) :
    word k (leBytes k n ++ s) = some (n, s) := by
  have htake := take?_append (leBytes k n) s
  rw [length_leBytes] at htake
  rw [word, htake, Option.map_some, ofLeBytes_leBytes h]

theorem ofLeBytes_lt (b : List UInt8) : ofLeBytes b < 256 ^ b.length := by
  induction b with
  | nil => simp [ofLeBytes]
  | cons x b ih =>
      have hx := x.toNat_lt
      rw [ofLeBytes, List.length_cons, pow_succ]
      omega

theorem leBytes_ofLeBytes (b : List UInt8) : leBytes b.length (ofLeBytes b) = b := by
  induction b with
  | nil => rfl
  | cons x b ih =>
      have hx := x.toNat_lt
      have hdiv : (x.toNat + 256 * ofLeBytes b) / 256 = ofLeBytes b := by omega
      have hhead : UInt8.ofNat (x.toNat + 256 * ofLeBytes b) = x := by
        apply UInt8.toNat_inj.1
        rw [UInt8.toNat_ofNat']
        omega
      rw [List.length_cons, leBytes, ofLeBytes, hdiv, ih, hhead]

theorem word_eq_some {k n : ℕ} {s rest : List UInt8} :
    word k s = some (n, rest) ↔ s = leBytes k n ++ rest ∧ n < 256 ^ k := by
  constructor
  · intro h
    obtain ⟨⟨b, rest'⟩, htake, heq⟩ := Option.map_eq_some_iff.1 h
    obtain ⟨rfl, rfl⟩ := Prod.mk.inj heq
    obtain ⟨rfl, rfl⟩ := take?_eq_some.1 htake
    exact ⟨by rw [leBytes_ofLeBytes], ofLeBytes_lt b⟩
  · rintro ⟨rfl, hn⟩
    exact word_leBytes hn rest

/-- A word is cut to its bytes. -/
theorem leBytes_mod (k n : ℕ) : leBytes k (n % 256 ^ k) = leBytes k n := by
  induction k generalizing n with
  | zero => rfl
  | succ k ih =>
      have hdiv : n % 256 ^ (k + 1) / 256 = n / 256 % 256 ^ k := by
        rw [pow_succ', Nat.mod_mul_right_div_self]
      have hhead : UInt8.ofNat (n % 256 ^ (k + 1)) = UInt8.ofNat n := by
        apply UInt8.toNat_inj.1
        rw [UInt8.toNat_ofNat', UInt8.toNat_ofNat', pow_succ']
        exact Nat.mod_mul_right_mod _ _ _
      rw [leBytes, leBytes, hdiv, ih, hhead]

/-- Words of the same bytes. -/
theorem leBytes_inj {k m n : ℕ} (hm : m < 256 ^ k) (hn : n < 256 ^ k)
    (h : leBytes k m = leBytes k n) : m = n := by
  rw [← ofLeBytes_leBytes hm, h, ofLeBytes_leBytes hn]

theorem bind_eq_ok {ε α β : Type} {x : Except ε α} {f : α → Except ε β} {b : β} :
    x >>= f = .ok b ↔ ∃ a, x = .ok a ∧ f a = .ok b := by
  cases x with
  | error e => exact ⟨nofun, fun ⟨_, h, _⟩ => nomatch h⟩
  | ok a => exact ⟨fun h => ⟨a, rfl, h⟩, fun ⟨_, h, hf⟩ => Except.ok.inj h ▸ hf⟩

theorem pure_eq_ok {ε α : Type} {a b : α} : (pure a : Except ε α) = .ok b ↔ a = b :=
  ⟨fun h => Except.ok.inj h, fun h => h ▸ rfl⟩

theorem guard_eq_some {p : Prop} [Decidable p] {u : Unit} :
    (guard p : Option Unit) = some u ↔ p := by
  by_cases h : p
  · simp [guard, h]
  · simp [guard, h]

end Lib
