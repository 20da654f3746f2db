import Mathlib

/-!
Machine words of a Rust program over unbounded numbers: the saturating sum, and
the casts between `u64` and the `i64` a database column holds.
-/

namespace Lib

/-- `u64::saturating_add`. -/
def satAdd (a b : ℕ) : ℕ := min (a + b) (2 ^ 64 - 1)

/-- `as i64`. -/
def asI64 (n : ℕ) : ℤ := Int.bmod n (2 ^ 64)

/-- `as u64`. -/
def asU64 (z : ℤ) : ℕ := (z % 2 ^ 64).toNat

theorem bmod_word {n : ℕ} (h : n < 2 ^ 64) : Int.bmod n (2 ^ 64) % 2 ^ 64 = n := by
  rw [Int.bmod_def]
  split <;> omega

theorem asU64_asI64 {n : ℕ} (h : n < 2 ^ 64) : asU64 (asI64 n) = n := by
  unfold asU64 asI64
  rw [bmod_word h, Int.toNat_natCast]

/-- Below `i64::MAX` the cast changes nothing. -/
theorem asI64_of_lt {n : ℕ} (h : n < 2 ^ 63) : asI64 n = n := by
  apply Int.bmod_eq_of_le <;> omega

theorem bmod_le (n m : ℕ) : Int.bmod n m ≤ n := by
  have hmod : (n : ℤ) % m ≤ n := by exact_mod_cast Nat.mod_le n m
  rw [Int.bmod_def]
  split <;> omega

theorem asI64_le (n : ℕ) : asI64 n ≤ n := bmod_le n _

theorem satAdd_le (a b : ℕ) : satAdd a b ≤ a + b := Nat.min_le_left ..

theorem satAdd_lt (a b : ℕ) : satAdd a b < 2 ^ 64 := by
  unfold satAdd
  omega

theorem satAdd_of_lt {a b : ℕ} (h : a + b < 2 ^ 64) : satAdd a b = a + b := by
  unfold satAdd
  omega

-- The bounds are numerals too large to unfold by accident.
attribute [irreducible] satAdd asI64 asU64

/-- `to_le_bytes` of a word of `k` bytes. -/
def leBytes : ℕ → ℕ → List UInt8
  | 0, _ => []
  | k + 1, n => UInt8.ofNat n :: leBytes k (n / 256)

/-- `from_le_bytes`. -/
def ofLeBytes : List UInt8 → ℕ
  | [] => 0
  | b :: bs => b.toNat + 256 * ofLeBytes bs

@[simp] theorem length_leBytes (k n : ℕ) : (leBytes k n).length = k := by
  induction k generalizing n with
  | zero => rfl
  | succ k ih => simp [leBytes, ih]

theorem ofLeBytes_leBytes {k n : ℕ} (h : n < 256 ^ k) : ofLeBytes (leBytes k n) = n := by
  induction k generalizing n with
  | zero =>
      have : n = 0 := by simpa using h
      simp [leBytes, ofLeBytes, this]
  | succ k ih =>
      have hdiv : n / 256 < 256 ^ k := by
        rw [Nat.div_lt_iff_lt_mul (by norm_num)]
        rwa [pow_succ] at h
      rw [leBytes, ofLeBytes, ih hdiv, UInt8.toNat_ofNat']
      omega

end Lib
