import Mathlib

/-!
Rounding to a double: 53 significant bits, ties to even. The exponent is not bounded,
so the results are those of the format for numbers far from its ends.
-/

namespace Lib

/-- The nearest integer, the even one of two. -/
def roundEven (x : ℚ) : ℤ :=
  if x - ⌊x⌋ < 1 / 2 then ⌊x⌋
  else if 1 / 2 < x - ⌊x⌋ then ⌊x⌋ + 1
  else if ⌊x⌋ % 2 = 0 then ⌊x⌋ else ⌊x⌋ + 1

/-- The distance of two doubles next to a positive number. -/
def ulp (x : ℚ) : ℚ := 2 ^ (Int.log 2 x - 52)

/-- The double nearest to a number that is not negative. -/
def toDouble (x : ℚ) : ℚ := if x = 0 then 0 else roundEven (x / ulp x) * ulp x

theorem roundEven_le {x : ℚ} {n : ℤ} (h : x ≤ n) : (roundEven x : ℚ) ≤ n := by
  have hfloor := Int.floor_le x
  have hlt := Int.lt_floor_add_one x
  have hle : (roundEven x : ℤ) ≤ n := by
    rcases eq_or_lt_of_le h with rfl | h
    · simp [roundEven]
    · have hceil : ⌊x⌋ + 1 ≤ n := by
        have := Int.floor_lt.2 h
        omega
      unfold roundEven
      split_ifs <;> omega
  exact_mod_cast hle

theorem le_roundEven (x : ℚ) : x - 1 / 2 ≤ roundEven x := by
  have hlt := Int.lt_floor_add_one x
  unfold roundEven
  split_ifs with h₁ h₂ h₃
  · linarith
  · push_cast
    linarith
  · linarith
  · push_cast
    linarith

theorem ulp_pos (x : ℚ) : 0 < ulp x := zpow_pos (by norm_num) _

theorem ulp_le {x : ℚ} (hx : 0 < x) : ulp x * 2 ^ 52 ≤ x := by
  have hlog := Int.zpow_log_le_self (b := 2) (by norm_num) hx
  rw [ulp, zpow_sub₀ (by norm_num)]
  norm_num at hlog ⊢
  exact hlog

/-- The relative error is below half a unit of the last place. -/
theorem le_toDouble {x : ℚ} (hx : 0 < x) : x - x / 2 ^ 53 ≤ toDouble x := by
  have hpos := ulp_pos x
  have hround := le_roundEven (x / ulp x)
  have hunit : ulp x / 2 ≤ x / 2 ^ 53 := by
    have := ulp_le hx
    rw [div_le_div_iff₀ (by norm_num) (by norm_num)]
    linarith
  rw [toDouble, if_neg hx.ne']
  calc x - x / 2 ^ 53 ≤ x - ulp x / 2 := by linarith
    _ = (x / ulp x - 1 / 2) * ulp x := by field_simp
    _ ≤ roundEven (x / ulp x) * ulp x := mul_le_mul_of_nonneg_right hround hpos.le

theorem log_le_of_lt {x : ℚ} (hx : 0 < x) (hsmall : x < 2 ^ 53) : Int.log 2 x ≤ 52 := by
  have : Int.log 2 x < 53 :=
    (Int.lt_zpow_iff_log_lt (by norm_num) hx).1 (by exact_mod_cast hsmall)
  omega

/-- Below 2^53 the whole numbers are multiples of the unit. -/
theorem exists_mul_ulp {x : ℚ} (hx : 0 < x) (hsmall : x < 2 ^ 53) :
    ∃ k : ℕ, ∀ n : ℕ, ((n * 2 ^ k : ℕ) : ℤ) * ulp x = n := by
  have hlog := log_le_of_lt hx hsmall
  obtain ⟨k, hk⟩ : ∃ k : ℕ, 52 - Int.log 2 x = k := ⟨_, (Int.toNat_of_nonneg (by omega)).symm⟩
  have hone : (2 : ℚ) ^ k * ulp x = 1 := by
    rw [ulp, ← zpow_natCast, ← hk, ← zpow_add₀ (by norm_num)]
    norm_num
  refine ⟨k, fun n => ?_⟩
  push_cast
  rw [mul_assoc, hone, mul_one]

/-- A whole number is an upper bound of what rounds to it from below. -/
theorem toDouble_le {x : ℚ} {n : ℕ} (hx : 0 ≤ x) (h : x ≤ n) (hsmall : x < 2 ^ 53) :
    toDouble x ≤ n := by
  rcases eq_or_lt_of_le hx with rfl | hpos
  · simp [toDouble]
  obtain ⟨k, hk⟩ := exists_mul_ulp hpos hsmall
  have hdiv : x / ulp x ≤ ((n * 2 ^ k : ℕ) : ℤ) := by
    rw [div_le_iff₀ (ulp_pos x), hk]
    exact h
  rw [toDouble, if_neg hpos.ne']
  calc roundEven (x / ulp x) * ulp x ≤ ((n * 2 ^ k : ℕ) : ℤ) * ulp x :=
        mul_le_mul_of_nonneg_right (roundEven_le hdiv) (ulp_pos x).le
    _ = n := hk n

theorem roundEven_intCast (n : ℤ) : roundEven n = n := by simp [roundEven]

theorem toDouble_natCast {n : ℕ} (h : n < 2 ^ 53) : toDouble n = n := by
  rcases Nat.eq_zero_or_pos n with rfl | hn
  · simp [toDouble]
  have hpos : (0 : ℚ) < n := by exact_mod_cast hn
  obtain ⟨k, hk⟩ := exists_mul_ulp hpos (by exact_mod_cast h)
  have hdiv : (n : ℚ) / ulp n = ((n * 2 ^ k : ℕ) : ℤ) := by
    rw [div_eq_iff (ulp_pos _).ne', hk]
  rw [toDouble, if_neg hpos.ne', hdiv, roundEven_intCast, hk]

/-- Dividing whole numbers and rounding up in doubles is exact below 2^53. -/
theorem ceil_toDouble_div {m c : ℕ} (hm : m < 2 ^ 53) (hc : 0 < c) :
    ⌈toDouble ((m : ℚ) / c)⌉₊ = (m + (c - 1)) / c := by
  have hcq : (0 : ℚ) < c := by exact_mod_cast hc
  have hceil := Nat.div_add_mod (m + (c - 1)) c
  have hrem := Nat.mod_lt (m + (c - 1)) hc
  set k := (m + (c - 1)) / c with hk
  have hle : (m : ℚ) / c ≤ m := div_le_self (by positivity) (by exact_mod_cast hc)
  have hmq : (m : ℚ) < 2 ^ 53 := by exact_mod_cast hm
  have hupper : toDouble ((m : ℚ) / c) ≤ k := by
    refine toDouble_le (by positivity) ?_ (by linarith)
    rw [div_le_iff₀ hcq]
    exact_mod_cast (show m ≤ k * c by rw [Nat.mul_comm]; omega)
  rcases Nat.eq_zero_or_pos k with hzero | hpos
  · rw [hzero, Nat.ceil_eq_zero]
    simpa [hzero] using hupper
  · have hm' : (k - 1) * c + 1 ≤ m := by
      have : c * k = (k - 1) * c + c := by
        rw [Nat.mul_comm, ← Nat.succ_mul, Nat.succ_eq_add_one, Nat.sub_add_cancel hpos]
      omega
    have hlow : ((k - 1 : ℕ) : ℚ) + 1 / c ≤ m / c := by
      rw [le_div_iff₀ hcq, add_mul, one_div_mul_cancel hcq.ne']
      exact_mod_cast hm'
    have hquot : (0 : ℚ) < m / c := by
      have : (0 : ℚ) < 1 / c := by positivity
      have : (0 : ℚ) ≤ ((k - 1 : ℕ) : ℚ) := by positivity
      linarith
    have herr : (m : ℚ) / c / 2 ^ 53 < 1 / c := by
      rw [div_div, div_lt_div_iff₀ (by positivity) hcq, one_mul]
      calc (m : ℚ) * c < 2 ^ 53 * c := mul_lt_mul_of_pos_right hmq hcq
        _ = c * 2 ^ 53 := mul_comm _ _
    refine (Nat.ceil_eq_iff hpos.ne').2 ⟨?_, hupper⟩
    have hround := le_toDouble hquot
    linarith

end Lib
