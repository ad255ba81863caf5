import Mathlib

/-!
# Division in binary64

Dividing two integers in Python gives the nearest binary64 number, ties to even. On
rationals : scale to a significand of 53 bits, round to an integer, scale back
(`nearest`). The exponent is unbounded here, which is the true behaviour between the
smallest normal and the largest finite number.

The relative error is at most `2⁻⁵³` (`abs_nearest_sub_le`) and integers below `2⁵³` are
exact (`nearest_natCast`), so `math.ceil(a / b)` is the exact ceiling for `a` below `2⁵³`
(`ceilDiv_eq`).
-/

namespace Binary64

/-- The nearest integer, ties to even. -/
def halfEven (x : ℚ) : ℤ :=
  if x - ⌊x⌋ < 1 / 2 then ⌊x⌋
  else if 1 / 2 < x - ⌊x⌋ then ⌊x⌋ + 1
  else if ⌊x⌋ % 2 = 0 then ⌊x⌋ else ⌊x⌋ + 1

theorem abs_halfEven_sub_le (x : ℚ) : |(halfEven x : ℚ) - x| ≤ 1 / 2 := by
  have h₀ : (⌊x⌋ : ℚ) ≤ x := Int.floor_le x
  have h₁ : x < ⌊x⌋ + 1 := Int.lt_floor_add_one x
  unfold halfEven
  split_ifs with hlt hgt heven
  · rw [abs_le]
    exact ⟨by linarith, by linarith⟩
  · push_cast
    rw [abs_le]
    exact ⟨by linarith, by linarith⟩
  · rw [abs_le]
    exact ⟨by linarith, by linarith⟩
  · push_cast
    rw [abs_le]
    exact ⟨by linarith, by linarith⟩

theorem halfEven_intCast (n : ℤ) : halfEven n = n := by
  simp [halfEven]

/-- One unit in the last place of a positive number. -/
def ulp (q : ℚ) : ℚ :=
  2 ^ (Int.log 2 q - 52)

/-- The nearest binary64 number to a nonnegative rational. -/
def nearest (q : ℚ) : ℚ :=
  if q = 0 then 0 else halfEven (q / ulp q) * ulp q

theorem ulp_pos (q : ℚ) : 0 < ulp q :=
  zpow_pos (by norm_num) _

theorem ulp_le {q : ℚ} (hq : 0 < q) : ulp q ≤ q / 2 ^ 52 := by
  have hlog : ((2 : ℕ) : ℚ) ^ Int.log 2 q ≤ q := Int.zpow_log_le_self (by norm_num) hq
  rw [ulp, zpow_sub₀ (by norm_num)]
  push_cast at hlog
  exact div_le_div_of_nonneg_right hlog (by positivity)

/-- Relative error at most `2⁻⁵³`. -/
theorem abs_nearest_sub_le {q : ℚ} (hq : 0 < q) : |nearest q - q| ≤ q / 2 ^ 53 := by
  have hu := ulp_pos q
  have hround := abs_halfEven_sub_le (q / ulp q)
  have hsplit : nearest q - q = (halfEven (q / ulp q) - q / ulp q) * ulp q := by
    rw [nearest, if_neg hq.ne', sub_mul, div_mul_cancel₀ _ hu.ne']
  calc |nearest q - q| = |(halfEven (q / ulp q) : ℚ) - q / ulp q| * ulp q := by
        rw [hsplit, abs_mul, abs_of_pos hu]
    _ ≤ 1 / 2 * ulp q := mul_le_mul_of_nonneg_right hround hu.le
    _ ≤ 1 / 2 * (q / 2 ^ 52) := mul_le_mul_of_nonneg_left (ulp_le hq) (by norm_num)
    _ = q / 2 ^ 53 := by ring

/-- Integers below `2⁵³` are binary64 numbers. -/
theorem nearest_natCast {n : ℕ} (hn : n < 2 ^ 53) : nearest n = n := by
  rcases Nat.eq_zero_or_pos n with rfl | hpos
  · simp [nearest]
  have hne : (n : ℚ) ≠ 0 := by positivity
  have hlog : Nat.log 2 n ≤ 52 := by
    have := Nat.log_lt_of_lt_pow hpos.ne' hn
    omega
  have hscale : (n : ℚ) / ulp n = ((n * 2 ^ (52 - Nat.log 2 n) : ℕ) : ℤ) := by
    rw [ulp, Int.log_natCast, ← neg_sub, zpow_neg, div_inv_eq_mul]
    have hexp : (52 : ℤ) - Nat.log 2 n = ((52 - Nat.log 2 n : ℕ) : ℤ) := by
      rw [Nat.cast_sub hlog]
      rfl
    rw [hexp, zpow_natCast]
    push_cast
    rfl
  rw [nearest, if_neg hne, hscale, halfEven_intCast, ← hscale, div_mul_cancel₀ _ (ulp_pos _).ne']

/-- The quotient of two integers. -/
def trueDiv (a b : ℕ) : ℚ :=
  nearest (a / b)

/-- `math.ceil(a / b)`. -/
def ceilDiv (a b : ℕ) : ℕ :=
  ⌈trueDiv a b⌉.toNat

/-- Below `2⁵³` the ceiling of the rounded quotient is the ceiling of the quotient. -/
theorem ceilDiv_eq {a b : ℕ} (ha : a < 2 ^ 53) (hb : 0 < b) :
    ceilDiv a b = (a + b - 1) / b := by
  obtain ⟨n, hn⟩ : ∃ n, n = (a + b - 1) / b := ⟨_, rfl⟩
  have hdiv := Nat.div_add_mod (a + b - 1) b
  have hmod := Nat.mod_lt (a + b - 1) hb
  rw [← hn] at hdiv ⊢
  have hbq : (0 : ℚ) < b := by exact_mod_cast hb
  suffices hceil : ⌈trueDiv a b⌉ = n by
    rw [ceilDiv, hceil, Int.toNat_natCast]
  by_cases hexact : a = b * n
  · have hq : (a : ℚ) / b = n := by
      rw [hexact]
      push_cast
      field_simp
    have hna : n ≤ a := by
      rw [hexact]
      exact Nat.le_mul_of_pos_left n hb
    rw [trueDiv, hq, nearest_natCast (hna.trans_lt ha)]
    exact Int.ceil_natCast n
  · have hapos : 0 < a := by
      rcases Nat.eq_zero_or_pos a with rfl | h
      · have : n = 0 := by
          rw [hn]
          exact Nat.div_eq_of_lt (by omega)
        simp [this] at hexact
      · exact h
    have haq : (0 : ℚ) < a := by exact_mod_cast hapos
    have hlo : (b : ℚ) * n + 1 ≤ a + b := by exact_mod_cast (by omega : b * n + 1 ≤ a + b)
    have hhi : (a : ℚ) + 1 ≤ b * n := by exact_mod_cast (by omega : a + 1 ≤ b * n)
    have herr : |trueDiv a b - a / b| < 1 / b := by
      refine (abs_nearest_sub_le (div_pos haq hbq)).trans_lt ?_
      rw [div_div, div_lt_div_iff₀ (by positivity) hbq]
      have : (a : ℚ) < 2 ^ 53 := by exact_mod_cast ha
      nlinarith
    rw [abs_lt] at herr
    have hlo' : (n : ℚ) - 1 + 1 / b ≤ a / b := by
      rw [le_div_iff₀ hbq, add_mul, div_mul_cancel₀ _ hbq.ne']
      linarith
    have hhi' : (a : ℚ) / b + 1 / b ≤ n := by
      rw [← add_div, div_le_iff₀ hbq]
      linarith
    rw [Int.ceil_eq_iff]
    push_cast
    exact ⟨by linarith, by linarith⟩

end Binary64
