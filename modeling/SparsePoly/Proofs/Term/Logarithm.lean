import Mathlib
import SparsePoly.Proofs.Term.Coefficient

/-!
# Printing with an inexact logarithm

The number of decimal places of a coefficient comes from its decimal logarithm.  Rounding the
logarithm can move it across an integer, but only next to a power of ten, and there one place more
or less does not show (`sizeTextFrom_eq`).
-/

open SparsePoly.Binary64 SparsePoly.Decimal

namespace SparsePoly

namespace Decimal

variable {x : ℚ} {k : ℤ} {p : ℕ}

/-- A number next to a power of ten is written as that power. -/
theorem nearestEven_div_of_near (hk : 0 ≤ k + p) (h : |x - 10 ^ k| * 10 ^ p < 1 / 2) :
    (nearestEven (x * 10 ^ p) : ℚ) / 10 ^ p = 10 ^ k := by
  obtain ⟨n, hn⟩ := Int.eq_ofNat_of_zero_le hk
  have hpow : ((10 ^ n : ℤ) : ℚ) = 10 ^ k * 10 ^ p := by
    push_cast
    rw [← zpow_natCast, ← zpow_natCast, ← hn, zpow_add₀ (by norm_num)]
  have hnear : nearestEven (x * 10 ^ p) = 10 ^ n := by
    apply nearestEven_eq
    rw [hpow, ← sub_mul, abs_mul, abs_sub_comm, abs_of_pos (by positivity : (0 : ℚ) < 10 ^ p)]
    exact h
  rw [hnear, hpow, mul_div_cancel_right₀ _ (by positivity)]

/-- Next to `10 ^ k` it does not matter whether `k` or `k - 1` is taken for the logarithm. -/
theorem nearestEven_div_eq (h : |x - 10 ^ k| < 10 ^ (k - 12) / 2) :
    (nearestEven (x * 10 ^ (11 - k).toNat) : ℚ) / 10 ^ (11 - k).toNat =
      nearestEven (x * 10 ^ (12 - k).toNat) / 10 ^ (12 - k).toNat := by
  rcases lt_or_ge 11 k with hk | hk
  · rw [Int.toNat_of_nonpos (by omega : 11 - k ≤ 0), Int.toNat_of_nonpos (by omega : 12 - k ≤ 0)]
  have hscale (p : ℕ) (hp : (p : ℤ) ≤ 12 - k) : |x - 10 ^ k| * 10 ^ p < 1 / 2 := by
    have hp₀ : (0 : ℚ) < 10 ^ p := by positivity
    have hle : (10 : ℚ) ^ (k - 12) * 10 ^ p ≤ 1 := by
      rw [← zpow_natCast, ← zpow_add₀ (by norm_num)]
      exact zpow_le_one_of_nonpos₀ (by norm_num) (by omega)
    have := mul_lt_mul_of_pos_right h hp₀
    linarith
  rw [nearestEven_div_of_near (by omega) (hscale _ (by omega)),
    nearestEven_div_of_near (by omega) (hscale _ (by omega))]

end Decimal

/-! ## Logarithms -/

/-- A number with a logarithm next to an integer is next to a power of ten. -/
theorem abs_sub_zpow_lt {x : ℝ} (hx : 0 < x) {k : ℤ}
    (h : |Real.logb 10 x - k| ≤ 2 ^ (-44 : ℤ)) : |x - 10 ^ k| < 10 ^ (k - 12) / 2 := by
  have hlog : Real.log 10 ≤ 3 := by
    rw [Real.log_le_iff_le_exp (by norm_num)]
    have := Real.exp_one_gt_d9
    calc (10 : ℝ) ≤ 2.7 ^ 3 := by norm_num
      _ ≤ Real.exp 1 ^ 3 := pow_le_pow_left₀ (by norm_num) (by linarith) 3
      _ = Real.exp 3 := by rw [← Real.exp_nat_mul]; norm_num
  have hlog₀ : 0 < Real.log 10 := Real.log_pos (by norm_num)
  set d := (Real.logb 10 x - k) * Real.log 10 with hd
  have hsmall : |d| ≤ 2 ^ (-44 : ℤ) * 3 := by
    rw [hd, abs_mul, abs_of_pos hlog₀]
    exact mul_le_mul h hlog hlog₀.le (by positivity)
  have hx' : x = 10 ^ k * Real.exp d := by
    rw [hd, sub_mul, Real.exp_sub, Real.logb, div_mul_cancel₀ _ hlog₀.ne', Real.exp_log hx,
      mul_comm (k : ℝ), Real.exp_mul, Real.exp_log (by norm_num), Real.rpow_intCast,
      mul_div_cancel₀ _ (by positivity)]
  have hexp := Real.abs_exp_sub_one_le (hsmall.trans (by norm_num))
  have h₁₀ : (0 : ℝ) < 10 ^ k := by positivity
  have hpow : (10 : ℝ) ^ (k - 12) = 10 ^ k * 10 ^ (-12 : ℤ) := zpow_add₀ (by norm_num) k (-12)
  have hbound : |Real.exp d - 1| < 10 ^ (-12 : ℤ) / 2 := by
    refine hexp.trans_lt ((mul_le_mul_of_nonneg_left hsmall two_pos.le).trans_lt ?_)
    norm_num
  calc |x - 10 ^ k| = 10 ^ k * |Real.exp d - 1| := by
        rw [hx', ← abs_of_pos h₁₀, ← abs_mul, abs_of_pos h₁₀, mul_sub, mul_one]
    _ < 10 ^ k * (10 ^ (-12 : ℤ) / 2) := mul_lt_mul_of_pos_left hbound h₁₀
    _ = 10 ^ (k - 12) / 2 := by rw [hpow, mul_div_assoc]

theorem log_bounds {x : ℚ} (hx : 0 < x) :
    (Int.log 10 x : ℝ) ≤ Real.logb 10 x ∧ Real.logb 10 x < Int.log 10 x + 1 := by
  have hx' : (0 : ℝ) < x := by exact_mod_cast hx
  have hlow : ((10 ^ Int.log 10 x : ℚ) : ℝ) ≤ x := by exact_mod_cast zpow_log_le hx
  have hhigh : (x : ℝ) < ((10 ^ (Int.log 10 x + 1) : ℚ) : ℝ) := by exact_mod_cast lt_zpow_log hx
  push_cast at hlow hhigh
  constructor
  · rw [Real.le_logb_iff_rpow_le (by norm_num) hx', Real.rpow_intCast]
    exact hlow
  · rw [Real.logb_lt_iff_lt_rpow (by norm_num) hx', ← Int.cast_one, ← Int.cast_add,
      Real.rpow_intCast]
    exact hhigh

/-- Where the integral part of an inexact logarithm is not the exact one, the number is next to the
power of ten between the two. -/
theorem floor_cases {x : ℚ} (hx : 0 < x) {l : ℝ}
    (h : |l - Real.logb 10 x| ≤ 2 ^ (-44 : ℤ)) : ⌊l⌋ = Int.log 10 x ∨
      ∃ k : ℤ, |x - 10 ^ k| < 10 ^ (k - 12) / 2 ∧
        (⌊l⌋ = k ∧ Int.log 10 x = k - 1 ∨ ⌊l⌋ = k - 1 ∧ Int.log 10 x = k) := by
  obtain ⟨hlow, hhigh⟩ := log_bounds hx
  have near {k : ℤ} (hk : |Real.logb 10 x - k| ≤ 2 ^ (-44 : ℤ)) :
      |x - 10 ^ k| < 10 ^ (k - 12) / 2 := by
    have hreal : ((|x - 10 ^ k| : ℚ) : ℝ) < ((10 ^ (k - 12) / 2 : ℚ) : ℝ) := by
      push_cast
      exact abs_sub_zpow_lt (by exact_mod_cast hx) hk
    exact_mod_cast hreal
  have hfloor := Int.floor_le l
  have hfloor' := Int.lt_floor_add_one l
  have hε : (2 : ℝ) ^ (-44 : ℤ) < 1 := by norm_num
  rw [abs_le] at h
  rcases lt_trichotomy ⌊l⌋ (Int.log 10 x) with hlt | heq | hlt
  · right
    have hle : ((⌊l⌋ : ℤ) : ℝ) + 1 ≤ Int.log 10 x := by exact_mod_cast hlt
    refine ⟨Int.log 10 x, near (abs_le.2 ⟨by linarith, by linarith⟩), Or.inr ⟨?_, rfl⟩⟩
    have : (Int.log 10 x : ℝ) < ⌊l⌋ + 2 := by linarith
    have : Int.log 10 x < ⌊l⌋ + 2 := by exact_mod_cast this
    omega
  · exact Or.inl heq
  · right
    have hle : (Int.log 10 x : ℝ) + 1 ≤ ⌊l⌋ := by exact_mod_cast hlt
    refine ⟨⌊l⌋, near (abs_le.2 ⟨by linarith, by linarith⟩), Or.inl ⟨rfl, ?_⟩⟩
    have : (⌊l⌋ : ℝ) < Int.log 10 x + 2 := by linarith
    have : ⌊l⌋ < Int.log 10 x + 2 := by exact_mod_cast this
    omega

namespace Term

/-- The text of a positive size where its decimal logarithm is taken to be `l`. -/
noncomputable def sizeTextFrom (l : ℝ) (v : Magnitude) : List Char :=
  let places := (significantDigits - 1 - ⌊l⌋).toNat
  trimmed (nearest v places) places

theorem nearest_div_eq (v : Magnitude) (p : ℕ) :
    (nearest v p : ℚ) / 10 ^ p = nearestEven (v.toRat * 10 ^ p) / 10 ^ p := by
  have h := nearest_eq v p
  rw [zpow_natCast] at h
  rw [← h, Int.cast_natCast]

/-- A logarithm that is off by at most `2 ^ (-44)`, a unit in the last place of the logarithms of
the largest and the smallest doubles, gives the same text. -/
theorem sizeTextFrom_eq {v : Magnitude} (hv : 0 < v.toRat) {l : ℝ}
    (h : |l - Real.logb 10 v.toRat| ≤ 2 ^ (-44 : ℤ)) : sizeTextFrom l v = sizeText v := by
  rw [sizeTextFrom, sizeText, decimalPlaces, leadingExponent_eq hv]
  rcases floor_cases hv h with heq | ⟨k, hk, hcases⟩
  · rw [heq]
  have hdigits : (significantDigits : ℤ) = 12 := rfl
  have h₁ : (significantDigits : ℤ) - 1 - k = 11 - k := by omega
  have h₂ : (significantDigits : ℤ) - 1 - (k - 1) = 12 - k := by omega
  have htext : trimmed (nearest v (11 - k).toNat) (11 - k).toNat =
      trimmed (nearest v (12 - k).toNat) (12 - k).toNat :=
    trimmed_congr (by rw [nearest_div_eq, nearest_div_eq, nearestEven_div_eq hk])
  rcases hcases with ⟨hl, he⟩ | ⟨hl, he⟩
  · rw [hl, he, h₁, h₂, htext]
  · rw [hl, he, h₁, h₂, htext]

/-- The text of a positive coefficient does not depend on how its logarithm is rounded. -/
theorem sizeTextFrom_eq_coefficientText {x : Float} (hf : x.isFinite = true) (hx : 0 < toRat x)
    {l : ℝ} (h : |l - Real.logb 10 (toRat x)| ≤ 2 ^ (-44 : ℤ)) :
    sizeTextFrom l (magnitude x) = coefficientText x := by
  have hv : (magnitude x).toRat = toRat x := by rw [toRat_magnitude, abs_of_pos hx]
  rw [coefficientText_eq hf hx]
  exact sizeTextFrom_eq (by rwa [hv]) (by rwa [hv])

end Term

end SparsePoly
