import Mathlib
import SparsePoly.Decimal
import SparsePoly.Proofs.Binary64.Rounding

/-!
# Positional text and its value

The functions on magnitudes compute with natural numbers.  Here they are brought to rational
numbers: `nearest` is `nearestEven` of the scaled value (`nearest_eq`) and `leadingExponent` is the
integral part of the decimal logarithm (`leadingExponent_eq`).
-/

open SparsePoly.Binary64

namespace SparsePoly

/-! ## Magnitudes -/

namespace Magnitude

/-- The rational number that a magnitude stands for. -/
def toRat (v : Magnitude) : ℚ := v.mantissa * 2 ^ v.exponent

theorem scaled_snd_pos (v : Magnitude) (places : ℤ) : 0 < (v.scaled places).2 := by
  simp only [scaled, Nat.shiftLeft_eq, one_mul]
  exact Nat.mul_pos (Nat.two_pow_pos _) (Nat.pow_pos (by norm_num))

theorem zpow_toNat_div (b : ℚ) (hb : b ≠ 0) (e : ℤ) : b ^ e.toNat / b ^ (-e).toNat = b ^ e := by
  rw [← zpow_natCast, ← zpow_natCast, ← zpow_sub₀ hb]
  congr 1
  omega

/-- The two numbers have the scaled magnitude as their quotient. -/
theorem scaled_div (v : Magnitude) (places : ℤ) :
    ((v.scaled places).1 : ℚ) / (v.scaled places).2 = v.toRat * 10 ^ places := by
  have h₂ := zpow_toNat_div 2 two_ne_zero v.exponent
  have h₁ := zpow_toNat_div 10 (by norm_num) places
  simp only [scaled, Nat.shiftLeft_eq, one_mul, Nat.pow_eq]
  push_cast
  rw [toRat, ← h₁, ← h₂, mul_div_mul_comm]
  ring

theorem floor_eq (v : Magnitude) : (v.floor : ℤ) = ⌊v.toRat⌋ := by
  have h₂ := zpow_toNat_div 2 two_ne_zero v.exponent
  have hdiv := Rat.floor_natCast_div_natCast (v.mantissa * 2 ^ v.exponent.toNat)
    (2 ^ (-v.exponent).toNat)
  push_cast at hdiv
  rw [floor, Nat.shiftLeft_eq, Nat.shiftRight_eq_div_pow, toRat, ← h₂, ← mul_div_assoc, hdiv]
  push_cast
  rfl

end Magnitude

namespace Decimal

/-- Rounding a quotient of natural numbers is rounding the rational number. -/
theorem roundHalfEven_eq {num den : ℕ} (h : 0 < den) :
    (roundHalfEven num den : ℤ) = nearestEven ((num : ℚ) / den) := by
  have hmod := Nat.div_add_mod num den
  have hlt := Nat.mod_lt num h
  unfold roundHalfEven
  simp only
  generalize num / den = q at hmod ⊢
  generalize num % den = r at hmod hlt ⊢
  have hden : (0 : ℚ) < den := by exact_mod_cast h
  have hdiv : (num : ℚ) / den = q + r / den := by
    rw [← hmod]
    push_cast
    field_simp
  have hr : (r : ℚ) / den < 1 := by
    rw [div_lt_one hden]
    exact_mod_cast hlt
  have hr₀ : 0 ≤ (r : ℚ) / den := div_nonneg (Nat.cast_nonneg r) hden.le
  have hfloor : ⌊(num : ℚ) / den⌋ = q := by
    rw [Int.floor_eq_iff, hdiv, Int.cast_natCast]
    constructor <;> linarith
  have hfract : Int.fract ((num : ℚ) / den) = r / den := by
    rw [Int.fract, hfloor, hdiv, Int.cast_natCast]
    ring
  have hless : (r : ℚ) / den < 1 / 2 ↔ 2 * r < den := by
    rw [div_lt_div_iff₀ hden two_pos, one_mul, mul_comm]
    exact_mod_cast Iff.rfl
  have htie : (r : ℚ) / den = 1 / 2 ↔ 2 * r = den := by
    rw [div_eq_div_iff hden.ne' two_ne_zero, one_mul, mul_comm]
    exact_mod_cast Iff.rfl
  have heven : Even (q : ℤ) ↔ q % 2 = 0 := by rw [Int.even_coe_nat, Nat.even_iff]
  unfold nearestEven
  rw [hfract, hfloor]
  simp only [hless, htie, heven]
  split_ifs <;> push_cast <;> rfl

theorem nearest_eq (v : Magnitude) (places : ℤ) :
    (nearest v places : ℤ) = nearestEven (v.toRat * 10 ^ places) := by
  rw [← v.scaled_div]
  exact roundHalfEven_eq (v.scaled_snd_pos places)

/-! ## The leading exponent -/

theorem length_digits_pos (n : ℕ) : 0 < (digits n).length := Nat.length_toDigits_pos

theorem lt_pow_length_digits (n : ℕ) : n < 10 ^ (digits n).length :=
  (Nat.length_toDigits_le_iff (by norm_num) (length_digits_pos n)).1 le_rfl

theorem pow_length_digits_le {n : ℕ} (h : 0 < n) : 10 ^ ((digits n).length - 1) ≤ n := by
  by_contra hlt
  have hpos := length_digits_pos n
  rcases Nat.eq_zero_or_pos ((digits n).length - 1) with h₀ | h₀
  · rw [h₀, pow_zero] at hlt
    omega
  · have := (Nat.length_toDigits_le_iff (b := 10) (by norm_num) h₀).2 (not_le.1 hlt)
    change (digits n).length ≤ _ at this
    omega

section

variable {num den : ℕ}

/-- The logarithm of a quotient of at least one. -/
theorem log_div_of_le (hden : 0 < den) (hle : den ≤ num) :
    Int.log 10 ((num : ℚ) / den) = (digits (num / den)).length - 1 := by
  have hdenq : (0 : ℚ) < den := by exact_mod_cast hden
  have hpos : (0 : ℚ) < num / den := div_pos (by exact_mod_cast hden.trans_le hle) hdenq
  have hq : 0 < num / den := Nat.div_pos hle hden
  have hlow : (10 : ℚ) ^ ((digits (num / den)).length - 1) ≤ num / den := by
    refine le_trans ?_ (Nat.cast_div_le (m := num) (n := den))
    exact_mod_cast pow_length_digits_le hq
  have hhigh : (num : ℚ) / den < 10 ^ (digits (num / den)).length := by
    rw [div_lt_iff₀ hdenq]
    exact_mod_cast (Nat.div_lt_iff_lt_mul hden).1 (lt_pow_length_digits (num / den))
  have hlen := length_digits_pos (num / den)
  apply le_antisymm
  · rw [← Int.lt_add_one_iff, sub_add_cancel, ← Int.lt_zpow_iff_log_lt (by norm_num) hpos]
    exact_mod_cast hhigh
  · rw [← Int.zpow_le_iff_le_log (by norm_num) hpos]
    have : (((digits (num / den)).length : ℤ) - 1) = ((digits (num / den)).length - 1 : ℕ) := by
      omega
    rw [this]
    exact_mod_cast hlow

/-- The logarithm of a quotient below one. -/
theorem log_div_of_lt (hnum : 0 < num) (hlt : num < den) :
    Int.log 10 ((num : ℚ) / den) = -(digits ((den - 1) / num)).length := by
  have hnumq : (0 : ℚ) < num := by exact_mod_cast hnum
  have hdenq : (0 : ℚ) < den := by exact_mod_cast hnum.trans hlt
  have hpos : (0 : ℚ) < num / den := div_pos hnumq hdenq
  have hq : 0 < (den - 1) / num := Nat.div_pos (by omega) hnum
  have hlen := length_digits_pos ((den - 1) / num)
  have hlow := Nat.mul_le_of_le_div num _ _ (pow_length_digits_le hq)
  have hhigh := (Nat.div_lt_iff_lt_mul hnum).1 (lt_pow_length_digits ((den - 1) / num))
  generalize (digits ((den - 1) / num)).length = k at hlen hlow hhigh ⊢
  have hlow : (10 : ℚ) ^ (k - 1) * num < den := by
    have : 10 ^ (k - 1) * num < den := by omega
    exact_mod_cast this
  have hhigh : (den : ℚ) ≤ 10 ^ k * num := by
    have : den ≤ 10 ^ k * num := by omega
    exact_mod_cast this
  have h₁₀ : (0 : ℚ) < 10 ^ k := by positivity
  apply le_antisymm
  · rw [← Int.lt_add_one_iff, ← Int.lt_zpow_iff_log_lt (by norm_num) hpos]
    have hexp : (-(k : ℤ) + 1) = -((k - 1 : ℕ) : ℤ) := by omega
    rw [hexp, Nat.cast_ofNat, zpow_neg, zpow_natCast, div_lt_iff₀ hdenq, ← div_eq_inv_mul,
      lt_div_iff₀ (by positivity), mul_comm]
    exact hlow
  · rw [← Int.zpow_le_iff_le_log (by norm_num) hpos, Nat.cast_ofNat, zpow_neg, zpow_natCast,
      le_div_iff₀ hdenq, ← div_eq_inv_mul, div_le_iff₀ h₁₀, mul_comm]
    exact hhigh

end

/-- The exponent of the leading digit is the logarithm to base ten. -/
theorem leadingExponent_eq {v : Magnitude} (h : 0 < v.toRat) :
    leadingExponent v = Int.log 10 v.toRat := by
  have hdiv := v.scaled_div 0
  have hden := v.scaled_snd_pos 0
  rw [zpow_zero, mul_one] at hdiv
  rw [← hdiv] at h ⊢
  have hnum : 0 < (v.scaled 0).1 := by
    by_contra h₀
    rw [Nat.eq_zero_of_not_pos h₀, Nat.cast_zero, zero_div] at h
    exact lt_irrefl 0 h
  unfold leadingExponent
  simp only
  split_ifs with hle
  · exact (log_div_of_le hden hle).symm
  · exact (log_div_of_lt hnum (not_le.1 hle)).symm

end Decimal

end SparsePoly
