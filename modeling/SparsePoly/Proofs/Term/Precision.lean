import Mathlib
import SparsePoly.Proofs.Binary64.Integral
import SparsePoly.Proofs.Decimal.Significant
import SparsePoly.Proofs.Term.Logarithm

/-!
# The precision of a coefficient

A coefficient is written as a numeral with its sign, which is nearest to it among the numbers of
twelve significant digits (`coefficientText_nearest`).  Below `10 ^ 12` the numeral has twelve
digits itself.  From there on no digit in front of the point is left out: the nearest integer is
written in full, and it may have more.
-/

open SparsePoly.Binary64 SparsePoly.Decimal

namespace SparsePoly.Term

variable {x : Float}

theorem magnitude_abs (x : Float) : magnitude x.abs = magnitude x := by
  unfold magnitude
  rw [unpack_abs]
  cases x.toModel.unpack <;> rfl

/-- A negative coefficient is written as its size behind a minus sign. -/
theorem coefficientText_eq_of_ne (hf : x.isFinite = true) (hx : toRat x ≠ 0) : coefficientText x =
    if Binary64.isNegative x then '-' :: coefficientText x.abs else coefficientText x.abs := by
  have hz : (x == 0.0) = false := by
    rw [← Bool.not_eq_true, beq_zero_iff_toRat hf]
    exact hx
  have hsize : coefficientText x.abs = sizeText (magnitude x) := by
    rw [coefficientText_eq (by rwa [isFinite_abs]) (by rwa [toRat_abs, abs_pos]), magnitude_abs]
  rw [hsize]
  simp [coefficientText, hf, hz]

/-- The text of a coefficient is a numeral with a sign. -/
theorem exists_signedNumeral_coefficientText (hf : x.isFinite = true) (hx : toRat x ≠ 0) :
    ∃ n : SignedNumeral, coefficientText x = n.text ∧ coefficientText x.abs = n.size.text ∧
      (n.negative = true ↔ toRat x < 0) ∧ n.size.value = printed |toRat x| ∧ n.size.Trimmed := by
  obtain ⟨n, htext, hval, htrim⟩ := exists_numeral_coefficientText (x := x.abs)
    (by rwa [isFinite_abs]) (by rwa [toRat_abs, abs_pos])
  rw [toRat_abs] at hval
  refine ⟨⟨Binary64.isNegative x, n⟩, ?_, htext, isNegative_iff hx, hval, htrim⟩
  rw [coefficientText_eq_of_ne hf hx, htext, SignedNumeral.text]

section

variable {n : SignedNumeral} {v q : ℚ} {d : ℕ}

theorem hasDigits_value : HasDigits d n.value ↔ HasDigits d n.size.value := by
  unfold SignedNumeral.value
  split_ifs
  · exact hasDigits_neg
  · exact Iff.rfl

/-- What is nearest to the size is nearest with its sign. -/
theorem abs_value_sub_le (hv : v ≠ 0) (hneg : n.negative = true ↔ v < 0)
    (hval : n.size.value = printed |v|) (hq : HasDigits 12 q) : |n.value - v| ≤ |q - v| := by
  rw [SignedNumeral.value, hval]
  rcases lt_or_gt_of_ne hv with h | h
  · have hnear := abs_printed_sub_le (neg_pos.2 h) hq.neg
    rw [neg_sub_neg, abs_sub_comm v] at hnear
    rwa [if_pos (hneg.2 h), abs_of_neg h, ← abs_neg, neg_sub, sub_neg_eq_add, add_comm,
      ← sub_neg_eq_add]
  · rw [if_neg (mt hneg.1 h.not_gt), abs_of_pos h]
    exact abs_printed_sub_le h hq

/-- From `10 ^ 12` on the nearest integer is written. -/
theorem value_eq_nearestEven (hneg : n.negative = true ↔ v < 0)
    (hval : n.size.value = printed |v|) (hv : 10 ^ 12 ≤ |v|) : n.value = nearestEven v := by
  rw [SignedNumeral.value, hval, printed_of_le hv]
  rcases lt_or_ge v 0 with h | h
  · rw [if_pos (hneg.2 h), abs_of_neg h, nearestEven_neg, Int.cast_neg, neg_neg]
  · rw [if_neg (mt hneg.1 h.not_gt), abs_of_nonneg h]

end

/-- A finite coefficient other than zero is written as a numeral with its sign and without zeros at
the end of a fraction, whichever way its logarithm is rounded.  No number of twelve significant
digits is nearer to it.  Below `10 ^ 12` the numeral shows at most twelve digits; from there on it
is the nearest integer, and shows as many as that has. -/
theorem coefficientText_nearest (hf : x.isFinite = true) (hz : (x == 0.0) = false) :
    ∃ n : SignedNumeral, coefficientText x = n.text ∧ (n.negative = true ↔ x < 0.0) ∧
      n.size.Trimmed ∧
      (∀ l : ℝ, |l - Real.logb 10 (toRat x.abs)| ≤ 2 ^ (-44 : ℤ) →
        sizeTextFrom l (magnitude x) = n.size.text) ∧
      (∀ q, HasDigits 12 q → |n.value - toRat x| ≤ |q - toRat x|) ∧
      (n.size.significant ≤ 12 ↔ HasDigits 12 n.value) ∧
      (|toRat x| < 10 ^ 12 → HasDigits 12 n.value) ∧
      (10 ^ 12 ≤ |toRat x| → n.value = nearestEven (toRat x)) := by
  have hx := toRat_ne_zero hf hz
  obtain ⟨n, htext, hsize, hneg, hval, htrim⟩ := exists_signedNumeral_coefficientText hf hx
  refine ⟨n, htext, ?_, htrim, fun l hl => ?_, fun q => abs_value_sub_le hx hneg hval, ?_, ?_,
    value_eq_nearestEven hneg hval⟩
  · rw [hneg, lt_iff_toRat hf rfl]
    rfl
  · rw [← hsize, ← magnitude_abs]
    exact sizeTextFrom_eq_coefficientText (by rwa [isFinite_abs]) (by rwa [toRat_abs, abs_pos]) hl
  · rw [hasDigits_value, Numeral.significant_le_iff htrim]
  · intro hlt
    rw [hasDigits_value, hval]
    exact hasDigits_printed (abs_pos.2 hx) hlt

/-- A coefficient that is written with thirteen digits. -/
theorem coefficientText_nearest_thirteen :
    coefficientText 1234567890123.0 = "1234567890123".toList ∧
    ∃ n : SignedNumeral, coefficientText 1234567890123.0 = n.text ∧ n.value = 1234567890123 ∧
      ¬ n.size.significant ≤ 12 := by
  have hint : IsInt 1234567890123.0 (1234567890123 : ℕ) := isInt_of_isNat (by decide +kernel)
  have hsize : (10 : ℚ) ^ 12 ≤ |toRat 1234567890123.0| := by
    rw [hint.toRat_eq]
    norm_num
  obtain ⟨n, htext, -, -, -, -, hsignificant, -, hlarge⟩ :=
    coefficientText_nearest hint.finite (by decide +kernel)
  have hval : n.value = (1234567890123 : ℕ) := by
    rw [hlarge hsize, hint.toRat_eq, nearestEven_intCast, Int.cast_natCast]
  refine ⟨by decide +kernel, n, htext, by rw [hval, Nat.cast_ofNat], ?_⟩
  rw [hsignificant, hval, hasDigits_natCast (.inr (by norm_num))]
  norm_num

end SparsePoly.Term
