import Mathlib
import SparsePoly.Poly.Text
import SparsePoly.Proofs.Decimal.Numeral
import SparsePoly.Proofs.Decimal.Reprint

/-!
# The text of a coefficient

A positive coefficient is written as `printed` of its value (`exists_numeral_coefficientText`), and
that is read back as the nearest double (`exists_readBack`).  What is read back is written in the
same way, except for the one coefficient that slips below a power of ten
(`coefficientText_readBack_iff`).
-/

open SparsePoly.Binary64 SparsePoly.Decimal

namespace SparsePoly.Term

variable {x y : Float}

theorem toRat_magnitude (x : Float) : (magnitude x).toRat = |toRat x| := by
  unfold magnitude toRat
  cases x.toModel.unpack with
  | finite s m e hp =>
    rw [abs_value_finite]
    rfl
  | _ => simp [Magnitude.toRat]

theorem decimalPlaces_eq (hx : 0 < toRat x) :
    decimalPlaces (magnitude x) = printedPlaces (toRat x) := by
  have hv : (magnitude x).toRat = toRat x := by rw [toRat_magnitude, abs_of_pos hx]
  rw [decimalPlaces, leadingExponent_eq (by rwa [hv]), hv, printedPlaces, significantDigits]
  congr 1

/-- The digits that are written are those of `printed`. -/
theorem nearest_magnitude (hx : 0 < toRat x) :
    (nearest (magnitude x) (decimalPlaces (magnitude x)) : ℚ) / 10 ^ decimalPlaces (magnitude x) =
      printed (toRat x) := by
  have h := nearest_eq (magnitude x) (decimalPlaces (magnitude x))
  rw [toRat_magnitude, abs_of_pos hx, zpow_natCast] at h
  rw [printed, ← decimalPlaces_eq hx, ← h, Int.cast_natCast]

/-- The text is determined by the number that is written. -/
theorem trimmed_congr {m n j k : ℕ} (h : (m : ℚ) / 10 ^ j = n / 10 ^ k) :
    trimmed m j = trimmed n k := by
  have zeros (m j : ℕ) : ∀ d, trimmed (10 ^ d * m) (j + d) = trimmed m j := by
    intro d
    induction d with
    | zero => simp
    | succ d ih => rw [pow_succ', mul_assoc, ← add_assoc, trimmed_mul_ten, ih]
  have scale {m n j k : ℕ} (hjk : j ≤ k) (h : (m : ℚ) / 10 ^ j = n / 10 ^ k) :
      trimmed m j = trimmed n k := by
    obtain ⟨d, rfl⟩ := Nat.exists_eq_add_of_le hjk
    have hn : (n : ℚ) = 10 ^ d * m := by
      rw [pow_add] at h
      field_simp at h
      linarith
    have hn : n = 10 ^ d * m := by exact_mod_cast hn
    rw [hn, zeros]
  rcases le_total j k with hjk | hjk
  · exact scale hjk h
  · exact (scale hjk h.symm).symm

theorem sizeText_congr (hx : 0 < toRat x) (hy : 0 < toRat y)
    (h : printed (toRat x) = printed (toRat y)) :
    sizeText (magnitude x) = sizeText (magnitude y) :=
  trimmed_congr (by rw [nearest_magnitude hx, nearest_magnitude hy, h])

theorem coefficientText_eq (hf : x.isFinite = true) (hx : 0 < toRat x) :
    coefficientText x = sizeText (magnitude x) := by
  have hz : (x == 0.0) = false := by
    rw [← Bool.not_eq_true, beq_zero_iff_toRat hf]
    exact hx.ne'
  have hn : Binary64.isNegative x = false := by
    rw [← Bool.not_eq_true]
    exact (isNegative_iff hx.ne').not.2 hx.not_gt
  simp [coefficientText, hf, hz, hn]

/-- The text of a positive coefficient is a numeral. -/
theorem exists_numeral_coefficientText (hf : x.isFinite = true) (hx : 0 < toRat x) :
    ∃ n : Numeral, coefficientText x = n.text ∧ n.value = printed (toRat x) ∧ n.Trimmed := by
  obtain ⟨n, htext, hval, htrim⟩ := exists_numeral_trimmed
    (nearest (magnitude x) (decimalPlaces (magnitude x))) (decimalPlaces (magnitude x))
  refine ⟨n, (coefficientText_eq hf hx).trans htext, ?_, htrim⟩
  rw [hval, zpow_neg, zpow_natCast, ← div_eq_mul_inv, nearest_magnitude hx]

/-! ## Reading back -/

/-- The text of a positive coefficient is a numeral, and it is read as the double nearest to the
number that it writes. -/
theorem exists_readBack (hf : x.isFinite = true) (hx : 0 < toRat x) :
    ∃ (r : Float) (n : Numeral), readFinite? (coefficientText x) = some r ∧
      coefficientText x = n.text ∧ r.isFinite = true ∧ toRat r = rounded (printed (toRat x)) ∧
      0 < toRat r := by
  obtain ⟨n, htext, hval, -⟩ := exists_numeral_coefficientText hf hx
  have hlt := abs_lt.1 (abs_toRat_lt x)
  obtain ⟨hr₀, hr₁⟩ := rounded_printed_bounds (rounded_toRat x) hx hlt.2
  obtain ⟨r, hread, -, hr⟩ := n.exists_readFinite (by rwa [hval, abs_of_pos hr₀])
  have hrv := hr.toRat_eq
  rw [hval] at hrv
  exact ⟨r, n, by rw [htext, hread], htext, hr.finite, hrv, by rwa [hrv]⟩

/-- What is read back is written in the same way. -/
theorem coefficientText_readBack (hf : x.isFinite = true) (hx : 0 < toRat x)
    (hslip : toRat x ≠ slip) (hyf : y.isFinite = true)
    (hy : toRat y = rounded (printed (toRat x))) : coefficientText y = coefficientText x := by
  have hlt := abs_lt.1 (abs_toRat_lt x)
  have hypos : 0 < toRat y := by
    rw [hy]
    exact (rounded_printed_bounds (rounded_toRat x) hx hlt.2).1
  rw [coefficientText_eq hf hx, coefficientText_eq hyf hypos]
  refine sizeText_congr hypos hx ?_
  rw [hy]
  exact printed_rounded (rounded_toRat x) hx hslip

/-! ## The exception -/

/-- The coefficient that is read back as a double with another text: it is written as `10 ^ (-312)`,
and the double nearest to that number lies below it. -/
def slipping : Float := 1.000000000003e-312

theorem slip_pos : 0 < slip := mul_pos (by norm_num) (zpow_pos two_pos _)

theorem toRat_slipping : toRat slipping = slip := by
  have hmag : magnitude slipping = ⟨202402253308, -1074⟩ := by decide +kernel
  have hsign : Binary64.isNegative slipping = false := by decide +kernel
  have habs : |toRat slipping| = slip := by
    rw [← toRat_magnitude, hmag, Magnitude.toRat, slip, Nat.cast_ofNat]
  have hne : toRat slipping ≠ 0 := by
    rw [← abs_pos, habs]
    exact slip_pos
  rw [← Bool.not_eq_true, isNegative_iff hne, not_lt] at hsign
  rwa [abs_of_nonneg hsign] at habs

theorem coefficientText_slipping (hy : readFinite? (coefficientText slipping) = some y) :
    coefficientText y ≠ coefficientText slipping := by
  have h : ∀ z ∈ readFinite? (coefficientText slipping),
      coefficientText z ≠ coefficientText slipping := by decide +kernel
  exact h y hy

/-- What is read back from the text of a coefficient is written in the same way, unless it is the
exception. -/
theorem coefficientText_readBack_iff (hf : x.isFinite = true) (hx : 0 < toRat x)
    (hy : readFinite? (coefficientText x) = some y) :
    coefficientText y = coefficientText x ↔ x ≠ slipping := by
  constructor
  · rintro h rfl
    exact coefficientText_slipping hy h
  · intro hne
    obtain ⟨r, -, hr, -, hrf, hrv, -⟩ := exists_readBack hf hx
    obtain rfl : r = y := by simpa [hr] using hy
    refine coefficientText_readBack hf hx (fun hslip => hne ?_) hrf hrv
    exact eq_of_toRat_eq (hslip.trans toRat_slipping.symm) hx.ne'

end SparsePoly.Term
