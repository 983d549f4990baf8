import Mathlib
import SparsePoly.Proofs.Binary64.Operations

/-!
# Results that are not finite

The sum of two finite doubles is finite if the rounded sum is below `2 ^ 1024`, and an infinity
otherwise (`isFinite_or_isInf_add`).  An infinity stays one whatever finite number is added to it
(`isInf_add_of_isInf`), so that finite numbers never add up to a NaN.  A product with a finite
number of at least one is not zero unless the other factor is (`mul_beq_zero_of_one_le`), even where
the other factor is an infinity or not a number.
-/

open Float.Model Float.Model.UnpackedFloat

namespace SparsePoly.Binary64

variable {x y : Float}

/-! ## Infinities -/

theorem isInf_iff : x.isInf = true ↔ ∃ s, x.toModel.unpack = .infinity s := by
  show x.toModel.unpack.isInf = true ↔ _
  cases x.toModel.unpack <;> simp [UnpackedFloat.isInf]

theorem isFinite_eq_false_of_isInf (h : x.isInf = true) : x.isFinite = false := by
  obtain ⟨s, hs⟩ := isInf_iff.1 h
  rw [isFinite_eq, hs]
  rfl

theorem isNaN_eq_false_of_isInf (h : x.isInf = true) : x.isNaN = false := by
  obtain ⟨s, hs⟩ := isInf_iff.1 h
  show x.toModel.unpack.isNaN = false
  rw [hs]
  rfl

theorem isNaN_eq_false_of_isFinite (h : x.isFinite = true) : x.isNaN = false := by
  show x.toModel.unpack.isNaN = false
  rw [isFinite_eq] at h
  cases hx : x.toModel.unpack with
  | notANumber =>
    rw [hx] at h
    cases h
  | _ => rfl

theorem beq_zero_eq_false_of_isInf (h : x.isInf = true) : (x == 0.0) = false := by
  rw [← Bool.not_eq_true, beq_zero_iff]
  rintro ⟨t, ht⟩
  obtain ⟨s, hs⟩ := isInf_iff.1 h
  rw [hs] at ht
  cases ht

/-! ## Packing a result that is out of range -/

theorem unpack_pack_of_le_abs {u : UnpackedFloat} (hu : IsCanonical u)
    (h : 2 ^ (1024 : ℤ) ≤ |value u|) : ∃ s, (Float.Model.pack u).unpack = .infinity s := by
  cases u with
  | finite s m e hp =>
    have he : 971 < e := by
      by_contra he
      rw [abs_value_finite] at h
      exact absurd (hu.mul_zpow_lt (not_lt.1 he)) (not_lt.2 h)
    refine ⟨s, ?_⟩
    show UnpackedFloat.unpack .binary64 (UnpackedFloat.pack .binary64 (.finite s m e hp)) = _
    rw [pack_finite, if_pos he]
    exact unpack_pack_infinity s
  | zero s =>
    rw [value_zero, abs_zero] at h
    exact absurd h (not_le.2 (zpow_pos two_pos _))
  | infinity s => exact hu.elim
  | notANumber => exact hu.elim

/-- A rounded result is finite if it is in range, and an infinity otherwise. -/
theorem isFinite_or_isInf {u : UnpackedFloat} (hx : x.toModel = .pack u) (hu : IsCanonical u) :
    x.isFinite = true ∧ |value u| < 2 ^ (1024 : ℤ) ∨
      x.isInf = true ∧ 2 ^ (1024 : ℤ) ≤ |value u| := by
  rcases lt_or_ge |value u| (2 ^ (1024 : ℤ)) with h | h
  · exact Or.inl ⟨(toRat_of_unpacked hx hu h).1, h⟩
  · refine Or.inr ⟨isInf_iff.2 ?_, h⟩
    rw [hx]
    exact unpack_pack_of_le_abs hu h

/-! ## Sums -/

theorem isFinite_or_isInf_add (hx : x.isFinite = true) (hy : y.isFinite = true) :
    (x + y).isFinite = true ∧ |rounded (toRat x + toRat y)| < 2 ^ (1024 : ℤ) ∨
      (x + y).isInf = true ∧ 2 ^ (1024 : ℤ) ≤ |rounded (toRat x + toRat y)| := by
  obtain ⟨hc, hv⟩ := add_spec (isFinite_iff.1 hx) (isFinite_iff.1 hy) (rounded_toRat x)
    (rounded_toRat y)
  unfold toRat
  rw [← hv]
  exact isFinite_or_isInf rfl hc

/-- An infinity stays one whatever finite number is added to it. -/
theorem isInf_add_of_isInf (hx : x.isInf = true) (hy : y.isFinite = true) :
    (x + y).isInf = true := by
  obtain ⟨s, hs⟩ := isInf_iff.1 hx
  refine isInf_iff.2 ⟨s, ?_⟩
  show (Float.Model.pack (.add .binary64 x.toModel.unpack y.toModel.unpack)).unpack = _
  rw [hs]
  rw [isFinite_eq] at hy
  cases hu : y.toModel.unpack with
  | zero t => exact unpack_pack_infinity s
  | finite t m e hp => exact unpack_pack_infinity s
  | infinity t =>
    rw [hu] at hy
    cases hy
  | notANumber =>
    rw [hu] at hy
    cases hy

/-! ## Products -/

/-- What is at least the smallest double does not round to zero. -/
theorem rounded_ne_zero {q : ℚ} (h : 2 ^ (-1074 : ℤ) ≤ |q|) : rounded q ≠ 0 := by
  intro h₀
  have hpos : (0 : ℚ) < |q| := (zpow_pos two_pos _).trans_le h
  have hquantum : (0 : ℚ) < 2 ^ quantum q := zpow_pos two_pos _
  have herror := abs_rounded_sub_le q
  rw [h₀, zero_sub, abs_neg] at herror
  rcases zpow_quantum_le (abs_pos.1 hpos) with hle | hq
  · have : (2 : ℚ) ^ quantum q ≤ 2 ^ (quantum q + 52) :=
      zpow_le_zpow_right₀ one_le_two (by omega)
    linarith
  · rw [hq] at herror hquantum
    linarith

theorem le_abs_toRat (h : toRat x ≠ 0) : 2 ^ (-1074 : ℤ) ≤ |toRat x| := by
  obtain ⟨s, m, e, hm, hu⟩ := unpack_of_toRat_ne_zero h
  have he : -1074 ≤ e := (isRounded_of_unpack hu).1.le
  unfold toRat
  rw [hu, abs_value_finite]
  calc (2 : ℚ) ^ (-1074 : ℤ) ≤ 2 ^ e := zpow_le_zpow_right₀ one_le_two he
    _ ≤ m * 2 ^ e := le_mul_of_one_le_left (zpow_pos two_pos e).le (by exact_mod_cast hm)

/-- The product of finite numbers is zero if the exact product is. -/
theorem mul_beq_zero (hx : x.isFinite = true) (hy : y.isFinite = true)
    (h : toRat x * toRat y = 0) : (x * y == 0.0) = true := by
  have hlt : |rounded (toRat x * toRat y)| < 2 ^ (1024 : ℤ) := by
    rw [h, rounded_zero, abs_zero]
    exact zpow_pos two_pos _
  obtain ⟨hf, hv⟩ := toRat_mul hx hy hlt
  rw [beq_zero_iff_toRat hf, hv, h, rounded_zero]

/-- A product that is at least the smallest double is not zero. -/
theorem mul_beq_zero_of_le (hx : x.isFinite = true) (hy : y.isFinite = true)
    (h : 2 ^ (-1074 : ℤ) ≤ |toRat x * toRat y|) : (x * y == 0.0) = false := by
  obtain ⟨hc, hv⟩ := mul_spec (isFinite_iff.1 hx) (isFinite_iff.1 hy)
  rcases isFinite_or_isInf (x := x * y) rfl hc with ⟨hf, hlt⟩ | ⟨hi, -⟩
  · obtain ⟨-, hvalue⟩ := toRat_of_unpacked (x := x * y) rfl hc hlt
    rw [← Bool.not_eq_true, beq_zero_iff_toRat hf, hvalue, hv]
    exact rounded_ne_zero h
  · exact beq_zero_eq_false_of_isInf hi

theorem mul_beq_zero_of_isFinite (hx : x.isFinite = true) (hy : y.isFinite = true)
    (hz : (x == 0.0) = false) (h : 1 ≤ |toRat y|) : (x * y == 0.0) = false := by
  refine mul_beq_zero_of_le hx hy ?_
  rw [abs_mul]
  exact (le_abs_toRat (toRat_ne_zero hx hz)).trans (le_mul_of_one_le_right (abs_nonneg _) h)

/-- A product with a finite number of at least one is zero only if the other factor is. -/
theorem mul_beq_zero_of_one_le (hz : (x == 0.0) = false) (hy : y.isFinite = true)
    (h : 1 ≤ |toRat y|) : (x * y == 0.0) = false := by
  cases hx : x.isFinite with
  | true => exact mul_beq_zero_of_isFinite hx hy hz h
  | false =>
    have hy₀ : toRat y ≠ 0 := abs_pos.1 (zero_lt_one.trans_le h)
    obtain ⟨t, m, e, hm, hyu⟩ := unpack_of_toRat_ne_zero hy₀
    rw [isFinite_eq] at hx
    rw [← Bool.not_eq_true, beq_zero_iff, unpack_mul, hyu]
    rintro ⟨s, hs⟩
    cases hxu : x.toModel.unpack with
    | notANumber =>
      rw [hxu] at hs
      exact absurd hs (by simp [UnpackedFloat.mul])
    | infinity u =>
      rw [hxu] at hs
      exact absurd hs (by simp [UnpackedFloat.mul])
    | zero u =>
      rw [hxu] at hx
      cases hx
    | finite u n d hn =>
      rw [hxu] at hx
      cases hx

end SparsePoly.Binary64
