import Mathlib
import SparsePoly.Proofs.Binary64.Agree
import SparsePoly.Proofs.Binary64.HalfAway
import SparsePoly.Proofs.Binary64.Overflow
import SparsePoly.SnapPolicy

/-!
# Doubles that are integers

`IsInt x n` says that the double `x` has the integral value `n`, of whatever size.  Sums and
products are exact as long as the result is at most `2 ^ 53` (`IsInt.add`, `IsInt.mul`), and no snap
policy changes an integer (`IsInt.snap`).
-/

open Float.Model Float.Model.UnpackedFloat

namespace SparsePoly.Binary64

/-- The double is finite and has the value `n`. -/
structure IsInt (x : Float) (n : ℤ) : Prop where
  finite : x.isFinite = true
  toRat_eq : toRat x = n

/-- The integral part of a double. -/
def toInt (x : Float) : ℤ := ⌊toRat x⌋

variable {x y : Float} {m n : ℤ}

theorem IsInt.toInt_eq (h : IsInt x n) : toInt x = n := by
  rw [toInt, h.toRat_eq, Int.floor_intCast]

theorem IsInt.unique (hm : IsInt x m) (hn : IsInt x n) : m = n := by
  rw [← hm.toInt_eq, hn.toInt_eq]

theorem IsInt.beq_zero (h : IsInt x n) : (x == 0.0) = true ↔ n = 0 := by
  rw [beq_zero_iff_toRat h.finite, h.toRat_eq, Int.cast_eq_zero]

theorem isInt_zero_of_beq (h : (x == 0.0) = true) : IsInt x 0 := by
  obtain ⟨s, hs⟩ := beq_zero_iff.1 h
  have hx : x.isFinite = true := by
    rw [isFinite_eq, hs]
    rfl
  exact ⟨hx, by simpa using (beq_zero_iff_toRat hx).1 h⟩

/-- An integer other than zero is the value of one double only. -/
theorem IsInt.eq (hx : IsInt x n) (hy : IsInt y n) (h₀ : n ≠ 0) : x = y :=
  eq_of_toRat_eq (hx.toRat_eq.trans hy.toRat_eq.symm) (by
    rw [hx.toRat_eq]
    exact_mod_cast h₀)

/-- The sign of a zero does not matter. -/
theorem Agree.isInt (h : Agree x y) (hy : IsInt y n) : IsInt x n := by
  rcases h with rfl | ⟨hx, hz⟩
  · exact hy
  · obtain rfl := hy.beq_zero.1 hz
    exact isInt_zero_of_beq hx

theorem IsInt.rounded (h : IsInt x n) : rounded n = n := by
  rw [← h.toRat_eq, rounded_toRat]

theorem IsInt.abs_lt (h : IsInt x n) : |Binary64.rounded (n : ℚ)| < 2 ^ (1024 : ℤ) := by
  rw [h.rounded, ← h.toRat_eq]
  exact abs_toRat_lt x

/-- Whether a double is a natural number can be computed. -/
theorem isInt_of_isNat {k : ℕ} (h : isNat k x.toModel.unpack = true) : IsInt x k := by
  obtain ⟨hf, hv⟩ := value_of_isNat h
  exact ⟨hf, by exact_mod_cast hv⟩

/-! ## Arithmetic -/

/-- The integral value of a double converts back to a double of that value. -/
theorem IsInt.ofInt (h : IsInt x n) : IsInt (Float.ofInt n) n := by
  obtain ⟨hf, hv⟩ := toRat_ofInt h.abs_lt
  exact ⟨hf, hv.trans h.rounded⟩

theorem IsInt.neg (h : IsInt x n) : IsInt (-x) (-n) := by
  refine ⟨by rw [isFinite_neg, h.finite], ?_⟩
  rw [toRat_neg, h.toRat_eq]
  push_cast
  rfl

theorem IsInt.add (hx : IsInt x m) (hy : IsInt y n) (h : |m + n| ≤ 2 ^ 53) :
    IsInt (x + y) (m + n) := by
  have hsum : toRat x + toRat y = ((m + n : ℤ) : ℚ) := by
    rw [hx.toRat_eq, hy.toRat_eq]
    push_cast
    rfl
  have hlt := abs_intCast_lt h
  rw [← hsum] at hlt
  obtain ⟨hf, hv⟩ := toRat_add hx.finite hy.finite hlt
  exact ⟨hf, by rw [hv, hsum, rounded_intCast h]⟩

theorem IsInt.sub (hx : IsInt x m) (hy : IsInt y n) (h : |m - n| ≤ 2 ^ 53) :
    IsInt (x - y) (m - n) := by
  rw [sub_eq_add_neg_float]
  rw [sub_eq_add_neg] at h ⊢
  exact hx.add hy.neg h

theorem IsInt.mul (hx : IsInt x m) (hy : IsInt y n) (h : |m * n| ≤ 2 ^ 53) :
    IsInt (x * y) (m * n) := by
  have hprod : toRat x * toRat y = ((m * n : ℤ) : ℚ) := by
    rw [hx.toRat_eq, hy.toRat_eq]
    push_cast
    rfl
  have hlt := abs_intCast_lt h
  rw [← hprod] at hlt
  obtain ⟨hf, hv⟩ := toRat_mul hx.finite hy.finite hlt
  exact ⟨hf, by rw [hv, hprod, rounded_intCast h]⟩

theorem abs_intCast_lt_two_zpow {k : ℕ} : |(n : ℚ)| < 2 ^ (k : ℤ) ↔ |n| < 2 ^ k := by
  rw [zpow_natCast, ← Int.cast_abs]
  exact_mod_cast Iff.rfl

/-- A product with a power of two is exact, unless it is out of range. -/
theorem IsInt.two_pow_mul {k : ℕ} (hx : IsInt x (2 ^ k)) (hy : IsInt y n) :
    (|2 ^ k * n| < 2 ^ 1024 → IsInt (x * y) (2 ^ k * n)) ∧
      (2 ^ 1024 ≤ |2 ^ k * n| → (x * y).isInf = true) := by
  obtain ⟨p, hp⟩ : ∃ p : ℤ, p = 2 ^ k * n := ⟨_, rfl⟩
  have hproduct : toRat x * toRat y = p := by
    rw [hx.toRat_eq, hy.toRat_eq, hp, Int.cast_mul]
  have hrounded : Binary64.rounded (p : ℚ) = p := by
    have h := rounded_toRat_mul_two_zpow y (Int.natCast_nonneg k)
    rw [hy.toRat_eq, zpow_natCast, mul_comm] at h
    rw [hp]
    exact_mod_cast h
  obtain ⟨hcanonical, hv⟩ := mul_spec (isFinite_iff.1 hx.finite) (isFinite_iff.1 hy.finite)
  have hvalue : value (UnpackedFloat.mul .binary64 x.toModel.unpack y.toModel.unpack) = p := by
    rw [hv, ← hrounded, ← hproduct]
    rfl
  rw [← hp, ← not_lt, ← abs_intCast_lt_two_zpow, ← hvalue]
  rcases isFinite_or_isInf (x := x * y) rfl hcanonical with ⟨hf, hlt⟩ | ⟨hinf, hle⟩
  · have hxy := (toRat_of_unpacked (x := x * y) rfl hcanonical hlt).2
    exact ⟨fun _ => ⟨hf, hxy.trans hvalue⟩, fun h => absurd hlt h⟩
  · exact ⟨fun h => absurd h (not_lt.2 hle), fun _ => hinf⟩

/-- A quotient of integers that is a double is exact. -/
theorem IsInt.div_of_rounded (hx : IsInt x (m * n)) (hy : IsInt y n) (h₀ : n ≠ 0)
    (hr : Binary64.rounded (m : ℚ) = m) (hlt : |(m : ℚ)| < 2 ^ (1024 : ℤ)) : IsInt (x / y) m := by
  have hn : (n : ℚ) ≠ 0 := by exact_mod_cast h₀
  have hquot : toRat x / toRat y = m := by
    rw [hx.toRat_eq, hy.toRat_eq, Int.cast_mul, mul_div_cancel_right₀ _ hn]
  obtain ⟨hf, hv⟩ := toRat_div hx.finite (by rwa [hy.toRat_eq]) (by rwa [hquot, hr])
  exact ⟨hf, by rw [hv, hquot, hr]⟩

/-- A quotient of integers without a remainder is exact. -/
theorem IsInt.div (hx : IsInt x (m * n)) (hy : IsInt y n) (h₀ : n ≠ 0) (h : |m| ≤ 2 ^ 53) :
    IsInt (x / y) m := by
  have hlt := abs_intCast_lt h
  rw [rounded_intCast h] at hlt
  exact hx.div_of_rounded hy h₀ (rounded_intCast h) hlt

/-- Division by `1` or `-1` is exact for every integer. -/
theorem IsInt.div_unit (hx : IsInt x m) (hy : IsInt y n) (h : IsUnit n) :
    IsInt (x / y) (m * n) := by
  have hx' : IsInt x (m * n * n) := by rwa [mul_assoc, Int.isUnit_mul_self h, mul_one]
  have hlt : |(m : ℚ)| < 2 ^ (1024 : ℤ) := by
    rw [← hx.toRat_eq]
    exact abs_toRat_lt x
  refine hx'.div_of_rounded hy h.ne_zero ?_ ?_
  · rcases Int.isUnit_iff.1 h with rfl | rfl
    · rw [mul_one]
      exact hx.rounded
    · rw [mul_neg_one]
      exact hx.neg.rounded
  · rcases Int.isUnit_iff.1 h with rfl | rfl <;> simpa using hlt

/-! ## Snapping -/

theorem isInt_roundHalfAway (hx : x.isFinite = true) :
    IsInt (roundHalfAway x) (nearestAway (toRat x)) :=
  ⟨(toRat_roundHalfAway hx).1, (toRat_roundHalfAway hx).2⟩

theorem IsInt.roundHalfAway (h : IsInt x n) : roundHalfAway x = x := by
  have hround := isInt_roundHalfAway h.finite
  rw [h.toRat_eq, nearestAway_intCast] at hround
  by_cases h₀ : n = 0
  · exact roundHalfAway_of_beq_zero (h.beq_zero.2 h₀)
  · exact hround.eq h h₀

/-- No snap policy changes an integer. -/
theorem IsInt.snap (h : IsInt x n) (policy : SnapPolicy) : policy.snap x = x := by
  unfold SnapPolicy.snap
  simp only [h.roundHalfAway, ite_self]

end SparsePoly.Binary64
