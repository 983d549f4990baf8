import Mathlib
import SparsePoly.Proofs.Binary64.Packing

/-!
# The rational value of a double

`toRat x` is the exact value of a finite double.  Comparisons and the operations on signs are stated
on it (`lt_iff_toRat`, `beq_iff_toRat`, `toRat_neg`, `toRat_abs`), and a finite double other than a
zero is determined by its value (`eq_of_toRat_eq`).
-/

open Float.Model Float.Model.UnpackedFloat

namespace SparsePoly.Binary64

/-! ## Unpacked doubles -/

/-- The exact value of an unpacked double; zero if it is not finite. -/
def value : UnpackedFloat → ℚ
  | .finite s m e _ => s.apply m * 2 ^ e
  | _ => 0

@[simp] theorem value_zero (s : Sign) : value (.zero s) = 0 := rfl

@[simp] theorem value_infinity (s : Sign) : value (.infinity s) = 0 := rfl

@[simp] theorem value_notANumber : value .notANumber = 0 := rfl

@[simp] theorem value_finite (s : Sign) (m : ℕ) (e : ℤ) (hp : 0 < m) :
    value (.finite s m e hp) = s.apply m * 2 ^ e := rfl

theorem value_neg (u : UnpackedFloat) : value u.neg = -value u := by
  cases u with
  | finite s m e hp =>
    cases s
    · show ((m : ℤ) : ℚ) * 2 ^ e = -(((-(m : ℤ) : ℤ) : ℚ) * 2 ^ e)
      push_cast
      ring
    · show ((-(m : ℤ) : ℤ) : ℚ) * 2 ^ e = -(((m : ℤ) : ℚ) * 2 ^ e)
      push_cast
      ring
  | _ => simp [UnpackedFloat.neg]

theorem abs_apply (s : Sign) (m : ℕ) : |((s.apply m : ℤ) : ℚ)| = m := by
  cases s <;> simp [Sign.apply]

theorem abs_value_finite (s : Sign) (m : ℕ) (e : ℤ) (hp : 0 < m) :
    |value (.finite s m e hp)| = m * 2 ^ e := by
  rw [value_finite, abs_mul, abs_apply, abs_of_pos (zpow_pos two_pos e)]

/-- The larger exponent of two rounded pairs belongs to the larger number. -/
theorem mul_zpow_lt_of_exponent_lt {m n : ℕ} {d e : ℤ} (hm : IsRounded m d) (hn : IsRounded n e)
    (h : d < e) : (m : ℚ) * 2 ^ d < n * 2 ^ e := by
  have hn : 2 ^ 52 ≤ n := hn.normal.resolve_right (by have := hm.le; omega)
  calc (m : ℚ) * 2 ^ d < 2 ^ 53 * 2 ^ d :=
        mul_lt_mul_of_pos_right (by exact_mod_cast hm.lt) (zpow_pos two_pos d)
    _ = 2 ^ 52 * 2 ^ (d + 1) := by rw [zpow_add_one₀ two_ne_zero]; ring
    _ ≤ 2 ^ 52 * 2 ^ e :=
        mul_le_mul_of_nonneg_left (zpow_le_zpow_right₀ one_le_two h) (by positivity)
    _ ≤ n * 2 ^ e := mul_le_mul_of_nonneg_right (by exact_mod_cast hn) (zpow_pos two_pos e).le

/-- Rounded pairs are compared by their exponents first. -/
theorem compare_mul_zpow {m n : ℕ} {d e : ℤ} (hm : IsRounded m d) (hn : IsRounded n e) :
    (compare d e).then (compare m n) = compare ((m : ℚ) * 2 ^ d) (n * 2 ^ e) := by
  rcases lt_trichotomy d e with h | rfl | h
  · rw [compare_lt_iff_lt.2 h, compare_lt_iff_lt.2 (mul_zpow_lt_of_exponent_lt hm hn h)]
    rfl
  · have h₂ : (0 : ℚ) < 2 ^ d := zpow_pos two_pos d
    rw [compare_eq_iff_eq.2 rfl]
    show compare m n = _
    rcases lt_trichotomy m n with h | rfl | h
    · rw [compare_lt_iff_lt.2 h, compare_lt_iff_lt.2]
      exact mul_lt_mul_of_pos_right (by exact_mod_cast h) h₂
    · rw [compare_eq_iff_eq.2 rfl, compare_eq_iff_eq.2 rfl]
    · rw [compare_gt_iff_gt.2 h, compare_gt_iff_gt.2]
      exact mul_lt_mul_of_pos_right (by exact_mod_cast h) h₂
  · rw [compare_gt_iff_gt.2 h, compare_gt_iff_gt.2 (mul_zpow_lt_of_exponent_lt hn hm h)]
    rfl

theorem compare_neg_neg (a b : ℚ) : compare (-a) (-b) = (compare a b).swap := by
  rcases lt_trichotomy a b with h | rfl | h
  · rw [compare_lt_iff_lt.2 h, compare_gt_iff_gt.2 (neg_lt_neg h)]
    rfl
  · rw [compare_eq_iff_eq.2 rfl, compare_eq_iff_eq.2 rfl]
    rfl
  · rw [compare_gt_iff_gt.2 h, compare_lt_iff_lt.2 (neg_lt_neg h)]
    rfl

/-- Finite, and rounded unless it is a zero. -/
def IsCanonical : UnpackedFloat → Prop
  | .finite _ m e _ => IsRounded m e
  | .zero _ => True
  | _ => False

theorem compare_eq_of_isCanonical {u v : UnpackedFloat} (hu : IsCanonical u) (hv : IsCanonical v) :
    u.compare v = some (compare (value u) (value v)) := by
  have pos {m : ℕ} {e : ℤ} (hp : 0 < m) : (0 : ℚ) < m * 2 ^ e :=
    mul_pos (by exact_mod_cast hp) (zpow_pos two_pos e)
  cases u with
  | infinity s => exact hu.elim
  | notANumber => exact hu.elim
  | zero s =>
    cases v with
    | infinity t => exact hv.elim
    | notANumber => exact hv.elim
    | zero t => rfl
    | finite t n d hn =>
      have := pos (e := d) hn
      cases t <;> simp only [value_zero, value_finite, Sign.apply, UnpackedFloat.compare] <;>
        push_cast <;> symm <;> congr 1
      · exact compare_gt_iff_gt.2 (by linarith)
      · exact compare_lt_iff_lt.2 this
  | finite s m e hm =>
    have hmp := pos (e := e) hm
    cases v with
    | infinity t => exact hv.elim
    | notANumber => exact hv.elim
    | zero t =>
      cases s <;> simp only [value_zero, value_finite, Sign.apply, UnpackedFloat.compare] <;>
        push_cast <;> symm <;> congr 1
      · exact compare_lt_iff_lt.2 (by linarith)
      · exact compare_gt_iff_gt.2 hmp
    | finite t n d hn =>
      have hnp := pos (e := d) hn
      cases s <;> cases t <;> simp only [value_finite, Sign.apply, UnpackedFloat.compare]
      · rw [compare_mul_zpow hu hv]
        push_cast
        rw [neg_mul, neg_mul, compare_neg_neg]
      · push_cast
        exact congrArg some (compare_lt_iff_lt.2 (by linarith)).symm
      · push_cast
        exact congrArg some (compare_gt_iff_gt.2 (by linarith)).symm
      · rw [compare_mul_zpow hu hv]
        push_cast
        rfl

/-! ## Doubles -/

/-- The exact value of a finite double; zero if it is not finite. -/
def toRat (x : Float) : ℚ := value x.toModel.unpack

theorem isFinite_eq (x : Float) : x.isFinite = x.toModel.unpack.isFinite := rfl

theorem isFinite_iff {x : Float} : x.isFinite = true ↔ IsCanonical x.toModel.unpack := by
  rw [isFinite_eq]
  cases h : x.toModel.unpack with
  | finite s m e hp => exact iff_of_true rfl (isRounded_of_unpack h).1
  | _ => simp [UnpackedFloat.isFinite, IsCanonical]

theorem lt_iff_toRat {x y : Float} (hx : x.isFinite = true) (hy : y.isFinite = true) :
    x < y ↔ toRat x < toRat y := by
  have h : x < y ↔ (x.toModel.unpack.compare y.toModel.unpack == some .lt) = true := by
    show decide ((x.toModel.unpack.compare y.toModel.unpack == some .lt) = true) = true ↔ _
    exact decide_eq_true_iff
  rw [h, compare_eq_of_isCanonical (isFinite_iff.1 hx) (isFinite_iff.1 hy)]
  simp [toRat, compare_lt_iff_lt]

theorem beq_iff_toRat {x y : Float} (hx : x.isFinite = true) (hy : y.isFinite = true) :
    (x == y) = true ↔ toRat x = toRat y := by
  show (x.toModel.unpack.compare y.toModel.unpack == some .eq) = true ↔ _
  rw [compare_eq_of_isCanonical (isFinite_iff.1 hx) (isFinite_iff.1 hy)]
  simp [toRat]

/-! ## Zeros -/

theorem beq_zero_iff {x : Float} : (x == 0.0) = true ↔ ∃ s, x.toModel.unpack = .zero s := by
  show (x.toModel.unpack.compare (.zero .positive) == some .eq) = true ↔ _
  cases x.toModel.unpack with
  | notANumber => simp [UnpackedFloat.compare]
  | infinity s => cases s <;> simp [UnpackedFloat.compare]
  | zero s => simp [UnpackedFloat.compare]
  | finite s m e hp => cases s <;> simp [UnpackedFloat.compare]

theorem beq_zero_iff_toRat {x : Float} (hx : x.isFinite = true) :
    (x == 0.0) = true ↔ toRat x = 0 :=
  beq_iff_toRat hx rfl

theorem toRat_ne_zero {x : Float} (hx : x.isFinite = true) (h : (x == 0.0) = false) :
    toRat x ≠ 0 := by
  intro h'
  rw [(beq_zero_iff_toRat hx).2 h'] at h
  cases h

/-- The mantissa and exponent of a finite double that is not a zero. -/
theorem unpack_of_toRat_ne_zero {x : Float} (h : toRat x ≠ 0) :
    ∃ s m e, ∃ hp : 0 < m, x.toModel.unpack = .finite s m e hp := by
  cases hx : x.toModel.unpack with
  | finite s m e hp => exact ⟨s, m, e, hp, rfl⟩
  | _ =>
    unfold toRat at h
    rw [hx] at h
    exact absurd rfl h

/-! ## Signs -/

theorem unpack_neg (x : Float) : (-x).toModel.unpack = x.toModel.unpack.neg := by
  show (Float.Model.pack x.toModel.unpack.neg).unpack = _
  cases h : x.toModel.unpack with
  | finite s m e hp =>
    obtain ⟨hr, he⟩ := isRounded_of_unpack h
    exact unpack_pack_of_le hr he
  | _ => simp [UnpackedFloat.neg]

theorem unpack_add (x y : Float) : (x + y).toModel.unpack =
    (Float.Model.pack (.add .binary64 x.toModel.unpack y.toModel.unpack)).unpack := rfl

theorem unpack_mul (x y : Float) : (x * y).toModel.unpack =
    (Float.Model.pack (.mul .binary64 x.toModel.unpack y.toModel.unpack)).unpack := rfl

theorem unpack_div (x y : Float) : (x / y).toModel.unpack =
    (Float.Model.pack (.div .binary64 x.toModel.unpack y.toModel.unpack)).unpack := rfl

theorem neg_beq_zero (x : Float) : (-x == 0.0) = (x == 0.0) := by
  rw [Bool.eq_iff_iff, beq_zero_iff, beq_zero_iff, unpack_neg]
  cases x.toModel.unpack <;> simp [UnpackedFloat.neg]

theorem unpack_abs (x : Float) : x.abs.toModel.unpack = x.toModel.unpack.abs := by
  show (Float.Model.pack x.toModel.unpack.abs).unpack = _
  cases h : x.toModel.unpack with
  | finite s m e hp =>
    obtain ⟨hr, he⟩ := isRounded_of_unpack h
    exact unpack_pack_of_le hr he
  | _ => simp [UnpackedFloat.abs]

@[simp] theorem toRat_neg (x : Float) : toRat (-x) = -toRat x := by
  unfold toRat
  rw [unpack_neg, value_neg]

@[simp] theorem toRat_abs (x : Float) : toRat x.abs = |toRat x| := by
  unfold toRat
  rw [unpack_abs]
  cases x.toModel.unpack with
  | finite s m e hp =>
    rw [abs_value_finite]
    rfl
  | _ => simp [UnpackedFloat.abs]

@[simp] theorem isFinite_neg (x : Float) : (-x).isFinite = x.isFinite := by
  rw [isFinite_eq, isFinite_eq, unpack_neg]
  cases x.toModel.unpack <;> rfl

@[simp] theorem isFinite_abs (x : Float) : x.abs.isFinite = x.isFinite := by
  rw [isFinite_eq, isFinite_eq, unpack_abs]
  cases x.toModel.unpack <;> rfl

/-! ## A double by its value -/

theorem toRat_pos_iff {x : Float} {s : Sign} {m : ℕ} {e : ℤ} {hp : 0 < m}
    (h : x.toModel.unpack = .finite s m e hp) : 0 < toRat x ↔ s = .positive := by
  have : (0 : ℚ) < m * 2 ^ e := mul_pos (by exact_mod_cast hp) (zpow_pos two_pos e)
  unfold toRat
  rw [h, value_finite]
  cases s
  · simp only [Sign.apply, reduceCtorEq, iff_false, not_lt]
    push_cast
    linarith
  · simpa [Sign.apply] using this

/-- Rounded pairs of the same value are equal. -/
theorem eq_of_mul_zpow_eq {m n : ℕ} {d e : ℤ} (hm : IsRounded m d) (hn : IsRounded n e)
    (h : (m : ℚ) * 2 ^ d = n * 2 ^ e) : m = n ∧ d = e := by
  have hde : d = e := by
    rcases lt_trichotomy d e with hlt | heq | hlt
    · exact absurd h (mul_zpow_lt_of_exponent_lt hm hn hlt).ne
    · exact heq
    · exact absurd h (mul_zpow_lt_of_exponent_lt hn hm hlt).ne'
  subst hde
  have : (m : ℚ) = n := mul_right_cancel₀ (zpow_pos two_pos d).ne' h
  exact ⟨by exact_mod_cast this, rfl⟩

/-- A value other than zero is the value of one double only. -/
theorem eq_of_toRat_eq {x y : Float} (h : toRat x = toRat y) (h₀ : toRat x ≠ 0) : x = y := by
  obtain ⟨s, m, d, hm, hx⟩ := unpack_of_toRat_ne_zero h₀
  obtain ⟨t, n, e, hn, hy⟩ := unpack_of_toRat_ne_zero (h ▸ h₀)
  have hst : s = t := by
    have h₁ := toRat_pos_iff hx
    have h₂ := toRat_pos_iff hy
    rw [h] at h₁
    cases s <;> cases t <;> simp_all
  have habs : (m : ℚ) * 2 ^ d = n * 2 ^ e := by
    have := congrArg (fun q : ℚ => |q|) h
    simp only [toRat] at this
    rwa [hx, hy, abs_value_finite, abs_value_finite] at this
  obtain ⟨rfl, rfl⟩ := eq_of_mul_zpow_eq (isRounded_of_unpack hx).1 (isRounded_of_unpack hy).1 habs
  apply eq_of_unpack_eq
  rw [hx, hy, hst]

/-! ## A double by its size and sign -/

section

variable {x : Float}

theorem isNegative_iff (h : toRat x ≠ 0) : isNegative x = true ↔ toRat x < 0 := by
  obtain ⟨s, m, e, hp, hu⟩ := unpack_of_toRat_ne_zero h
  have hpos := toRat_pos_iff hu
  rw [isNegative, hu]
  cases s with
  | negative =>
    have : ¬ 0 < toRat x := fun hlt => by cases hpos.1 hlt
    exact iff_of_true rfl (lt_of_le_of_ne (not_lt.1 this) h)
  | positive => exact iff_of_false (fun hc => by cases hc) (hpos.2 rfl).not_gt

theorem abs_toRat_withSign (negative : Bool) (x : Float) :
    |toRat (withSign negative x)| = |toRat x| := by
  cases negative
  · rfl
  · show |toRat (-x)| = _
    rw [toRat_neg, abs_neg]

theorem abs_withSign (negative : Bool) (h : 0 < toRat x) : (withSign negative x).abs = x := by
  apply eq_of_toRat_eq
  · rw [toRat_abs, abs_toRat_withSign, abs_of_pos h]
  · rw [toRat_abs, abs_toRat_withSign, abs_of_pos h]
    exact h.ne'

theorem isNegative_withSign (negative : Bool) (h : 0 < toRat x) :
    isNegative (withSign negative x) = negative := by
  cases negative
  · rw [← Bool.not_eq_true]
    exact (isNegative_iff h.ne').not.2 h.not_gt
  · have hneg : toRat (-x) < 0 := by rwa [toRat_neg, neg_lt_zero]
    exact (isNegative_iff hneg.ne).2 hneg

/-- Every double is its size with its sign. -/
theorem withSign_abs (x : Float) : withSign (isNegative x) x.abs = x := by
  apply eq_of_unpack_eq
  unfold withSign isNegative
  cases hx : x.toModel.unpack with
  | notANumber =>
    show x.abs.toModel.unpack = _
    rw [unpack_abs, hx]
    rfl
  | infinity s | zero s | finite s m e hp =>
    cases s
    · show (-x.abs).toModel.unpack = _
      rw [unpack_neg, unpack_abs, hx]
      rfl
    · show x.abs.toModel.unpack = _
      rw [unpack_abs, hx]
      rfl

end

end SparsePoly.Binary64
