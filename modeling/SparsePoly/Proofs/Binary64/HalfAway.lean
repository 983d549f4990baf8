import Mathlib
import SparsePoly.Binary64
import SparsePoly.Proofs.Binary64.Conversion

/-!
# Rounding to integers

`nearestAway` is the integer nearest to a rational number, a half going away from zero.  It is odd
and keeps the order (`nearestAway_neg`, `nearestAway_mono`), and no other integer is nearer.  On
finite doubles `roundHalfAway` computes it without an error (`toRat_roundHalfAway`), and the
distance from a double to its nearest integer is a double as well (`rounded_nearestAway_sub`).
-/

open Float.Model
open Float.Model.UnpackedFloat (Sign)

namespace SparsePoly.Binary64

variable {q r : ℚ} {x : Float}

/-! ## The nearest integer -/

/-- The integer nearest to `q`, a half going away from zero. -/
def nearestAway (q : ℚ) : ℤ := if q < 0 then -round (-q) else round q

theorem nearestAway_of_nonneg (h : 0 ≤ q) : nearestAway q = round q := if_neg (not_lt.2 h)

theorem nearestAway_neg (q : ℚ) : nearestAway (-q) = -nearestAway q := by
  rcases lt_trichotomy q 0 with h | rfl | h
  · rw [nearestAway_of_nonneg (neg_nonneg.2 h.le), nearestAway, if_pos h, neg_neg]
  · simp [nearestAway]
  · rw [nearestAway, if_pos (neg_lt_zero.2 h), neg_neg, nearestAway_of_nonneg h.le]

@[simp] theorem nearestAway_intCast (n : ℤ) : nearestAway n = n := by
  unfold nearestAway
  split_ifs
  · rw [← Int.cast_neg, round_intCast, neg_neg]
  · exact round_intCast n

/-- No integer is nearer. -/
theorem abs_nearestAway_sub_le_abs (q : ℚ) (n : ℤ) : |(nearestAway q : ℚ) - q| ≤ |n - q| := by
  wlog hq : 0 ≤ q generalizing q n
  · have h := this (-q) (-n) (neg_nonneg.2 (not_le.1 hq).le)
    rw [nearestAway_neg, Int.cast_neg, Int.cast_neg, neg_sub_neg, neg_sub_neg] at h
    rwa [abs_sub_comm, abs_sub_comm (n : ℚ)]
  · rw [nearestAway_of_nonneg hq, abs_sub_comm, abs_sub_comm (n : ℚ)]
    exact round_le q n

theorem abs_nearestAway_sub_le (q : ℚ) : |(nearestAway q : ℚ) - q| ≤ 1 / 2 := by
  refine (abs_nearestAway_sub_le_abs q (round q)).trans ?_
  rw [abs_sub_comm]
  exact abs_sub_round q

theorem monotone_round : Monotone (round : ℚ → ℤ) := by
  intro q r h
  rw [round_eq, round_eq]
  exact Int.floor_mono (by linarith)

theorem nearestAway_nonneg (h : 0 ≤ q) : 0 ≤ nearestAway q := by
  rw [nearestAway_of_nonneg h, ← round_zero (α := ℚ)]
  exact monotone_round h

theorem nearestAway_mono : Monotone nearestAway := by
  intro q r h
  by_cases hq : 0 ≤ q
  · rw [nearestAway_of_nonneg hq, nearestAway_of_nonneg (hq.trans h)]
    exact monotone_round h
  by_cases hr : r < 0
  · rw [nearestAway, nearestAway, if_pos (not_le.1 hq), if_pos hr]
    exact neg_le_neg (monotone_round (neg_le_neg h))
  · have hneg : 0 ≤ -nearestAway q := by
      rw [← nearestAway_neg]
      exact nearestAway_nonneg (neg_nonneg.2 (not_le.1 hq).le)
    exact (Int.neg_nonneg.1 hneg).trans (nearestAway_nonneg (not_lt.1 hr))

/-- Adding half the divisor before a division rounds the quotient. -/
theorem round_natCast_div (m : ℕ) {half : ℕ} (h : 0 < half) :
    round ((m : ℚ) / (2 * half : ℕ)) = ((m + half) / (2 * half) : ℕ) := by
  have hsum : (m : ℚ) / (2 * half : ℕ) + 1 / 2 = (m + half : ℕ) / (2 * half : ℕ) := by
    have hhalf : (half : ℚ) ≠ 0 := by exact_mod_cast h.ne'
    push_cast
    field_simp
  rw [round_eq, hsum, Rat.floor_natCast_div_natCast]
  rfl

theorem nearestAway_signed (s : Sign) (h : 0 ≤ q) :
    (nearestAway (signed s q) : ℚ) = signed s (round q : ℤ) := by
  cases s with
  | negative => rw [signed, nearestAway_neg, nearestAway_of_nonneg h, Int.cast_neg, signed]
  | positive => rw [signed, nearestAway_of_nonneg h, signed]

/-! ## Doubles -/

theorem roundHalfAway_of_isFinite_eq_false (h : x.isFinite = false) : roundHalfAway x = x := by
  rw [isFinite_eq] at h
  unfold roundHalfAway
  cases hx : x.toModel.unpack with
  | finite s m e hp =>
    rw [hx] at h
    cases h
  | _ => rfl

theorem roundHalfAway_of_beq_zero (h : (x == 0.0) = true) : roundHalfAway x = x := by
  obtain ⟨s, hs⟩ := beq_zero_iff.1 h
  rw [roundHalfAway, hs]

theorem isFinite_withSign (negative : Bool) (x : Float) :
    (withSign negative x).isFinite = x.isFinite := by
  cases negative
  · rfl
  · exact isFinite_neg x

theorem toRat_withSign (s : Sign) (x : Float) :
    toRat (withSign (s == .negative) x) = signed s (toRat x) := by
  cases s
  · exact toRat_neg x
  · rfl

/-- A finite double is rounded to the nearest integer. -/
theorem toRat_roundHalfAway (hx : x.isFinite = true) :
    (roundHalfAway x).isFinite = true ∧ toRat (roundHalfAway x) = nearestAway (toRat x) := by
  cases hu : x.toModel.unpack with
  | notANumber | infinity s =>
    rw [isFinite_eq, hu] at hx
    cases hx
  | zero s =>
    have hzero : toRat x = (0 : ℤ) := by rw [toRat, hu, value_zero, Int.cast_zero]
    rw [roundHalfAway_of_beq_zero (beq_zero_iff.2 ⟨s, hu⟩), hzero, nearestAway_intCast]
    exact ⟨hx, rfl⟩
  | finite s m e hp =>
    have hvalue : toRat x = signed s (m * 2 ^ e) := by rw [toRat, hu, value_finite_eq]
    by_cases he : 0 ≤ e
    · have hint : toRat x = ((s.apply m * 2 ^ e.toNat : ℤ) : ℚ) := by
        push_cast
        rw [hvalue, signed_apply, ← signed_mul, ← zpow_natCast, Int.toNat_of_nonneg he]
      have hround : roundHalfAway x = x := by simp only [roundHalfAway, hu, if_pos he]
      rw [hround, hint, nearestAway_intCast]
      exact ⟨hx, rfl⟩
    · obtain ⟨k, rfl⟩ : ∃ k : ℕ, e = -(k + 1 : ℕ) := ⟨(-e - 1).toNat, by omega⟩
      have hunit : 1 <<< (-(-(k + 1 : ℕ) : ℤ)).toNat = 2 * 2 ^ k := by
        rw [neg_neg, Int.toNat_natCast, Nat.shiftLeft_eq, one_mul, pow_succ']
      have hround : roundHalfAway x =
          withSign (s == .negative) (Float.ofNat ((m + 2 ^ k) / (2 * 2 ^ k))) := by
        simp only [roundHalfAway, hu, if_neg he, hunit, Nat.mul_div_cancel_left _ two_pos]
      have hm := (isRounded_of_unpack hu).1.lt
      have hle : (m + 2 ^ k) / (2 * 2 ^ k) ≤ 2 ^ 53 := by
        refine (Nat.div_le_of_le_mul ?_).trans hm.le
        have hpow : 1 ≤ 2 ^ k := Nat.one_le_two_pow
        nlinarith
      obtain ⟨hf, hv⟩ := toRat_ofNat_of_le hle
      have hquotient : (m : ℚ) * 2 ^ (-(k + 1 : ℕ) : ℤ) = m / (2 * 2 ^ k : ℕ) := by
        rw [zpow_neg, zpow_natCast, ← div_eq_mul_inv, pow_succ']
        push_cast
        rfl
      rw [hround, isFinite_withSign, toRat_withSign, hv, hvalue, hquotient,
        nearestAway_signed s (by positivity), round_natCast_div m (by positivity), Int.cast_natCast]
      exact ⟨hf, rfl⟩

/-- The distance to the nearest integer is a double. -/
theorem rounded_nearestAway_sub (x : Float) :
    rounded (nearestAway (toRat x) - toRat x) = nearestAway (toRat x) - toRat x := by
  obtain ⟨n, t, hn, ht, hx⟩ := exists_toRat_eq_mul x
  by_cases htpos : 0 ≤ t
  · have hint : toRat x = ((n * 2 ^ t.toNat : ℤ) : ℚ) := by
      push_cast
      rw [hx, ← zpow_natCast, Int.toNat_of_nonneg htpos]
    rw [hint, nearestAway_intCast, sub_self, rounded_zero]
  · -- in units of the last place the distance is not larger than the mantissa
    obtain ⟨d, hd⟩ : ∃ d : ℤ, (nearestAway (toRat x) : ℚ) - toRat x = d * 2 ^ t := by
      refine ⟨nearestAway (toRat x) * 2 ^ (-t).toNat - n, ?_⟩
      push_cast
      rw [sub_mul, ← hx, mul_assoc, ← zpow_natCast, ← zpow_add₀ two_ne_zero,
        Int.toNat_of_nonneg (by omega), neg_add_cancel, zpow_zero, mul_one]
    have hunit : (0 : ℚ) < 2 ^ t := zpow_pos two_pos t
    have hle := abs_nearestAway_sub_le_abs (toRat x) 0
    rw [hd, Int.cast_zero, zero_sub, abs_neg, hx, abs_mul, abs_mul] at hle
    have hdn : |d| ≤ |n| := by exact_mod_cast le_of_mul_le_mul_right hle (abs_pos.2 hunit.ne')
    rw [hd]
    exact rounded_eq_self_of_lt (hdn.trans_lt hn) ht

end SparsePoly.Binary64
