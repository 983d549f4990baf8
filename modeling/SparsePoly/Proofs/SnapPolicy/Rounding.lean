import Mathlib
import SparsePoly.Proofs.Binary64.Integral
import SparsePoly.Proofs.Binary64.Status

/-!
# Snapping as a rounding

The distance of a double to its nearest integer is computed without an error, so that snapping a
finite double is snapping its value (`SnapPolicy.toRat_snap`).  `snapped` keeps the order whatever
the distance of the policy is, because what is not snapped is that far from every integer
(`snapped_mono`).  An integer stays, and so snapping twice is snapping once.
-/

namespace SparsePoly

open Binary64

/-! ## Snapping numbers -/

section Numbers

variable {ε q : ℚ}

/-- The nearest integer if it is closer than `ε`, else the number itself. -/
def snapped (ε q : ℚ) : ℚ := if |(nearestAway q : ℚ) - q| < ε then nearestAway q else q

/-- What is not snapped is not near any integer. -/
theorem le_abs_sub_of_not_snapped (h : ¬ |(nearestAway q : ℚ) - q| < ε) (n : ℤ) :
    ε ≤ |(n : ℚ) - q| :=
  (not_lt.1 h).trans (abs_nearestAway_sub_le_abs q n)

theorem snapped_mono (ε : ℚ) : Monotone (snapped ε) := by
  intro q r h
  unfold snapped
  split_ifs with hq hr hr
  · exact_mod_cast nearestAway_mono h
  · -- otherwise `r` lies between `q` and its integer, and is nearer to it
    by_contra! hlt
    have hfar := le_abs_sub_of_not_snapped hr (nearestAway q)
    rw [abs_of_nonneg (by linarith)] at hfar hq
    linarith
  · by_contra! hlt
    have hfar := le_abs_sub_of_not_snapped hq (nearestAway r)
    rw [abs_of_nonpos (by linarith)] at hfar hr
    linarith
  · exact h

end Numbers

/-! ## Snapping doubles -/

namespace SnapPolicy

variable {x y : Float} (policy : SnapPolicy)

theorem toRat_nonneg : 0 ≤ toRat policy.epsilon := by
  have hzero : IsInt 0.0 0 := isInt_zero_of_beq (by decide)
  have h := policy.nonneg
  rwa [lt_iff_toRat policy.finite hzero.finite, hzero.toRat_eq, Int.cast_zero, not_lt] at h

/-- The distance to the nearest integer is computed without an error. -/
theorem toRat_roundHalfAway_sub (hx : x.isFinite = true) :
    (roundHalfAway x - x).isFinite = true ∧
      toRat (roundHalfAway x - x) = nearestAway (toRat x) - toRat x := by
  obtain ⟨hf, hv⟩ := toRat_roundHalfAway hx
  have hexact := rounded_nearestAway_sub x
  rw [← hv] at hexact
  have hlt : |rounded (toRat (roundHalfAway x) - toRat x)| < 2 ^ (1024 : ℤ) := by
    rw [hexact, hv]
    calc |(nearestAway (toRat x) : ℚ) - toRat x| ≤ 1 / 2 := abs_nearestAway_sub_le _
      _ < 1 := one_half_lt_one
      _ ≤ 2 ^ (1024 : ℤ) := one_le_zpow₀ one_le_two (by decide)
  obtain ⟨hfinite, hvalue⟩ := toRat_sub hf hx hlt
  exact ⟨hfinite, by rw [hvalue, hexact, hv]⟩

/-- The comparison of the doubles decides the comparison of the numbers. -/
theorem abs_lt_epsilon_iff (hx : x.isFinite = true) :
    (roundHalfAway x - x).abs < policy.epsilon ↔
      |(nearestAway (toRat x) : ℚ) - toRat x| < toRat policy.epsilon := by
  obtain ⟨hfinite, hvalue⟩ := toRat_roundHalfAway_sub hx
  rw [lt_iff_toRat (by rwa [isFinite_abs]) policy.finite, toRat_abs, hvalue]

/-- Snapping a double snaps its value. -/
theorem toRat_snap (hx : x.isFinite = true) :
    toRat (policy.snap x) = snapped (toRat policy.epsilon) (toRat x) := by
  unfold snap snapped
  simp only [policy.abs_lt_epsilon_iff hx]
  split_ifs
  · exact (toRat_roundHalfAway hx).2
  · rfl

/-- A double that is snapped becomes an integer next to it. -/
theorem snap_eq_or (x : Float) : policy.snap x = x ∨ ∃ n : ℤ, IsInt (policy.snap x) n ∧
    |n - toRat x| < toRat policy.epsilon ∧ |n - toRat x| ≤ 1 / 2 := by
  by_cases hx : x.isFinite = true
  · unfold snap
    simp only [policy.abs_lt_epsilon_iff hx]
    split_ifs with h
    · exact Or.inr ⟨nearestAway (toRat x), isInt_roundHalfAway hx, h, abs_nearestAway_sub_le _⟩
    · exact Or.inl rfl
  · exact Or.inl (snap_of_isFinite_eq_false policy (Bool.eq_false_of_not_eq_true hx))

/-- Snapping moves a number by no more than the distance of the policy. -/
theorem abs_snap_sub_le (x : Float) : |toRat (policy.snap x) - toRat x| ≤ toRat policy.epsilon := by
  rcases policy.snap_eq_or x with h | ⟨n, hn, hlt, -⟩
  · rw [h, sub_self, abs_zero]
    exact policy.toRat_nonneg
  · rw [hn.toRat_eq]
    exact hlt.le

theorem snap_snap (x : Float) : policy.snap (policy.snap x) = policy.snap x := by
  rcases policy.snap_eq_or x with h | ⟨n, hn, -⟩
  · rw [h, h]
  · exact hn.snap policy

theorem snap_le_snap (hx : x.isFinite = true) (hy : y.isFinite = true) (h : x ≤ y) :
    policy.snap x ≤ policy.snap y := by
  rw [le_iff_toRat (by rwa [isFinite_snap]) (by rwa [isFinite_snap]), policy.toRat_snap hx,
    policy.toRat_snap hy]
  exact snapped_mono _ ((le_iff_toRat hx hy).1 h)

/-- Snapping is a monotone, odd and idempotent rounding.  A finite double stays or becomes an
integer that is closer than the distance of the policy, and the nearest one.  Integers stay, and so
does what is not finite. -/
theorem snap_monotone_odd_idempotent :
    (∀ x y : Float, x.isFinite = true → y.isFinite = true → x ≤ y →
      policy.snap x ≤ policy.snap y) ∧
    (∀ x, policy.snap (-x) = -policy.snap x) ∧
    (∀ x, policy.snap (policy.snap x) = policy.snap x) ∧
    (∀ x, x.isFinite = true →
      toRat (policy.snap x) = snapped (toRat policy.epsilon) (toRat x) ∧
      (policy.snap x = x ∨ ∃ n : ℤ, IsInt (policy.snap x) n ∧
        |n - toRat x| < toRat policy.epsilon ∧ |n - toRat x| ≤ 1 / 2)) ∧
    (∀ x n, IsInt x n → policy.snap x = x) ∧
    ∀ x, x.isFinite = false → policy.snap x = x :=
  ⟨fun _ _ => policy.snap_le_snap, snap_neg policy, policy.snap_snap,
    fun x hx => ⟨policy.toRat_snap hx, policy.snap_eq_or x⟩, fun _ _ h => h.snap policy,
    fun _ => snap_of_isFinite_eq_false policy⟩

/-- Two doubles, a quarter and an eighth below the integer `2`, at the distance of a quarter. -/
theorem snap_monotone_odd_idempotent_quarter :
    let policy : SnapPolicy := ⟨0.25, by decide, by decide⟩
    policy.snap 1.75 = 1.75 ∧ policy.snap 1.875 = 2.0 ∧
      policy.snap 1.75 ≤ policy.snap 1.875 ∧ policy.snap (-1.875) = -policy.snap 1.875 ∧
      policy.snap (policy.snap 1.875) = policy.snap 1.875 ∧
      toRat (policy.snap 1.875) = snapped (toRat policy.epsilon) (toRat 1.875) ∧
      policy.snap 7.0 = 7.0 ∧ policy.snap infinity = infinity ∧ policy.snap nan = nan := by
  intro policy
  obtain ⟨hmono, hneg, hsnap, hvalue, hint, hrest⟩ := snap_monotone_odd_idempotent policy
  exact ⟨by decide, by decide, hmono _ _ (by decide) (by decide) (by decide), hneg _, hsnap _,
    (hvalue _ (by decide)).1, hint _ 7 (isInt_of_isNat (k := 7) (by decide)), hrest _ (by decide),
    hrest _ (by decide)⟩

end SnapPolicy

end SparsePoly
