import Mathlib
import SparsePoly.Proofs.Calculus.Opposite
import SparsePoly.Proofs.Roots.Descent
import SparsePoly.Proofs.Roots.Quadratic
import SparsePoly.Proofs.SnapPolicy.Rounding
import SparsePoly.Roots.Finder

/-!
# The extrema of a cubic polynomial

A critical point is listed as an extremum if the derivative has opposite signs a tenth to its left
and a tenth to its right.  So another critical point must be farther away than that, and farther by
what snapping and rounding can do (`Separated`).  Then both critical points of a cubic polynomial
are listed, the one with the positive square root as the minimum and the other one as the maximum
(`extrema_cubic`); otherwise both can be missed (`extrema_cubic_missed`).

The derivative that is computed a tenth beside a critical point is near `a * (y - t₁) * (y - t₂)`,
where `t₁` and `t₂` are near the critical points.  The product is larger than the error
(`far_sign`), so that the computed derivative has its sign.
-/

namespace SparsePoly

open Binary64 ClosedForm

/-! ## Probing -/

section Near

variable {r : Float} {X : ℚ}

theorem probeDistance_spec : Bounded RootFinder.probeDistance 0 ∧
    |toRat RootFinder.probeDistance - 1 / 10| ≤ roundoff / 10 := by
  have hvalue : toRat RootFinder.probeDistance = 3602879701896397 / 36028797018963968 := by
    decide +kernel
  refine ⟨⟨by decide, ?_⟩, ?_⟩
  · rw [hvalue]
    norm_num
  · rw [hvalue, roundoff]
    norm_num

/-- The points at which the sign is taken, for a point that is not huge. -/
theorem probe_near (hr : Bounded r 45) (hX : 1 ≤ X) (h : |toRat r| ≤ X) :
    (Bounded (r + RootFinder.probeDistance) 48 ∧
      |toRat (r + RootFinder.probeDistance) - (toRat r + 1 / 10)| ≤ 2 * (roundoff * X)) ∧
    Bounded (r - RootFinder.probeDistance) 48 ∧
      |toRat (r - RootFinder.probeDistance) - (toRat r - 1 / 10)| ≤ 2 * (roundoff * X) := by
  obtain ⟨hprobe, hdistance⟩ := probeDistance_spec
  obtain ⟨d, hd⟩ : ∃ d, d = toRat RootFinder.probeDistance := ⟨_, rfl⟩
  rw [← hd] at hdistance
  have hu := roundoff_pos
  have hu' := roundoff_le
  have hprobe' := hprobe.mono (l := 45) (by norm_num)
  have hplus := hr.add hprobe' (by norm_num) (by norm_num)
  have hminus := hr.sub hprobe' (by norm_num) (by norm_num)
  have hXu := mul_le_mul_of_nonneg_left hX hu.le
  have hscale : (2 : ℚ) ^ (-1022 : ℤ) ≤ 6 / 5 * X := tiny_le_of_one_le (by linarith)
  rw [abs_le] at h hdistance
  refine ⟨⟨hplus.mono (by norm_num), ?_⟩, hminus.mono (by norm_num), ?_⟩
  · rw [toRat_add_of_isFinite hplus.finite, ← hd]
    have herror := abs_rounded_sub_le_of_abs_le hscale (q := toRat r + d)
      (abs_le.2 ⟨by linarith, by linarith⟩)
    rw [abs_le] at herror ⊢
    constructor <;> linarith
  · rw [toRat_sub_of_isFinite hminus.finite, ← hd]
    have herror := abs_rounded_sub_le_of_abs_le hscale (q := toRat r - d)
      (abs_le.2 ⟨by linarith, by linarith⟩)
    rw [abs_le] at herror ⊢
    constructor <;> linarith

end Near

/-! ## Critical points that are far enough apart -/

section Apart

variable {ε κ κ₁ κ₂ η s r r' t t' v x₁ x₂ y X : ℚ}

/-- The distance of the points from one another is more than the distance at which signs are taken,
by as much as snapping can take away and, relative to their size, rounding. -/
structure Separated (ε x₁ x₂ : ℚ) : Prop where
  snap : ε < 1 / 10
  gap : (max 1 (max |x₁| |x₂|)) ^ 2 / 2 ^ 47 ≤ (1 / 10 - ε) * (|x₁ - x₂| - 1 / 10 - ε)

/-- The size of `s * (y - t) * (y - t')` a tenth from `t` and at a distance from `t'`.  It has the
sign of the direction, because `s * (r - r')` is not negative. -/
theorem product_le (hη : η = 1 ∨ η = -1) (hs : s * (r - r') = |s| * |r - r'|)
    (hy : |y - (r + η / 10)| ≤ κ₂) (ht : |r - t| ≤ ε + κ₁) (ht' : |r' - t'| ≤ ε + κ₁)
    (hκ : κ₁ + κ₂ ≤ κ) (hα : 0 ≤ 1 / 10 - ε - κ) (hβ : 0 ≤ |r - r'| - 1 / 10 - ε - κ) :
    |s| * ((1 / 10 - ε - κ) * (|r - r'| - 1 / 10 - ε - κ)) ≤ η * (s * ((y - t) * (y - t'))) := by
  have hown : 1 / 10 - ε - κ ≤ η * (y - t) := by
    rw [abs_le] at hy ht
    rcases hη with rfl | rfl <;> linarith
  have hoff : |y - r + (r' - t')| ≤ 1 / 10 + ε + κ := by
    rw [abs_le] at hy ht' ⊢
    rcases hη with rfl | rfl <;> constructor <;> linarith
  have hother : |s| * (|r - r'| - 1 / 10 - ε - κ) ≤ s * (y - t') := by
    have hsplit : s * (y - t') = |s| * |r - r'| + s * (y - r + (r' - t')) := by
      rw [← hs]
      ring
    have hle := neg_abs_le (s * (y - r + (r' - t')))
    rw [abs_mul] at hle
    rw [hsplit]
    linarith [mul_le_mul_of_nonneg_left hoff (abs_nonneg s)]
  calc |s| * ((1 / 10 - ε - κ) * (|r - r'| - 1 / 10 - ε - κ))
      = (1 / 10 - ε - κ) * (|s| * (|r - r'| - 1 / 10 - ε - κ)) := by ring
    _ ≤ η * (y - t) * (s * (y - t')) :=
        mul_le_mul hown hother (mul_nonneg (abs_nonneg s) hβ) (hα.trans hown)
    _ = η * (s * ((y - t) * (y - t'))) := by ring

theorem Separated.symm (h : Separated ε x₁ x₂) : Separated ε x₂ x₁ where
  snap := h.snap
  gap := by
    rw [abs_sub_comm, max_comm |x₂|]
    exact h.gap

/-- What the gap leaves for rounding. -/
theorem Separated.bounds (h : Separated ε x₁ x₂) (hε : 0 ≤ ε) (hX : X = max 1 (max |x₁| |x₂|)) :
    X ≤ 2 ^ (45 : ℤ) ∧ 32 * (roundoff * X) ≤ 1 / 10 - ε ∧
      640 * (roundoff * X) ≤ |x₁ - x₂| - 1 / 10 - ε ∧
      47 * (roundoff * X ^ 2) ≤
        (1 / 10 - ε - 8 * (roundoff * X)) * (|x₁ - x₂| - 1 / 10 - ε - 8 * (roundoff * X)) := by
  obtain ⟨hsnap, hgap⟩ := h
  rw [← hX] at hgap
  have hX₁ : 1 ≤ X := hX ▸ le_max_left _ _
  have hx₁ : |x₁| ≤ X := hX ▸ (le_max_left _ _).trans (le_max_right _ _)
  have hx₂ : |x₂| ≤ X := hX ▸ (le_max_right _ _).trans (le_max_right _ _)
  obtain ⟨β, hβ⟩ : ∃ β, β = |x₁ - x₂| - 1 / 10 - ε := ⟨_, rfl⟩
  obtain ⟨α, hα⟩ : ∃ α, α = 1 / 10 - ε := ⟨_, rfl⟩
  rw [← hβ, ← hα] at hgap ⊢
  have hα₀ : 0 < α := by linarith
  have hα₁ : α ≤ 1 / 10 := by linarith
  have hβ₁ : β ≤ 2 * X := by
    have := abs_sub_le x₁ 0 x₂
    rw [sub_zero, zero_sub, abs_neg] at this
    linarith
  have hu := roundoff_pos
  have hunit : X ^ 2 / 2 ^ 47 = 64 * (roundoff * X ^ 2) := by
    rw [roundoff]
    norm_num
    ring
  rw [hunit] at hgap
  have hX₂ : roundoff * X ≤ roundoff * X ^ 2 := by nlinarith
  have hX₀ : 0 < roundoff * X := mul_pos hu (by linarith)
  have hβ₀ : 0 < β := by
    by_contra! hneg
    linarith [mul_nonpos_of_nonneg_of_nonpos hα₀.le hneg]
  have hβ₂ : 640 * (roundoff * X) ≤ β := by
    linarith [mul_le_mul_of_nonneg_right hα₁ hβ₀.le]
  have hα₂ : 32 * (roundoff * X) ≤ α := by
    refine le_of_mul_le_mul_right ?_ (by linarith : 0 < X)
    linarith [mul_le_mul_of_nonneg_left hβ₁ hα₀.le]
  refine ⟨?_, hα₂, hβ₂, ?_⟩
  · rw [roundoff] at hα₂
    norm_num at hα₂ ⊢
    linarith
  · calc 47 * (roundoff * X ^ 2) ≤ 3 / 4 * α * (79 / 80 * β) := by nlinarith
      _ ≤ (α - 8 * (roundoff * X)) * (β - 8 * (roundoff * X)) :=
          mul_le_mul (by linarith) (by linarith) (by linarith) (by linarith)

/-- The sign of a number near `s * (y - t) * (y - t')`, a tenth beside the point `x₁`. -/
theorem far_sign (hη : η = 1 ∨ η = -1) (hs₀ : s ≠ 0) (hs : s * (x₁ - x₂) = |s| * |x₁ - x₂|)
    (h : Separated ε x₁ x₂) (hε : 0 ≤ ε) (hX : X = max 1 (max |x₁| |x₂|))
    (ht : |x₁ - t| ≤ ε + 6 * (roundoff * X)) (ht' : |x₂ - t'| ≤ ε + 6 * (roundoff * X))
    (hy : |y - (x₁ + η / 10)| ≤ 2 * (roundoff * X))
    (hv : |v - s * ((y - t) * (y - t'))| ≤ 36 * (roundoff * (|s| * X ^ 2))) : 0 < η * v := by
  obtain ⟨-, hα, hβ, hgap⟩ := h.bounds hε hX
  have hX₀ : 0 < X := zero_lt_one.trans_le (hX ▸ le_max_left _ _)
  have hunit : 0 < roundoff * X := mul_pos roundoff_pos hX₀
  have hscale : 0 < roundoff * (|s| * X ^ 2) :=
    mul_pos roundoff_pos (mul_pos (abs_pos.2 hs₀) (pow_pos hX₀ 2))
  have hproduct := product_le hη hs hy ht ht' (κ := 8 * (roundoff * X)) (by linarith)
    (by linarith) (by linarith)
  have hsize := mul_le_mul_of_nonneg_left hgap (abs_nonneg s)
  rw [abs_le] at hv
  rcases hη with rfl | rfl <;> linarith

end Apart

/-! ## The signs beside the critical points -/

section Signs

variable {p : Poly} {finder : RootFinder} {a b c r₁ r₂ : Float} {ε t₁ t₂ X : ℚ}

/-- Nothing overflows. -/
theorem bounded_coefficients (h : Shadow a b c (6 / 5 * X) t₁ t₂) (ha : toRat a ≠ 0)
    (hX : X ≤ 2 ^ (45 : ℤ)) (hX₁ : 1 ≤ X) (hapart : 2 ^ (-44 : ℤ) ≤ |t₁ - t₂|)
    (hfa : a.isFinite = true) (hfb : b.isFinite = true) (hfc : c.isFinite = true) :
    Bounded a 560 ∧ Bounded b 610 ∧ Bounded c 660 := by
  have ha₀ : 0 < |toRat a| := abs_pos.2 ha
  have hYpos : 0 < 6 / 5 * X := by linarith
  have hY : 6 / 5 * X ≤ 2 ^ (46 : ℤ) := by
    norm_num at hX ⊢
    linarith
  have hlead : |toRat a| ≤ 2 ^ (557 : ℤ) := by
    refine le_of_mul_le_mul_right ?_ (zpow_pos two_pos (-44) : (0 : ℚ) < 2 ^ (-44 : ℤ))
    calc |toRat a| * 2 ^ (-44 : ℤ) ≤ |toRat a| * |t₁ - t₂| :=
          mul_le_mul_of_nonneg_left hapart ha₀.le
      _ ≤ 2 ^ (513 : ℤ) := h.apart
      _ = 2 ^ (557 : ℤ) * 2 ^ (-44 : ℤ) := by
          rw [← zpow_add₀ two_ne_zero]
          rfl
  have hline : |toRat a| * (6 / 5 * X) ≤ 2 ^ (603 : ℤ) := by
    calc |toRat a| * (6 / 5 * X) ≤ 2 ^ (557 : ℤ) * 2 ^ (46 : ℤ) :=
          mul_le_mul hlead hY hYpos.le (zpow_pos two_pos _).le
      _ = 2 ^ (603 : ℤ) := by
          rw [← zpow_add₀ two_ne_zero]
          rfl
  refine ⟨⟨hfa, hlead.trans (zpow_le_zpow_right₀ one_le_two (by norm_num))⟩, ⟨hfb, ?_⟩, hfc, ?_⟩
  · calc |toRat b| ≤ 201 / 100 * (|toRat a| * (6 / 5 * X)) := h.linear
      _ ≤ 2 ^ (2 : ℤ) * 2 ^ (603 : ℤ) := mul_le_mul (by norm_num) hline
          (mul_nonneg ha₀.le hYpos.le) (zpow_pos two_pos _).le
      _ ≤ 2 ^ (610 : ℤ) := by
          rw [← zpow_add₀ two_ne_zero]
          exact zpow_le_zpow_right₀ one_le_two (by norm_num)
  · have hconstant : |toRat c| ≤ 205 / 100 * (|toRat a| * (6 / 5 * X) * (6 / 5 * X)) := by
      refine le_of_mul_le_mul_left ?_ ha₀
      linarith [h.constant]
    calc |toRat c| ≤ 205 / 100 * (|toRat a| * (6 / 5 * X) * (6 / 5 * X)) := hconstant
      _ ≤ 2 ^ (2 : ℤ) * (2 ^ (603 : ℤ) * 2 ^ (46 : ℤ)) := mul_le_mul (by norm_num)
          (mul_le_mul hline hY hYpos.le (zpow_pos two_pos _).le)
          (mul_nonneg (mul_nonneg ha₀.le hYpos.le) hYpos.le) (zpow_pos two_pos _).le
      _ ≤ 2 ^ (660 : ℤ) := by
          rw [← zpow_add₀ two_ne_zero, ← zpow_add₀ two_ne_zero]
          exact zpow_le_zpow_right₀ one_le_two (by norm_num)

/-- The exact roots lie in the order of the critical points. -/
theorem ordered_of_near {A e x₁ x₂ : ℚ} (h : 0 ≤ A * (t₁ - t₂)) (h₁ : |x₁ - t₁| ≤ e)
    (h₂ : |x₂ - t₂| ≤ e) (he : 2 * e < |x₁ - x₂|) : A * (x₁ - x₂) = |A| * |x₁ - x₂| := by
  rw [← abs_mul]
  refine (abs_of_nonneg ?_).symm
  by_contra! hneg
  have hsize : |A| * |x₁ - x₂| = -(A * (x₁ - x₂)) := by rw [← abs_mul, abs_of_neg hneg]
  have hA : 0 < |A| := abs_pos.2 fun h₀ => by simp [h₀] at hneg
  have hmoved : A * ((t₁ - x₁) - (t₂ - x₂)) ≤ |A| * (2 * e) := by
    refine (le_abs_self _).trans ?_
    rw [abs_mul]
    refine mul_le_mul_of_nonneg_left ?_ hA.le
    rw [abs_le] at *
    constructor <;> linarith
  linarith [mul_lt_mul_of_pos_left he hA]

/-- The computed roots are near those of the shadow after they have been snapped. -/
theorem exists_shadow_snapped (policy : SnapPolicy) (hf₁ : (plusRoot a b c).isFinite = true)
    (hf₂ : (minusRoot a b c).isFinite = true) (hlead : 2 ^ (-511 : ℤ) ≤ |toRat a|)
    (hr₁ : r₁ = policy.snap (plusRoot a b c)) (hr₂ : r₂ = policy.snap (minusRoot a b c))
    (hε : ε = toRat policy.epsilon) (hε₁ : ε < 1 / 10)
    (hX : X = max 1 (max |toRat r₁| |toRat r₂|)) :
    ∃ t₁ t₂, Shadow a b c (6 / 5 * X) t₁ t₂ ∧ |toRat r₁ - t₁| ≤ ε + 6 * (roundoff * X) ∧
      |toRat r₂ - t₂| ≤ ε + 6 * (roundoff * X) := by
  have hX₁ : 1 ≤ X := hX ▸ le_max_left _ _
  have hx₁ : |toRat r₁| ≤ X := hX ▸ (le_max_left _ _).trans (le_max_right _ _)
  have hx₂ : |toRat r₂| ≤ X := hX ▸ (le_max_right _ _).trans (le_max_right _ _)
  have huX : 0 ≤ roundoff * X := mul_nonneg roundoff_pos.le (zero_le_one.trans hX₁)
  have hsnap₁ := policy.abs_snap_sub_le (plusRoot a b c)
  have hsnap₂ := policy.abs_snap_sub_le (minusRoot a b c)
  rw [← hr₁, ← hε] at hsnap₁
  rw [← hr₂, ← hε] at hsnap₂
  obtain ⟨t₁, t₂, h⟩ := exists_shadow (Y := 6 / 5 * X) hf₁ hf₂ hlead (by linarith)
    (by linarith [abs_le_of_abs_sub_le' hsnap₁]) (by linarith [abs_le_of_abs_sub_le' hsnap₂])
  refine ⟨t₁, t₂, h, ?_, ?_⟩
  · linarith [abs_sub_le (toRat r₁) (toRat (plusRoot a b c)) t₁, h.plus]
  · linarith [abs_sub_le (toRat r₂) (toRat (minusRoot a b c)) t₂, h.minus]

/-- The exact roots are apart if the critical points are. -/
theorem le_abs_sub_of_near {x₁ x₂ : ℚ} (h : Separated ε x₁ x₂) (hε : 0 ≤ ε)
    (hX : X = max 1 (max |x₁| |x₂|)) (h₁ : |x₁ - t₁| ≤ ε + 6 * (roundoff * X))
    (h₂ : |x₂ - t₂| ≤ ε + 6 * (roundoff * X)) : 2 ^ (-44 : ℤ) ≤ |t₁ - t₂| := by
  obtain ⟨-, hα, hβ, -⟩ := h.bounds hε hX
  have hX₁ : 1 ≤ X := hX ▸ le_max_left _ _
  have huX := mul_le_mul_of_nonneg_left hX₁ roundoff_pos.le
  have hgap : |x₁ - x₂| ≤ |t₁ - t₂| + 2 * (ε + 6 * (roundoff * X)) := by
    rw [abs_le] at h₁ h₂
    rw [abs_le]
    constructor <;> linarith [neg_abs_le (t₁ - t₂), le_abs_self (t₁ - t₂)]
  have hunit : (2 : ℚ) ^ (-44 : ℤ) = 512 * roundoff := by
    rw [roundoff]
    norm_num
  rw [hunit]
  linarith [roundoff_pos]

/-- The signs of the values that are computed a tenth beside the critical points. -/
theorem signs_beside {x₁ x₂ y : ℚ} (h : Shadow a b c (6 / 5 * X) t₁ t₂) (ha : toRat a ≠ 0)
    (hsep : Separated ε x₁ x₂) (hε : 0 ≤ ε) (hX : X = max 1 (max |x₁| |x₂|))
    (h₁ : |x₁ - t₁| ≤ ε + 6 * (roundoff * X)) (h₂ : |x₂ - t₂| ≤ ε + 6 * (roundoff * X))
    {v : ℚ} (hv : v = computedValue (toRat a) (toRat b) (toRat c) y) :
    (|y - (x₁ - 1 / 10)| ≤ 2 * (roundoff * X) → v < 0) ∧
    (|y - (x₁ + 1 / 10)| ≤ 2 * (roundoff * X) → 0 < v) ∧
    (|y - (x₂ - 1 / 10)| ≤ 2 * (roundoff * X) → 0 < v) ∧
    (|y - (x₂ + 1 / 10)| ≤ 2 * (roundoff * X) → v < 0) := by
  obtain ⟨-, hα, hβ, -⟩ := hsep.bounds hε hX
  have hX₁ : 1 ≤ X := hX ▸ le_max_left _ _
  have hx₁ : |x₁| ≤ X := hX ▸ (le_max_left _ _).trans (le_max_right _ _)
  have hx₂ : |x₂| ≤ X := hX ▸ (le_max_right _ _).trans (le_max_right _ _)
  have huX := mul_le_mul_of_nonneg_left hX₁ roundoff_pos.le
  have horder := ordered_of_near h.ordered h₁ h₂ (by linarith [roundoff_pos])
  have hvalue {x η : ℚ} (hη : η = 1 ∨ η = -1) (hx : |x| ≤ X)
      (hy : |y - (x + η / 10)| ≤ 2 * (roundoff * X)) :
      |v - toRat a * ((y - t₁) * (y - t₂))| ≤ 36 * (roundoff * (|toRat a| * X ^ 2)) := by
    refine hv ▸ (h.value y ?_).trans_eq (by ring)
    have hu' := mul_le_mul_of_nonneg_right roundoff_le (zero_le_one.trans hX₁)
    rw [abs_le] at hx hy ⊢
    rcases hη with rfl | rfl <;> constructor <;> linarith
  have hfirst {η : ℚ} (hη : η = 1 ∨ η = -1) (hy : |y - (x₁ + η / 10)| ≤ 2 * (roundoff * X)) :
      0 < η * v := far_sign hη ha horder hsep hε hX h₁ h₂ hy (hvalue hη hx₁ hy)
  -- Seen from the second root, the polynomial has the opposite sign.
  have hsecond {η : ℚ} (hη : η = 1 ∨ η = -1) (hy : |y - (x₂ + η / 10)| ≤ 2 * (roundoff * X)) :
      0 < η * -v := by
    refine far_sign hη (neg_ne_zero.2 ha) ?_ hsep.symm hε (by rw [hX, max_comm |x₁|]) h₂ h₁ hy ?_
    · rw [abs_neg, abs_sub_comm, ← horder]
      ring
    · rw [← abs_neg, abs_neg (toRat a)]
      refine (congrArg abs ?_).trans_le (hvalue hη hx₂ hy)
      ring
  refine ⟨fun hy => ?_, fun hy => ?_, fun hy => ?_, fun hy => ?_⟩
  · linarith [hfirst (Or.inr rfl) (by rwa [neg_div, ← sub_eq_add_neg])]
  · linarith [hfirst (Or.inl rfl) hy]
  · linarith [hsecond (Or.inr rfl) (by rwa [neg_div, ← sub_eq_add_neg])]
  · linarith [hsecond (Or.inl rfl) hy]

end Signs

/-! ## The classification -/

namespace Poly

variable {p : Poly} {r₁ r₂ : Float}

theorem roots_quadratic (hd : p.degree.toInt = 2) (finder : RootFinder)
    (h : finder.roots p = .ok [r₁, r₂]) :
    r₁ = finder.policy.snap
      (plusRoot (p.coefficient 2) (p.coefficient 1) (p.coefficient 0)) ∧
    r₂ = finder.policy.snap
      (minusRoot (p.coefficient 2) (p.coefficient 1) (p.coefficient 0)) := by
  rw [RootFinder.roots_of_degree_two hd, solveQuadratic_eq] at h
  have hlist := Except.ok.inj h
  simp only [SnapPolicy.snapAll, List.map_cons, List.map_nil, List.cons.injEq, and_true] at hlist
  exact ⟨hlist.1.symm, hlist.2.symm⟩

/-- The values beside the critical points of a polynomial with the slope `p`. -/
theorem Valid.eval_beside (hp : p.Valid) (hd : p.degree.toInt = 2)
    (hnonneg : ∀ t ∈ p.terms, 0 ≤ t.exponent.toInt) (finder : RootFinder)
    (hroots : finder.roots p = .ok [r₁, r₂]) (hf₁ : r₁.isFinite = true) (hf₂ : r₂.isFinite = true)
    (hlead : 2 ^ (-511 : ℤ) ≤ |toRat p.leadingCoefficient|)
    (h : Separated (toRat finder.policy.epsilon) (toRat r₁) (toRat r₂)) :
    (p.eval (r₁ - RootFinder.probeDistance) < 0.0 ∧
      0.0 < p.eval (r₁ + RootFinder.probeDistance)) ∧
    0.0 < p.eval (r₂ - RootFinder.probeDistance) ∧
      p.eval (r₂ + RootFinder.probeDistance) < 0.0 := by
  obtain ⟨a, ha⟩ : ∃ a, a = p.coefficient 2 := ⟨_, rfl⟩
  obtain ⟨b, hb⟩ : ∃ b, b = p.coefficient 1 := ⟨_, rfl⟩
  obtain ⟨c, hc⟩ : ∃ c, c = p.coefficient 0 := ⟨_, rfl⟩
  obtain ⟨ε, hε⟩ : ∃ ε, ε = toRat finder.policy.epsilon := ⟨_, rfl⟩
  obtain ⟨X, hX⟩ : ∃ X, X = max 1 (max |toRat r₁| |toRat r₂|) := ⟨_, rfl⟩
  have hX₁ : 1 ≤ X := hX ▸ le_max_left _ _
  have hε₀ : 0 ≤ ε := hε ▸ finder.policy.toRat_nonneg
  obtain ⟨hr₁, hr₂⟩ := roots_quadratic hd finder hroots
  rw [← ha, ← hb, ← hc] at hr₁ hr₂
  have hplus : (plusRoot a b c).isFinite = true := by rwa [hr₁, isFinite_snap] at hf₁
  have hminus : (minusRoot a b c).isFinite = true := by rwa [hr₂, isFinite_snap] at hf₂
  rw [← coefficient_degree (by omega), show p.degree = 2 from Int32.toInt_inj.1 hd, ← ha] at hlead
  rw [← hε] at h
  obtain ⟨t₁, t₂, hshadow, h₁, h₂⟩ :=
    exists_shadow_snapped finder.policy hplus hminus hlead hr₁ hr₂ hε h.snap hX
  have ha₀ : toRat a ≠ 0 := abs_pos.1 ((zpow_pos two_pos _).trans_le hlead)
  obtain ⟨hXle, -⟩ := h.bounds hε₀ hX
  -- Nothing overflows, so that the values have the sign of what is computed.
  obtain ⟨hbb, hacc⟩ := isFinite_of_sub (radicand_spec hplus).1
  obtain ⟨hquadruple, hfc⟩ := isFinite_of_mul hacc
  obtain ⟨hba, hbb, hbc⟩ := bounded_coefficients hshadow ha₀ hXle hX₁
    (le_abs_sub_of_near h hε₀ hX h₁ h₂) (isFinite_of_mul hquadruple).2 (isFinite_of_mul hbb).1 hfc
  have hsign {y : Float} (hy : Bounded y 48) := hp.sign_eval hd hnonneg (ha ▸ hba) (hb ▸ hbb)
    (hc ▸ hbc) hy rfl
  rw [← ha, ← hb, ← hc] at hsign
  have hbeside {y : ℚ} := signs_beside (y := y) hshadow ha₀ h hε₀ hX h₁ h₂ rfl
  have hx₁ : |toRat r₁| ≤ X := hX ▸ (le_max_left _ _).trans (le_max_right _ _)
  have hx₂ : |toRat r₂| ≤ X := hX ▸ (le_max_right _ _).trans (le_max_right _ _)
  have hb₁ : Bounded r₁ 45 := ⟨hf₁, hx₁.trans hXle⟩
  have hb₂ : Bounded r₂ 45 := ⟨hf₂, hx₂.trans hXle⟩
  obtain ⟨⟨hright₁, hright₁'⟩, hleft₁, hleft₁'⟩ := probe_near hb₁ hX₁ hx₁
  obtain ⟨⟨hright₂, hright₂'⟩, hleft₂, hleft₂'⟩ := probe_near hb₂ hX₁ hx₂
  exact ⟨⟨(hsign hleft₁).2.2 (hbeside.1 hleft₁'), (hsign hright₁).1.2 (hbeside.2.1 hright₁')⟩,
    (hsign hleft₂).1.2 (hbeside.2.2.1 hleft₂'), (hsign hright₂).2.2 (hbeside.2.2.2 hright₂')⟩

/-- The leading coefficient comes into the formula, and a root would not be finite without it. -/
theorem isFinite_leadingCoefficient (hd : p.degree.toInt = 2) (finder : RootFinder)
    (h : finder.roots p = .ok [r₁, r₂]) (hf : r₁.isFinite = true) :
    p.leadingCoefficient.isFinite = true := by
  rw [(roots_quadratic hd finder h).1, isFinite_snap] at hf
  have hproduct := (isFinite_of_sub (radicand_spec hf).1).2
  rw [← coefficient_degree (by omega), show p.degree = 2 from Int32.toInt_inj.1 hd]
  exact (isFinite_of_mul (isFinite_of_mul hproduct).1).2

/-- The derivative of a polynomial with finite coefficients and no negative exponents has no
negative exponents either, because the derivative of a constant is zero. -/
theorem Valid.derivative_nonneg (hp : p.Valid) (hd : 1 ≤ p.degree.toInt)
    (hnonneg : ∀ t ∈ p.terms, 0 ≤ t.exponent.toInt)
    (hfinite : ∀ t ∈ p.terms, t.coefficient.isFinite = true) :
    ∃ slope, p.derivative = .ok slope ∧ slope.Valid ∧
      slope.degree.toInt = p.degree.toInt - 1 ∧ (∀ t ∈ slope.terms, 0 ≤ t.exponent.toInt) ∧
      slope.leadingCoefficient = p.leadingCoefficient * p.degree.toDouble := by
  have hlowers : ∀ t ∈ p.terms, t.Lowers := by
    intro t ht
    have := hnonneg t ht
    unfold Term.Lowers
    omega
  have hterms := terms_derivative hp hlowers
  refine ⟨_, derivative_eq_ok hlowers, valid_ofTerms _, degree_derivative hp hlowers hd, ?_, ?_⟩
  · intro u hu
    rw [hterms, Term.mem_nonzero, List.mem_map] at hu
    obtain ⟨⟨t, ht, rfl⟩, hz⟩ := hu
    have hexponent := hnonneg t ht
    have hzero : t.exponent.toInt ≠ 0 := by
      intro h₀
      have hint := isInt_toDouble t.exponent
      have : t.derived.isZero = true := mul_beq_zero (hfinite t ht) hint.finite
        (by rw [hint.toRat_eq, h₀, Int.cast_zero, mul_zero])
      rw [this] at hz
      cases hz
    rw [(hlowers t ht).toInt_derived]
    omega
  · unfold leadingCoefficient degree leadingTerm? at *
    rw [hterms]
    cases hts : p.terms with
    | nil =>
      rw [hts] at hd
      exact absurd hd (by decide)
    | cons t ts =>
      rw [hts, List.head?_cons, Option.elim_some] at hd
      have hz := Term.isZero_derived (hp.isZero_eq_false t (by simp [hts])) hd
      rw [List.map_cons, Term.nonzero, List.filter_cons_of_pos (by simp [hz])]
      rfl

end Poly

namespace RootFinder

variable {p : Poly} {r₁ r₂ : Float}

theorem within_none (xs : List Float) : within none none xs = xs := List.filter_true xs

theorem maxima_eq (finder : RootFinder) {slope : Poly} {xs : List Float}
    (h : finder.roots slope = .ok xs) : finder.maxima slope none none = .ok (xs.filter fun x =>
      0.0 < slope.eval (x - probeDistance) && slope.eval (x + probeDistance) < 0.0) := by
  rw [maxima, rootsWhere, h]
  exact congrArg Except.ok (within_none _)

theorem minima_eq (finder : RootFinder) {slope : Poly} {xs : List Float}
    (h : finder.roots slope = .ok xs) : finder.minima slope none none = .ok (xs.filter fun x =>
      slope.eval (x - probeDistance) < 0.0 && 0.0 < slope.eval (x + probeDistance)) := by
  rw [minima, rootsWhere, h]
  exact congrArg Except.ok (within_none _)

/-- The extrema of a cubic polynomial, taken from its two critical points.  No point is listed as
both a maximum and a minimum.  If the critical points are far enough apart and the leading
coefficient is not tiny, the one with the negative square root is the only maximum and the other
one is the only minimum. -/
theorem extrema_cubic (finder : RootFinder) (hp : p.Valid) (hd : p.degree.toInt = 3)
    (hnonneg : ∀ t ∈ p.terms, 0 ≤ t.exponent)
    (hfinite : ∀ t ∈ p.terms, t.coefficient.isFinite = true)
    (hcritical : finder.criticalPoints p = .ok [r₁, r₂]) (hf₁ : r₁.isFinite = true)
    (hf₂ : r₂.isFinite = true) :
    ∃ slope us vs, p.derivative = .ok slope ∧ finder.maxima slope none none = .ok us ∧
      finder.minima slope none none = .ok vs ∧ us.Sublist [r₁, r₂] ∧ vs.Sublist [r₁, r₂] ∧
      us.Disjoint vs ∧
      (Separated (toRat finder.policy.epsilon) (toRat r₁) (toRat r₂) →
        2 ^ (-511 : ℤ) ≤ |toRat p.leadingCoefficient| → us = [r₂] ∧ vs = [r₁]) := by
  have hnonneg : ∀ t ∈ p.terms, 0 ≤ t.exponent.toInt := fun t ht =>
    Int32.le_iff_toInt_le.1 (hnonneg t ht)
  obtain ⟨slope, hslope, hvalid, hdegree, hslopes, hlead⟩ :=
    hp.derivative_nonneg (by omega) hnonneg hfinite
  have hroots : finder.roots slope = .ok [r₁, r₂] := by
    rw [criticalPoints, hslope] at hcritical
    exact hcritical
  refine ⟨slope, _, _, hslope, finder.maxima_eq hroots, finder.minima_eq hroots,
    List.filter_sublist, List.filter_sublist, fun x hmax hmin => ?_, fun hsep hsize => ?_⟩
  · have hpositive := (List.mem_filter.1 hmax).2
    have hnegative := (List.mem_filter.1 hmin).2
    simp only [Bool.and_eq_true, decide_eq_true_eq] at hpositive hnegative
    exact not_lt_of_lt hpositive.1 hnegative.1
  · have hlead' := Poly.isFinite_leadingCoefficient (by omega) finder hroots hf₁
    have hslopelead : 2 ^ (-511 : ℤ) ≤ |toRat slope.leadingCoefficient| := by
      have hint := isInt_toDouble p.degree
      rw [hlead] at hlead' ⊢
      rw [toRat_mul_of_isFinite hlead', hint.toRat_eq, hd]
      refine le_abs_rounded (by norm_num) (hsize.trans ?_)
      rw [abs_mul]
      exact le_mul_of_one_le_right (abs_nonneg _) (by norm_num)
    obtain ⟨⟨hleft₁, hright₁⟩, hleft₂, hright₂⟩ :=
      hvalid.eval_beside (by omega) hslopes finder hroots hf₁ hf₂ hslopelead hsep
    constructor
    · simp [hleft₂, hright₂, not_lt_of_lt hleft₁]
    · simp [hleft₁, hright₁, not_lt_of_lt hleft₂]

/-- The critical points of `x ^ 3 - 3 x ^ 2 + 4` are far apart. -/
theorem extrema_cubic_apart :
    let finder : RootFinder := ⟨Newton.standard.refine, .standard, ⟨id, id, id, id⟩⟩
    let p := Poly.ofTerms [⟨1.0, 3⟩, ⟨-3.0, 2⟩, ⟨4.0, 0⟩]
    finder.criticalPoints p = .ok [2.0, 0.0] ∧
    Separated (toRat finder.policy.epsilon) (toRat 2.0) (toRat 0.0) ∧
    2 ^ (-511 : ℤ) ≤ |toRat p.leadingCoefficient| ∧
    ∃ slope, p.derivative = .ok slope ∧ finder.maxima slope none none = .ok [0.0] ∧
      finder.minima slope none none = .ok [2.0] := by
  intro finder p
  have hcritical : finder.criticalPoints p = .ok [2.0, 0.0] := by
    have h : (finder.criticalPoints p).toOption = some [2.0, 0.0] := by decide +kernel
    cases hx : finder.criticalPoints p with
    | error e =>
      rw [hx] at h
      cases h
    | ok xs =>
      rw [hx] at h
      rw [Option.some.inj h]
  have hzero : IsInt 0.0 0 := isInt_zero_of_beq (by decide)
  have htwo : IsInt 2.0 2 := isInt_of_isNat (by decide)
  have hepsilon : toRat finder.policy.epsilon ≤ 1 / 1000 := by decide +kernel
  have hsep : Separated (toRat finder.policy.epsilon) (toRat 2.0) (toRat 0.0) := by
    rw [htwo.toRat_eq, hzero.toRat_eq]
    refine ⟨by linarith, ?_⟩
    norm_num
    nlinarith
  have hlead : 2 ^ (-511 : ℤ) ≤ |toRat p.leadingCoefficient| := by
    have hone : IsInt p.leadingCoefficient 1 := isInt_of_isNat (by decide)
    rw [hone.toRat_eq, Int.cast_one, abs_one]
    exact zpow_le_one_of_nonpos₀ one_le_two (by norm_num)
  obtain ⟨slope, us, vs, hslope, hus, hvs, -, -, -, hextrema⟩ :=
    extrema_cubic finder (Poly.valid_ofTerms _) (by decide) (by decide) (by decide) hcritical
      htwo.finite hzero.finite
  obtain ⟨rfl, rfl⟩ := hextrema hsep hlead
  exact ⟨hcritical, hsep, hlead, slope, hslope, hus, hvs⟩

/-- Two critical points of which neither is listed: where they are nearer to one another than the
distance at which signs are taken, where the coefficients are so small that the roots of the
derivative are computed too far apart, and where the distance is lost beside the critical points.
With a policy that snaps further than the distance, only one of them is listed. -/
theorem extrema_cubic_missed :
    let finder : RootFinder := ⟨Newton.standard.refine, .standard, ⟨id, id, id, id⟩⟩
    let wide : RootFinder := { finder with policy := ⟨0.5, by decide, by decide⟩ }
    let maxima (finder : RootFinder) (p : Poly) : Option (List Float) :=
      (do finder.maxima (← p.derivative) none none).toOption
    let minima (finder : RootFinder) (p : Poly) : Option (List Float) :=
      (do finder.minima (← p.derivative) none none).toOption
    let near := Poly.ofTerms [⟨16.0, 3⟩, ⟨-1.5, 2⟩]
    let tiny := Poly.ofTerms [⟨2e-162, 3⟩, ⟨8e-163, 2⟩, ⟨7e-164, 1⟩]
    let huge := Poly.ofTerms [⟨1.0, 3⟩, ⟨-3987683987354747618711421180841033728.0, 1⟩]
    let snapped := Poly.ofTerms [⟨1.0, 3⟩, ⟨14.625, 2⟩, ⟨-7.5, 1⟩]
    ((finder.criticalPoints near).toOption = some [0.0625, 0.0] ∧
      maxima finder near = some [] ∧ minima finder near = some []) ∧
    ((finder.criticalPoints tiny).toOption = some [0.051896562457089804, -0.31856322912375645] ∧
      maxima finder tiny = some [] ∧ minima finder tiny = some []) ∧
    ((finder.criticalPoints huge).toOption =
        some [1152921504606846976.0, -1152921504606846976.0] ∧
      maxima finder huge = some [] ∧ minima finder huge = some []) ∧
    ((wide.criticalPoints snapped).toOption = some [0.0, -10.0] ∧
      maxima wide snapped = some [-10.0] ∧ minima wide snapped = some []) := by
  decide +kernel

end RootFinder

end SparsePoly
