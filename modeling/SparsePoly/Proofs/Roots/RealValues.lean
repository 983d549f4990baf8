import Mathlib
import SparsePoly.Proofs.Binary64.SquareRoot
import SparsePoly.Proofs.Roots.Descent

/-!
# When the closed forms give numbers

The cubic formula goes over to the polynomial `y ^ 3 + f * y + g`, and its discriminant `h` decides
between one root and three.  Where `h` is finite, the squares and cubes it is made of bound
everything else that is computed (`bounded_singleRoot`, `bounded_trigonometricRoots`,
`bounded_shift`), and all values are finite.  The exception is a cube of `f` that underflows while
`g` is zero (`Vanishes`): the modulus of the trigonometric formula is then zero, and its angle is
`0 / 0`.  Where `h` is positive infinity, the one root is a difference of infinities
(`isNaN_singleRoot`).

The quartic formula takes the square roots of two roots of its resolvent, which are numbers exactly
if both are positive (`isNaN_solveQuartic`, `isNaN_solveQuartic_of_pos`).
-/

open Float.Model

namespace SparsePoly

open Binary64

/-- What is relied on of the library functions: the cube root is not larger than its argument or
one and keeps infinities, the inverse cosine takes what is between `-1` and `1`, and the cosine and
the sine stay between them.  From NaN the cube root, the inverse cosine and the cosine lead to NaN
only. -/
structure Elementary.Regular (fn : Elementary) : Prop where
  cbrt_finite : ∀ x, x.isFinite = true →
    (fn.cbrt x).isFinite = true ∧ |toRat (fn.cbrt x)| ≤ max 1 |toRat x|
  cbrt_infinity : ∀ x, x.isInf = true → fn.cbrt x = x
  cbrt_nan : ∀ x, x.isNaN = true → (fn.cbrt x).isNaN = true
  acos_finite : ∀ x, x.isFinite = true → |toRat x| ≤ 1 → (fn.acos x).isFinite = true
  acos_nan : ∀ x, x.isNaN = true → (fn.acos x).isNaN = true
  cos_finite : ∀ x, x.isFinite = true → (fn.cos x).isFinite = true ∧ |toRat (fn.cos x)| ≤ 1
  cos_nan : ∀ x, x.isNaN = true → (fn.cos x).isNaN = true
  sin_finite : ∀ x, x.isFinite = true → (fn.sin x).isFinite = true ∧ |toRat (fn.sin x)| ≤ 1

namespace Binary64

variable {x y : Float} {k l : ℤ}

theorem clampUnit_of_isNaN (h : x.isNaN = true) : clampUnit x = x := by
  rw [clampUnit, if_neg (not_lt_of_isNaN_left h _), if_neg (not_lt_of_isNaN_right _ h)]

theorem bounded_one : Bounded 1.0 0 := by
  have h : IsInt 1.0 1 := isInt_of_isNat (by decide)
  exact ⟨h.finite, by rw [h.toRat_eq]; norm_num⟩

/-- Beyond both bounds, and so in no interval. -/
theorem not_between_of_isInf (h : x.isInf = true) : x < -1.0 ∨ 1.0 < x := by
  obtain ⟨s, hs⟩ := isInf_iff.1 h
  rw [lt_iff_compare, lt_iff_compare, hs]
  cases s
  · exact Or.inl rfl
  · exact Or.inr rfl

theorem bounded_clampUnit (h : x.isNaN = false) : Bounded (clampUnit x) 0 := by
  unfold clampUnit
  split_ifs with hlow hhigh
  · exact bounded_one.neg
  · exact bounded_one
  · rcases finite_or_isInf_or_isNaN x with hf | hi | hn
    · refine ⟨hf, ?_⟩
      have hone : IsInt 1.0 1 := isInt_of_isNat (by decide)
      rw [lt_iff_toRat hf hone.neg.finite, hone.neg.toRat_eq] at hlow
      rw [lt_iff_toRat hone.finite hf, hone.toRat_eq] at hhigh
      push_cast at hlow hhigh
      rw [abs_le, zpow_zero]
      exact ⟨not_lt.1 hlow, not_lt.1 hhigh⟩
    · exact absurd (not_between_of_isInf hi) (not_or.2 ⟨hlow, hhigh⟩)
    · rw [hn] at h
      cases h

end Binary64

namespace ClosedForm

open Binary64 (pow clampUnit)

variable {fn : Elementary} {a b c d f g h x y : Float} {k l : ℤ}

/-! ## The parts of the cubic formula -/

/-- The coefficient of `y` in the polynomial `y ^ 3 + f * y + g` that is left without the square. -/
def depressedLinear (a b c : Float) : Float := (3.0 * c / a - b * b / (a * a)) / 3.0

/-- The constant `g` of the polynomial `y ^ 3 + f * y + g`. -/
def depressedConstant (a b c d : Float) : Float :=
  (2.0 * pow b 3 / pow a 3 - 9.0 * b * c / (a * a) + 27.0 * d / a) / 27.0

/-- Positive if there is one real root only. -/
def discriminant (f g : Float) : Float := g * g / 4.0 + pow f 3 / 27.0

/-- The root of the polynomial without the square where there is only one. -/
def singleRoot (fn : Elementary) (g h : Float) : Float :=
  fn.cbrt (-(g / 2.0) + h.sqrt) + fn.cbrt (-(g / 2.0) - h.sqrt)

/-- The absolute value of the trigonometric formula. -/
def modulus (g h : Float) : Float := (g * g / 4.0 - h).sqrt

/-- The angle of the trigonometric formula. -/
def angle (fn : Elementary) (g h : Float) : Float :=
  fn.acos (clampUnit (-(g / (2.0 * modulus g h)))) / 3.0

/-- The three roots of the polynomial without the square. -/
def trigonometricRoots (fn : Elementary) (g h : Float) : List Float :=
  let j := fn.cbrt (modulus g h)
  let m := fn.cos (angle fn g h)
  let n := (3.0 : Float).sqrt * fn.sin (angle fn g h)
  [2.0 * j * m, -j * (m + n), -j * (m - n)]

theorem solveCubic_eq (fn : Elementary) (a b c d : Float) :
    solveCubic fn a b c d =
      let f := depressedLinear a b c
      let g := depressedConstant a b c d
      let h := discriminant f g
      if 0.0 < h then [singleRoot fn g h - b / (3.0 * a)]
      else if f == 0.0 && g == 0.0 && h == 0.0 then List.replicate 3 (-fn.cbrt (d / a))
      else (trigonometricRoots fn g h).map (· - b / (3.0 * a)) := rfl

/-! ## Where the discriminant is finite -/

theorem bounded_cbrt (hfn : fn.Regular) (hx : Bounded x k) (hk : 0 ≤ k) :
    Bounded (fn.cbrt x) k := by
  obtain ⟨hf, hle⟩ := hfn.cbrt_finite x hx.finite
  exact ⟨hf, hle.trans (max_le (one_le_zpow₀ one_le_two hk) hx.le)⟩

theorem bounded_square (hh : (discriminant f g).isFinite = true) : Bounded (g * g / 4.0) 1022 := by
  have hfour : IsInt 4.0 4 := isInt_of_isNat (by decide)
  have hsquare := (isFinite_of_div (isFinite_of_add hh).1).1
  exact (bounded_of_isFinite hsquare).div (l := 2) (by rw [hfour.toRat_eq]; norm_num) (by norm_num)
    (by norm_num)

theorem bounded_constant (hh : (discriminant f g).isFinite = true) : Bounded g 512 :=
  bounded_of_isFinite_mul_self (isFinite_of_div (isFinite_of_add hh).1).1

theorem bounded_cube (hh : (discriminant f g).isFinite = true) :
    Bounded (pow f 3 / 27.0) 1020 := by
  have hint : IsInt 27.0 27 := isInt_of_isNat (by decide)
  have hcube := (isFinite_of_div (isFinite_of_add hh).2).1
  exact (bounded_of_isFinite hcube).div (l := 4) (by rw [hint.toRat_eq]; norm_num) (by norm_num)
    (by norm_num)

theorem square_nonneg (hh : (discriminant f g).isFinite = true) : 0 ≤ toRat (g * g / 4.0) := by
  have hfour : IsInt 4.0 4 := isInt_of_isNat (by decide)
  have hsquare := (isFinite_of_add hh).1
  rw [toRat_div_of_isFinite hsquare, toRat_mul_of_isFinite (isFinite_of_div hsquare).1,
    hfour.toRat_eq]
  exact rounded_nonneg (div_nonneg (rounded_nonneg (mul_self_nonneg _)) (by norm_num))

section Negative

variable (hh : (discriminant f g).isFinite = true) (hneg : ¬ 0.0 < discriminant f g)

include hh hneg

theorem discriminant_bounds :
    -2 ^ (1020 : ℤ) ≤ toRat (discriminant f g) ∧ toRat (discriminant f g) ≤ 0 := by
  have hzero : IsInt 0.0 0 := isInt_zero_of_beq (by decide)
  have hle : toRat (discriminant f g) ≤ 0 := by
    rw [lt_iff_toRat hzero.finite hh, hzero.toRat_eq, Int.cast_zero] at hneg
    exact not_lt.1 hneg
  refine ⟨?_, hle⟩
  have hcube := (abs_le.1 (bounded_cube hh).le).1
  have hsquare := square_nonneg hh
  rcases le_total 0 (toRat (g * g / 4.0) + toRat (pow f 3 / 27.0)) with hsum | hsum
  · have hnonneg := rounded_nonneg hsum
    rw [← toRat_add_of_isFinite hh] at hnonneg
    exact (neg_nonpos.2 (zpow_pos two_pos _).le).trans hnonneg
  · have hsize : |toRat (g * g / 4.0) + toRat (pow f 3 / 27.0)| ≤ 2 ^ (1020 : ℤ) := by
      rw [abs_of_nonpos hsum]
      linarith
    have hrounded := abs_rounded_le (by norm_num) hsize
    rw [← toRat_add_of_isFinite hh] at hrounded
    exact (abs_le.1 hrounded).1

/-- The difference under the root of the modulus is a sum of two numbers that are not negative. -/
theorem modulus_operand_spec : Bounded (g * g / 4.0 - discriminant f g) 1023 ∧
    0 ≤ toRat (g * g / 4.0 - discriminant f g) ∧
    (toRat (g * g / 4.0 - discriminant f g) = 0 →
      toRat (g * g / 4.0) = 0 ∧ toRat (discriminant f g) = 0) := by
  obtain ⟨hlow, hle⟩ := discriminant_bounds hh hneg
  have hsquare := square_nonneg hh
  have hbound : Bounded (discriminant f g) 1022 := by
    refine ⟨hh, ?_⟩
    rw [abs_of_nonpos hle]
    exact (neg_le.2 hlow).trans (zpow_le_zpow_right₀ one_le_two (by norm_num))
  have hdiff := (bounded_square hh).sub hbound (by norm_num) (by norm_num)
  refine ⟨hdiff, ?_, fun hzero => ?_⟩
  · rw [toRat_sub_of_isFinite hdiff.finite]
    exact rounded_nonneg (by linarith)
  · rw [toRat_sub_of_isFinite hdiff.finite] at hzero
    by_contra hne
    have hsize : (2 : ℚ) ^ (-1074 : ℤ) ≤ toRat (g * g / 4.0) - toRat (discriminant f g) := by
      by_cases hs : toRat (g * g / 4.0) = 0
      · have hd := le_abs_toRat fun hd => hne ⟨hs, hd⟩
        rw [abs_of_nonpos hle] at hd
        linarith
      · have hd := le_abs_toRat hs
        rw [abs_of_nonneg hsquare] at hd
        linarith
    exact rounded_ne_zero (hsize.trans (le_abs_self _)) hzero

theorem bounded_modulus : Bounded (modulus g (discriminant f g)) 513 := by
  obtain ⟨hbound, hnonneg, -⟩ := modulus_operand_spec hh hneg
  exact (hbound.mono (l := 2 * 512) (by norm_num)).sqrt hnonneg

/-- The modulus is zero only if the discriminant is, which may have underflowed. -/
theorem discriminant_beq_zero (hi : (modulus g (discriminant f g) == 0.0) = true) :
    (discriminant f g == 0.0) = true := by
  obtain ⟨hbound, hnonneg, hzero⟩ := modulus_operand_spec hh hneg
  rw [beq_zero_iff_toRat hh]
  refine (hzero ?_).2
  by_contra hne
  have hroot := le_toRat_sqrt hbound.finite (lt_of_le_of_ne hnonneg (Ne.symm hne))
  rw [beq_zero_iff_toRat (bounded_modulus hh hneg).finite] at hi
  rw [modulus] at hi
  rw [hi] at hroot
  exact absurd hroot (not_le.2 (zpow_pos two_pos _))

/-- The argument of the inverse cosine is a number unless `g` and the discriminant are zero. -/
theorem isNaN_ratio (hne : ¬ ((g == 0.0) = true ∧ (discriminant f g == 0.0) = true)) :
    (-(g / (2.0 * modulus g (discriminant f g)))).isNaN = false := by
  have htwo : IsInt 2.0 2 := isInt_of_isNat (by decide)
  have hi := bounded_modulus hh hneg
  have hg := bounded_constant hh
  have hdouble : ((2.0 * modulus g (discriminant f g)) == 0.0) = true →
      (modulus g (discriminant f g) == 0.0) = true := by
    intro hz
    by_contra hne
    have hmod := le_abs_toRat (toRat_ne_zero hi.finite (Bool.eq_false_iff.2 hne))
    rw [mul_beq_zero_of_le htwo.finite hi.finite] at hz
    · cases hz
    · rw [htwo.toRat_eq, abs_mul]
      exact hmod.trans (le_mul_of_one_le_left (abs_nonneg _) (by norm_num))
  rw [isNaN_neg, ← Bool.not_eq_true, isNaN_div_iff]
  rintro (hn | hn | ⟨hn, -⟩ | ⟨hn, hz⟩)
  · rw [isNaN_eq_false_of_isFinite hg.finite] at hn
    cases hn
  · rw [isNaN_mul_of_isFinite htwo.finite hi.finite] at hn
    cases hn
  · have hf := hg.finite
    rw [isFinite_eq_false_of_isInf hn] at hf
    cases hf
  · exact hne ⟨hn, discriminant_beq_zero hh hneg (hdouble hz)⟩

/-- The trigonometric formula gives finite numbers. -/
theorem bounded_trigonometricRoots (hfn : fn.Regular)
    (hne : ¬ ((g == 0.0) = true ∧ (discriminant f g == 0.0) = true)) :
    ∀ t ∈ trigonometricRoots fn g (discriminant f g), Bounded t 516 := by
  have htwo : IsInt 2.0 2 := isInt_of_isNat (by decide)
  have hthree : IsInt 3.0 3 := isInt_of_isNat (by decide)
  have hclamp := bounded_clampUnit (isNaN_ratio hh hneg hne)
  have hangle : (angle fn g (discriminant f g)).isFinite = true := by
    have hacos := hfn.acos_finite _ hclamp.finite (by simpa using hclamp.le)
    exact ((bounded_of_isFinite hacos).div (l := 1) (by rw [hthree.toRat_eq]; norm_num)
      (by norm_num) (by norm_num)).finite
  have hj := bounded_cbrt hfn (bounded_modulus hh hneg) (by norm_num)
  have hm : Bounded (fn.cos (angle fn g (discriminant f g))) 0 := by
    obtain ⟨hf, hle⟩ := hfn.cos_finite _ hangle
    exact ⟨hf, by simpa using hle⟩
  have hsin : Bounded (fn.sin (angle fn g (discriminant f g))) 0 := by
    obtain ⟨hf, hle⟩ := hfn.sin_finite _ hangle
    exact ⟨hf, by simpa using hle⟩
  have hroot : Bounded (3.0 : Float).sqrt 2 := by
    have hthree' : Bounded 3.0 (2 * 1) := ⟨hthree.finite, by rw [hthree.toRat_eq]; norm_num⟩
    exact hthree'.sqrt (by rw [hthree.toRat_eq]; norm_num)
  have hn := hroot.mul hsin (by norm_num) (by norm_num)
  have htwo' : Bounded 2.0 1 := ⟨htwo.finite, by rw [htwo.toRat_eq]; norm_num⟩
  intro t ht
  simp only [trigonometricRoots, List.mem_cons, List.not_mem_nil, or_false] at ht
  rcases ht with rfl | rfl | rfl
  · exact ((htwo'.mul hj (by norm_num) (by norm_num)).mul hm (by norm_num) (by norm_num)).mono
      (by norm_num)
  · exact (hj.neg.mul ((hm.mono (by norm_num)).add hn (by norm_num) (by norm_num))
      (by norm_num) (by norm_num)).mono (by norm_num)
  · exact (hj.neg.mul ((hm.mono (by norm_num)).sub hn (by norm_num) (by norm_num))
      (by norm_num) (by norm_num)).mono (by norm_num)

end Negative

theorem bounded_singleRoot (hfn : fn.Regular) (hh : (discriminant f g).isFinite = true)
    (hpos : 0.0 < discriminant f g) : Bounded (singleRoot fn g (discriminant f g)) 515 := by
  have hzero : IsInt 0.0 0 := isInt_zero_of_beq (by decide)
  have htwo : IsInt 2.0 2 := isInt_of_isNat (by decide)
  have hnonneg : 0 ≤ toRat (discriminant f g) := by
    rw [lt_iff_toRat hzero.finite hh, hzero.toRat_eq, Int.cast_zero] at hpos
    exact hpos.le
  have hroot : Bounded (discriminant f g).sqrt (512 + 1) :=
    Bounded.sqrt (bounded_of_isFinite hh) hnonneg
  have hhalf : Bounded (-(g / 2.0)) 513 :=
    ((bounded_constant hh).div (l := 1) (by rw [htwo.toRat_eq]; norm_num) (by norm_num)
      (by norm_num)).neg.mono (by norm_num)
  exact (bounded_cbrt hfn (hhalf.add hroot (by norm_num) (by norm_num)) (by norm_num)).add
    (bounded_cbrt hfn (hhalf.sub hroot (by norm_num) (by norm_num)) (by norm_num)) (by norm_num)
    (by norm_num)

/-! ## The shift back -/

/-- The leading coefficient is not so small that its cube would vanish. -/
theorem le_abs_leading (hg : (depressedConstant a b c d).isFinite = true) :
    a.isInf = true ∨ a.isFinite = true ∧ 2 ^ (-488 : ℤ) ≤ |toRat a| := by
  have hquot := (isFinite_of_sub (isFinite_of_add (isFinite_of_div hg).1).1).1
  obtain ⟨-, hcube, hnan⟩ := isFinite_of_div hquot
  rcases finite_or_isInf_or_isNaN a with ha | ha | ha
  · refine Or.inr ⟨ha, ?_⟩
    by_contra! hlt
    have hsmall : Bounded a (-488) := ⟨ha, hlt.le⟩
    have hsquare := hsmall.mul hsmall (by norm_num) (by norm_num)
    have hone := bounded_one.mul hsmall (by norm_num) (by norm_num)
    have hprod : |toRat (1.0 * a) * toRat (a * a)| < 2 ^ (-1075 : ℤ) := by
      rw [abs_mul]
      calc |toRat (1.0 * a)| * |toRat (a * a)| ≤ 2 ^ (0 + -488 : ℤ) * 2 ^ (-488 + -488 : ℤ) :=
            mul_le_mul hone.le hsquare.le (abs_nonneg _) (zpow_pos two_pos _).le
        _ = 2 ^ (-1464 : ℤ) := by rw [← zpow_add₀ two_ne_zero]; rfl
        _ < 2 ^ (-1075 : ℤ) := zpow_lt_zpow_right₀ one_lt_two (by norm_num)
    have hvanish := rounded_eq_zero hprod
    have hfinite := (toRat_mul hone.finite hsquare.finite
      (by rw [hvanish, abs_zero]; exact zpow_pos two_pos _))
    rw [hvanish] at hfinite
    have hbeq := (beq_zero_iff_toRat hfinite.1).2 hfinite.2
    rw [← pow_three] at hbeq
    rw [hbeq] at hcube
    cases hcube
  · exact Or.inl ha
  · rw [pow_three, isNaN_mul_iff.2 (Or.inl (isNaN_mul_iff.2 (Or.inr (Or.inl ha))))] at hnan
    cases hnan

/-- The coefficient of the square is small enough for its cube. -/
theorem bounded_square_coefficient (hg : (depressedConstant a b c d).isFinite = true) :
    Bounded b 512 := by
  have hquot := (isFinite_of_sub (isFinite_of_add (isFinite_of_div hg).1).1).1
  have hcube := (isFinite_of_mul (isFinite_of_div hquot).1).2
  rw [pow_three] at hcube
  exact bounded_of_isFinite_mul_self (isFinite_of_mul hcube).2

theorem bounded_shift (hg : (depressedConstant a b c d).isFinite = true) :
    Bounded (b / (3.0 * a)) 1000 := by
  have hthree : IsInt 3.0 3 := isInt_of_isNat (by decide)
  have hb := bounded_square_coefficient hg
  have hnumber : (3.0 * a).isNaN = false := by
    rcases le_abs_leading hg with hi | ⟨ha, -⟩
    · rw [← Bool.not_eq_true, isNaN_mul_iff, isNaN_eq_false_of_isInf hi,
        isNaN_eq_false_of_isFinite hthree.finite, beq_zero_eq_false_of_isInf hi]
      simp [hthree.beq_zero]
    · exact isNaN_mul_of_isFinite hthree.finite ha
  rcases finite_or_isInf_or_isNaN (3.0 * a) with ht | ht | ht
  · have hlow : 2 ^ (-488 : ℤ) ≤ |toRat (3.0 * a)| := by
      have ha := (isFinite_of_mul ht).2
      rw [toRat_mul_of_isFinite ht, hthree.toRat_eq]
      refine le_abs_rounded (by norm_num) ?_
      rw [abs_mul]
      rcases le_abs_leading hg with hi | ⟨-, hlow⟩
      · rw [isFinite_eq_false_of_isInf hi] at ha
        cases ha
      · exact hlow.trans (le_mul_of_one_le_left (abs_nonneg _) (by norm_num))
    exact hb.div hlow (by norm_num) (by norm_num)
  · exact bounded_of_beq_zero (div_beq_zero_of_isInf hb.finite ht)
  · rw [ht] at hnumber
    cases hnumber

/-- Rounding keeps more than a sixteenth of a multiple by `27`. -/
theorem le_abs_rounded_mul (x : Float) :
    16 * |toRat x| ≤ |rounded (27 * toRat x)| := by
  by_cases h₀ : toRat x = 0
  · rw [h₀, abs_zero, mul_zero]
    exact abs_nonneg _
  have hleast : (2 : ℚ) ^ (-1075 : ℤ) ≤ |toRat x| :=
    (zpow_le_zpow_right₀ one_le_two (by norm_num)).trans (le_abs_toRat h₀)
  have herror := abs_le_of_abs_sub_le' (abs_rounded_sub_le_mul (27 * toRat x))
  have hmul : |27 * toRat x| = 27 * |toRat x| := by rw [abs_mul]; norm_num
  rw [hmul] at herror
  nlinarith [roundoff_le, abs_nonneg (toRat x)]

theorem bounded_quotient (hg : (depressedConstant a b c d).isFinite = true) :
    Bounded (d / a) 1020 := by
  have hint : IsInt 27.0 27 := isInt_of_isNat (by decide)
  have hquot := (isFinite_of_add (isFinite_of_div hg).1).2
  obtain ⟨hprod, hz, -⟩ := isFinite_of_div hquot
  have hd := (isFinite_of_mul hprod).2
  rcases le_abs_leading hg with hi | ⟨ha, -⟩
  · exact bounded_of_beq_zero (div_beq_zero_of_isInf hd hi)
  have ha₀ := toRat_ne_zero ha hz
  have hsize : |toRat d / toRat a| ≤ 2 ^ (1020 : ℤ) := by
    have hlt : |toRat (27.0 * d) / toRat a| < 2 ^ (1024 : ℤ) := by
      by_contra! hle
      have := le_abs_rounded (by norm_num) hle
      rw [← toRat_div_of_isFinite hquot] at this
      exact absurd (abs_toRat_lt _) (not_lt.2 this)
    rw [toRat_mul_of_isFinite hprod, hint.toRat_eq, abs_div, div_lt_iff₀ (abs_pos.2 ha₀)] at hlt
    rw [abs_div, div_le_iff₀ (abs_pos.2 ha₀)]
    have hmul := le_abs_rounded_mul d
    have hpow : (2 : ℚ) ^ (1024 : ℤ) = 16 * 2 ^ (1020 : ℤ) := by
      rw [show (1024 : ℤ) = 4 + 1020 from rfl, zpow_add₀ two_ne_zero]
      norm_num
    rw [hpow, mul_assoc] at hlt
    exact (lt_of_mul_lt_mul_left (hmul.trans_lt hlt) (by norm_num)).le
  obtain ⟨hf, hv⟩ := toRat_div hd ha₀ (abs_rounded_lt (by norm_num) (by norm_num) hsize)
  exact ⟨hf, by rw [hv]; exact abs_rounded_le (by norm_num) hsize⟩

/-! ## The values of the cubic formula -/

/-- The cube of `f` has vanished beside a `g` that is zero. -/
def Vanishes (f g : Float) : Prop :=
  (f == 0.0) = false ∧ (g == 0.0) = true ∧ (discriminant f g == 0.0) = true

instance : Decidable (Vanishes f g) := inferInstanceAs (Decidable (_ ∧ _ ∧ _))

/-- With a finite discriminant all values are finite, unless the cube of `f` has vanished. -/
theorem bounded_solveCubic (hfn : fn.Regular)
    (hh : (discriminant (depressedLinear a b c) (depressedConstant a b c d)).isFinite = true)
    (hne : ¬ Vanishes (depressedLinear a b c) (depressedConstant a b c d)) :
    ∀ x ∈ solveCubic fn a b c d, Bounded x 1020 := by
  rw [solveCubic_eq]
  have hg := (bounded_constant hh).finite
  have hshift := bounded_shift hg
  generalize depressedLinear a b c = f at hh hne ⊢
  simp only
  split_ifs with hpos hzero
  · intro x hx
    rw [List.mem_singleton.1 hx]
    exact (((bounded_singleRoot hfn hh hpos).mono (by norm_num)).sub hshift (by norm_num)
      (by norm_num)).mono (by norm_num)
  · intro x hx
    rw [List.eq_of_mem_replicate hx]
    exact (bounded_cbrt hfn (bounded_quotient hg) (by norm_num)).neg
  · intro x hx
    obtain ⟨t, ht, rfl⟩ := List.mem_map.1 hx
    refine (((bounded_trigonometricRoots hh hpos hfn ?_ t ht).mono (by norm_num)).sub hshift
      (by norm_num) (by norm_num)).mono (by norm_num)
    rintro ⟨hgz, hhz⟩
    refine hne ⟨?_, hgz, hhz⟩
    simpa [hgz, hhz] using hzero

theorem isNaN_trigonometricRoots (hfn : fn.Regular)
    (hnan : (modulus g h).isNaN = true ∨ (angle fn g h).isNaN = true) :
    ∀ t ∈ trigonometricRoots fn g h, t.isNaN = true := by
  intro t ht
  simp only [trigonometricRoots, List.mem_cons, List.not_mem_nil, or_false] at ht
  rcases hnan with hi | hangle
  · have hj := hfn.cbrt_nan _ hi
    have hneg : (-fn.cbrt (modulus g h)).isNaN = true := by rwa [isNaN_neg]
    rcases ht with rfl | rfl | rfl
    · exact isNaN_mul_left (isNaN_mul_right _ hj) _
    · exact isNaN_mul_left hneg _
    · exact isNaN_mul_left hneg _
  · have hm := hfn.cos_nan _ hangle
    rcases ht with rfl | rfl | rfl
    · exact isNaN_mul_right _ hm
    · exact isNaN_mul_right _ (isNaN_add_left hm _)
    · exact isNaN_mul_right _ (isNaN_sub_left hm _)

/-- An infinite discriminant leaves a difference of infinities. -/
theorem isNaN_singleRoot (hfn : fn.Regular) (hg : g.isNaN = false) :
    (singleRoot fn g infinity).isNaN = true := by
  have hroot : infinity.sqrt = infinity := by decide
  have hinf : infinity.isInf = true := by decide
  have hneg : (-infinity).isInf = true := by decide
  have hhalf : (-(g / 2.0)).isNaN = false := by
    have htwo : (2.0 : Float).isNaN = false ∧ (2.0 : Float).isInf = false ∧
        ((2.0 : Float) == 0.0) = false := by decide
    rw [isNaN_neg, ← Bool.not_eq_true, isNaN_div_iff, hg, htwo.1, htwo.2.1, htwo.2.2]
    simp only [Bool.false_eq_true, and_false, or_self, not_false_eq_true]
  unfold singleRoot
  rw [hroot]
  rcases finite_or_isInf_or_isNaN (-(g / 2.0)) with hp | hp | hp
  · rw [sub_eq_add_neg_float, add_of_isInf hp hinf, add_of_isInf hp hneg,
      hfn.cbrt_infinity _ hinf, hfn.cbrt_infinity _ hneg]
    decide
  · rcases eq_or_eq_neg_of_isInf hp hinf with heq | heq
    · exact isNaN_add_right _ (hfn.cbrt_nan _ (by rw [heq]; decide))
    · exact isNaN_add_left (hfn.cbrt_nan _ (by rw [heq]; decide)) _
  · rw [hp] at hhalf
    cases hhalf

/-- The angle is undefined where both `g` and the discriminant are zero. -/
theorem isNaN_angle (hfn : fn.Regular) (hg : (g == 0.0) = true) (hh : (h == 0.0) = true) :
    (angle fn g h).isNaN = true := by
  have hg' := isInt_zero_of_beq hg
  have hh' := isInt_zero_of_beq hh
  have hfour : IsInt 4.0 4 := isInt_of_isNat (by decide)
  have htwo : IsInt 2.0 2 := isInt_of_isNat (by decide)
  have hsquare : IsInt (g * g / 4.0) 0 := by
    have hprod := hg'.mul hg' (by norm_num)
    exact IsInt.div (n := 4) hprod hfour (by norm_num) (by norm_num)
  have hoperand : IsInt (g * g / 4.0 - h) 0 := by
    rw [sub_eq_add_neg_float]
    exact hsquare.add hh'.neg (by norm_num)
  have hmodulus : IsInt (modulus g h) 0 := by
    obtain ⟨hf, -, hle⟩ := sqrt_spec hoperand.finite (by rw [hoperand.toRat_eq]; norm_num)
    rw [hoperand.toRat_eq, Int.cast_zero, mul_zero, sub_zero, abs_nonpos_iff] at hle
    exact ⟨hf, by rw [modulus, pow_eq_zero_iff two_ne_zero |>.1 hle, Int.cast_zero]⟩
  have hdouble := (htwo.mul hmodulus (by norm_num)).beq_zero.2 rfl
  have hratio : (-(g / (2.0 * modulus g h))).isNaN = true := by
    rw [isNaN_neg]
    exact isNaN_div_iff.2 (Or.inr (Or.inr (Or.inr ⟨hg, hdouble⟩)))
  refine isNaN_div_left (hfn.acos_nan _ ?_) _
  rwa [clampUnit_of_isNaN hratio]

/-- The value is NaN everywhere if the discriminant is NaN or positive infinity, or the cube of `f`
has vanished. -/
theorem isNaN_solveCubic (hfn : fn.Regular)
    (hh : (discriminant (depressedLinear a b c) (depressedConstant a b c d)).isNaN = true ∨
      discriminant (depressedLinear a b c) (depressedConstant a b c d) = infinity ∨
      Vanishes (depressedLinear a b c) (depressedConstant a b c d)) :
    ∀ x ∈ solveCubic fn a b c d, x.isNaN = true := by
  rw [solveCubic_eq]
  generalize depressedLinear a b c = f at hh ⊢
  generalize depressedConstant a b c d = g at hh ⊢
  simp only
  have htrig (hnan : (modulus g (discriminant f g)).isNaN = true ∨
      (angle fn g (discriminant f g)).isNaN = true) :
      ∀ x ∈ (trigonometricRoots fn g (discriminant f g)).map (· - b / (3.0 * a)),
        x.isNaN = true := by
    intro x hx
    obtain ⟨t, ht, rfl⟩ := List.mem_map.1 hx
    exact isNaN_sub_left (isNaN_trigonometricRoots hfn hnan t ht) _
  rcases hh with hnan | hinf | ⟨hf, hg, hh⟩
  · rw [if_neg (not_lt_of_isNaN_right _ hnan), beq_zero_eq_false_of_isNaN hnan, Bool.and_false,
      if_neg Bool.false_ne_true]
    exact htrig (Or.inl (isNaN_sqrt_iff.2 (Or.inl (isNaN_sub_right _ hnan))))
  · have hg : g.isNaN = false := by
      by_contra hg
      rw [Bool.not_eq_false] at hg
      have hnan : (discriminant f g).isNaN = true :=
        isNaN_add_left (isNaN_div_left (isNaN_mul_left hg _) _) _
      rw [hinf] at hnan
      exact absurd hnan (by decide)
    rw [hinf, if_pos (by decide)]
    intro x hx
    rw [List.mem_singleton.1 hx]
    exact isNaN_sub_left (isNaN_singleRoot hfn hg) _
  · have hpos : ¬ 0.0 < discriminant f g := by
      rw [(Agree.refl 0.0).lt_iff (Or.inr ⟨hh, by decide⟩ : Agree (discriminant f g) 0.0)]
      decide
    rw [if_neg hpos, hf, Bool.false_and, Bool.false_and, if_neg Bool.false_ne_true]
    exact htrig (Or.inr (isNaN_angle hfn hg hh))

theorem isFinite_of_cbrt (hfn : fn.Regular) (h : (fn.cbrt x).isFinite = true) :
    x.isFinite = true := by
  rcases finite_or_isInf_or_isNaN x with hx | hx | hx
  · exact hx
  · rwa [hfn.cbrt_infinity x hx] at h
  · rw [isFinite_eq_false_of_isNaN (hfn.cbrt_nan x hx)] at h
    cases h

/-- Values without a bound come from a discriminant without a bound. -/
theorem isFinite_of_trigonometricRoot (hfn : fn.Regular) :
    ∀ t ∈ trigonometricRoots fn g h, t.isFinite = true → h.isFinite = true := by
  intro t ht hfinite
  have hj : (fn.cbrt (modulus g h)).isFinite = true := by
    simp only [trigonometricRoots, List.mem_cons, List.not_mem_nil, or_false] at ht
    rcases ht with rfl | rfl | rfl
    · exact (isFinite_of_mul (isFinite_of_mul hfinite).1).2
    · rw [← isFinite_neg]
      exact (isFinite_of_mul hfinite).1
    · rw [← isFinite_neg]
      exact (isFinite_of_mul hfinite).1
  exact (isFinite_of_sub (isFinite_of_sqrt (isFinite_of_cbrt hfn hj)).1).2

/-- No value is finite if the discriminant is negative infinity. -/
theorem isFinite_solveCubic (hfn : fn.Regular)
    (hh : discriminant (depressedLinear a b c) (depressedConstant a b c d) = -infinity) :
    ∀ x ∈ solveCubic fn a b c d, x.isFinite = false := by
  rw [solveCubic_eq]
  simp only
  have hzero : (-infinity == 0.0) = false := by decide
  rw [hh, if_neg (by decide), hzero, Bool.and_false, if_neg Bool.false_ne_true]
  intro x hx
  obtain ⟨t, ht, rfl⟩ := List.mem_map.1 hx
  by_contra hfinite
  rw [Bool.not_eq_false] at hfinite
  have := isFinite_of_trigonometricRoot hfn t ht (isFinite_of_sub hfinite).1
  exact absurd this (by decide)

/-! ## The values of the quartic formula -/

/-- The linear part of the quartic polynomial without its cube. -/
def quarticLinear (b c d : Float) : Float := d + pow b 3 / 8.0 - b * c / 2.0

/-- The coefficients below the cube of the resolvent. -/
def resolventCoefficients (b c d e : Float) : Float × Float × Float :=
  let f := c - 3.0 * b * b / 8.0
  let g := quarticLinear b c d
  let h := e - 3.0 * pow b 4 / 256.0 + b * b * (c / 16.0) - b * d / 4.0
  (f / 2.0, (f * f - 4.0 * h) / 16.0, -(g * g) / 64.0)

/-- The snapped roots of the resolvent other than zero. -/
def resolventRoots (fn : Elementary) (policy : SnapPolicy) (b c d e : Float) : List Float :=
  let (b', c', d') := resolventCoefficients b c d e
  (policy.snapAll (solveCubic fn 1.0 b' c' d')).filter fun y => y != 0.0

/-- The discriminant of the resolvent. -/
def resolventDiscriminant (b c d e : Float) : Float :=
  let (b', c', d') := resolventCoefficients b c d e
  discriminant (depressedLinear 1.0 b' c') (depressedConstant 1.0 b' c' d')

theorem solveQuartic_eq (fn : Elementary) (policy : SnapPolicy) (b c d e : Float) :
    solveQuartic fn policy b c d e =
      match (resolventRoots fn policy b c d e).map Float.sqrt with
      | p :: q :: _ =>
        let r := -quarticLinear b c d / (8.0 * p * q)
        let s := b / 4.0
        [p + q + r - s, p - q - r - s, -p + q - r - s, -p - q + r - s]
      | _ => [] := rfl

section Quartic

variable {e : Float} {policy : SnapPolicy} {rest : List Float}

theorem mem_resolventRoots (hx : x ∈ resolventRoots fn policy b c d e) :
    (x == 0.0) = false ∧ ∃ v ∈ solveCubic fn 1.0 (resolventCoefficients b c d e).1
      (resolventCoefficients b c d e).2.1 (resolventCoefficients b c d e).2.2,
      x = policy.snap v := by
  obtain ⟨hx, hz⟩ := List.mem_filter.1 hx
  obtain ⟨v, hv, rfl⟩ := List.mem_map.1 hx
  exact ⟨by simpa [bne] using hz, v, hv, rfl⟩

/-- A resolvent root that is not positive has no square root, which enters into all four values. -/
theorem isNaN_solveQuartic (h : resolventRoots fn policy b c d e = x :: y :: rest)
    (hne : ¬ (0.0 < x ∧ 0.0 < y)) : ∀ v ∈ solveQuartic fn policy b c d e, v.isNaN = true := by
  have hmem : x ∈ resolventRoots fn policy b c d e ∧ y ∈ resolventRoots fn policy b c d e := by
    simp [h]
  have hroot : x.sqrt.isNaN = true ∨ y.sqrt.isNaN = true := by
    rcases not_and_or.1 hne with hx | hy
    · exact Or.inl (isNaN_sqrt_of_not_pos (mem_resolventRoots hmem.1).1 hx)
    · exact Or.inr (isNaN_sqrt_of_not_pos (mem_resolventRoots hmem.2).1 hy)
  have hsum : ∀ v w : Float, v.isNaN = true ∨ w.isNaN = true → (v + w).isNaN = true := by
    rintro v w (hv | hw)
    · exact isNaN_add_left hv w
    · exact isNaN_add_right v hw
  have hneg : (-x.sqrt).isNaN = true ∨ y.sqrt.isNaN = true := by rwa [isNaN_neg]
  have hneg' : x.sqrt.isNaN = true ∨ (-y.sqrt).isNaN = true := by rwa [isNaN_neg]
  have hboth : (-x.sqrt).isNaN = true ∨ (-y.sqrt).isNaN = true := by rwa [isNaN_neg, isNaN_neg]
  rw [solveQuartic_eq, h]
  intro v hv
  simp only [List.map_cons, List.mem_cons, List.not_mem_nil, or_false] at hv
  rcases hv with rfl | rfl | rfl | rfl
  · exact isNaN_sub_left (isNaN_add_left (hsum _ _ hroot) _) _
  · rw [sub_eq_add_neg_float x.sqrt]
    exact isNaN_sub_left (isNaN_sub_left (hsum _ _ hneg') _) _
  · exact isNaN_sub_left (isNaN_sub_left (hsum _ _ hneg) _) _
  · rw [sub_eq_add_neg_float (-x.sqrt)]
    exact isNaN_sub_left (isNaN_add_left (hsum _ _ hboth) _) _

/-- A positive root of the resolvent comes from a finite discriminant, or from one that is negative
infinity. -/
theorem isFinite_resolventDiscriminant (hfn : fn.Regular)
    (hh : resolventDiscriminant b c d e ≠ -infinity)
    (hx : x ∈ resolventRoots fn policy b c d e) (hpos : 0.0 < x) :
    (resolventDiscriminant b c d e).isFinite = true ∧ x.isFinite = true := by
  obtain ⟨-, v, hv, rfl⟩ := mem_resolventRoots hx
  have hnumber : v.isNaN ≠ true := by
    rw [← isNaN_snap policy]
    exact fun hnan => not_lt_of_isNaN_right _ hnan hpos
  have hnan := fun hcase => hnumber (isNaN_solveCubic hfn hcase v hv)
  have hfinite : (resolventDiscriminant b c d e).isFinite = true := by
    rcases finite_or_isInf_or_isNaN (resolventDiscriminant b c d e) with h | h | h
    · exact h
    · have hinf : infinity.isInf = true := by decide
      rcases eq_or_eq_neg_of_isInf h hinf with heq | heq
      · exact absurd (Or.inr (Or.inl heq)) hnan
      · exact absurd heq hh
    · exact absurd (Or.inl h) hnan
  refine ⟨hfinite, ?_⟩
  rw [isFinite_snap]
  exact (bounded_solveCubic hfn hfinite (fun hv => hnan (Or.inr (Or.inr hv))) v hv).finite

/-- Where the discriminant of the resolvent is finite, so are the coefficients. -/
theorem isFinite_of_resolventDiscriminant (h : (resolventDiscriminant b c d e).isFinite = true) :
    b.isFinite = true ∧ (quarticLinear b c d).isFinite = true := by
  have hg := (bounded_constant h).finite
  constructor
  · have hb := (isFinite_of_div (bounded_square_coefficient hg).finite).1
    exact (isFinite_of_mul (isFinite_of_div (isFinite_of_sub hb).2).1).2
  · have hd := (isFinite_of_div (isFinite_of_add (isFinite_of_div hg).1).2).1
    have hsquare := (isFinite_of_div (isFinite_of_mul hd).2).1
    rw [isFinite_neg] at hsquare
    exact (isFinite_of_mul hsquare).1

/-- The square root of a positive double with bounds from both sides. -/
theorem bounded_sqrt_of_pos (hx : x.isFinite = true) (hpos : 0.0 < x) :
    Bounded x.sqrt 513 ∧ 2 ^ (-538 : ℤ) ≤ |toRat x.sqrt| := by
  have hzero : IsInt 0.0 0 := isInt_zero_of_beq (by decide)
  rw [lt_iff_toRat hzero.finite hx, hzero.toRat_eq, Int.cast_zero] at hpos
  exact ⟨Bounded.sqrt (k := 512) (bounded_of_isFinite hx) hpos.le,
    (le_toRat_sqrt hx hpos).trans (le_abs_self _)⟩

/-- Positive resolvent roots lead to numbers. -/
theorem isNaN_solveQuartic_of_pos (hfn : fn.Regular)
    (hh : resolventDiscriminant b c d e ≠ -infinity)
    (h : resolventRoots fn policy b c d e = x :: y :: rest) (hx : 0.0 < x) (hy : 0.0 < y) :
    ∀ v ∈ solveQuartic fn policy b c d e, v.isNaN = false := by
  have hmem : x ∈ resolventRoots fn policy b c d e ∧ y ∈ resolventRoots fn policy b c d e := by
    simp [h]
  obtain ⟨hdisc, hxf⟩ := isFinite_resolventDiscriminant hfn hh hmem.1 hx
  obtain ⟨-, hyf⟩ := isFinite_resolventDiscriminant hfn hh hmem.2 hy
  obtain ⟨hb, hg⟩ := isFinite_of_resolventDiscriminant hdisc
  obtain ⟨hp, hplow⟩ := bounded_sqrt_of_pos hxf hx
  obtain ⟨hq, hqlow⟩ := bounded_sqrt_of_pos hyf hy
  have height : IsInt 8.0 8 := isInt_of_isNat (by decide)
  have hfour : IsInt 4.0 4 := isInt_of_isNat (by decide)
  have height' : Bounded 8.0 3 := ⟨height.finite, by rw [height.toRat_eq]; norm_num⟩
  have hproduct := height'.mul hp (by norm_num) (by norm_num)
  have hne : (8.0 * x.sqrt * y.sqrt == 0.0) = false := by
    refine mul_beq_zero_of_le hproduct.finite hq.finite ?_
    have hlow : (2 : ℚ) ^ (-535 : ℤ) ≤ |toRat (8.0 * x.sqrt)| := by
      rw [toRat_mul_of_isFinite hproduct.finite, height.toRat_eq]
      refine le_abs_rounded (by norm_num) ?_
      rw [abs_mul, show (-535 : ℤ) = 3 + -538 from rfl, zpow_add₀ two_ne_zero]
      exact mul_le_mul (by norm_num) hplow (zpow_pos two_pos _).le (abs_nonneg _)
    calc (2 : ℚ) ^ (-1074 : ℤ) ≤ 2 ^ (-535 : ℤ) * 2 ^ (-538 : ℤ) := by
          rw [← zpow_add₀ two_ne_zero]
          exact zpow_le_zpow_right₀ one_le_two (by norm_num)
      _ ≤ |toRat (8.0 * x.sqrt) * toRat y.sqrt| := by
          rw [abs_mul]
          exact mul_le_mul hlow hqlow (zpow_pos two_pos _).le (abs_nonneg _)
  have hr : (-quarticLinear b c d / (8.0 * x.sqrt * y.sqrt)).isNaN = false := by
    rw [← isFinite_neg] at hg
    rw [← Bool.not_eq_true, isNaN_div_iff, isNaN_eq_false_of_isFinite hg,
      isNaN_mul_of_isFinite hproduct.finite hq.finite, hne]
    rintro (h | h | ⟨h, -⟩ | ⟨-, h⟩)
    · cases h
    · cases h
    · rw [isFinite_eq_false_of_isInf h] at hg
      cases hg
    · cases h
  have hs : (b / 4.0).isFinite = true :=
    ((bounded_of_isFinite hb).div (l := 2) (by rw [hfour.toRat_eq]; norm_num) (by norm_num)
      (by norm_num)).finite
  rw [solveQuartic_eq, h]
  intro v hv
  simp only [List.map_cons, List.mem_cons, List.not_mem_nil, or_false] at hv
  rcases hv with rfl | rfl | rfl | rfl
  · have hsum := hp.add hq (by norm_num) (by norm_num)
    rw [isNaN_sub_of_isFinite hs, isNaN_add_of_isFinite hsum.finite, hr]
  · have hdiff := hp.sub hq (by norm_num) (by norm_num)
    rw [isNaN_sub_of_isFinite hs, isNaN_sub_of_isFinite_left hdiff.finite, hr]
  · have hsum := hp.neg.add hq (by norm_num) (by norm_num)
    rw [isNaN_sub_of_isFinite hs, isNaN_sub_of_isFinite_left hsum.finite, hr]
  · have hdiff := hp.neg.sub hq (by norm_num) (by norm_num)
    rw [isNaN_sub_of_isFinite hs, isNaN_add_of_isFinite hdiff.finite, hr]

end Quartic

theorem solveCubic_ne_nil (fn : Elementary) (a b c d : Float) : solveCubic fn a b c d ≠ [] := by
  rw [solveCubic_eq]
  simp only
  split_ifs <;> simp [trigonometricRoots]

end ClosedForm

/-! ## Polynomials -/

namespace Poly

open ClosedForm

/-- When the closed forms give numbers.  The formula for cubic polynomials does, and finite ones, if
its discriminant is finite, unless the cube of `f` has vanished beside a zero `g`; infinite or
undefined are all values for a discriminant of negative infinity, and undefined otherwise.  The
formula for quartic polynomials divides by the square roots of two roots of its resolvent, where it
has so many other than zero, and gives numbers if both are positive; if one is not, all values are
undefined. -/
theorem closedForms_numbers {fn : Elementary} (hfn : fn.Regular) (policy : SnapPolicy) (p : Poly) :
    (p.degree.toInt = 3 → ∃ xs, p.cubicRoots fn policy = .ok xs ∧ xs ≠ [] ∧
      let f := depressedLinear (p.coefficient 3) (p.coefficient 2) (p.coefficient 1)
      let g := depressedConstant (p.coefficient 3) (p.coefficient 2) (p.coefficient 1)
        (p.coefficient 0)
      let h := discriminant f g
      (h.isFinite = true ∧ ¬ Vanishes f g → ∀ x ∈ xs, x.isFinite = true) ∧
      (h = -infinity → ∀ x ∈ xs, x.isFinite = false) ∧
      (h.isNaN = true ∨ h = infinity ∨ Vanishes f g → ∀ x ∈ xs, x.isNaN = true)) ∧
    (p.degree.toInt = 4 → ∃ xs, p.quarticRoots fn policy = .ok xs ∧
      let lead := p.leadingCoefficient
      let b := p.coefficient 3 / lead
      let c := p.coefficient 2 / lead
      let d := p.coefficient 1 / lead
      let e := p.coefficient 0 / lead
      ((∃ y z rest, resolventRoots fn policy b c d e = y :: z :: rest ∧ ¬ (0.0 < y ∧ 0.0 < z)) →
        ∀ x ∈ xs, x.isNaN = true) ∧
      (resolventDiscriminant b c d e ≠ -infinity →
        (∀ y z rest, resolventRoots fn policy b c d e = y :: z :: rest → 0.0 < y ∧ 0.0 < z) →
        ∀ x ∈ xs, x.isNaN = false)) := by
  refine ⟨fun hd => ⟨_, RootFinder.checkDegree_bind hd _, ?_, ?_, ?_, ?_⟩,
    fun hd => ⟨_, RootFinder.checkDegree_bind hd _, ?_, ?_⟩⟩
  · rw [SnapPolicy.snapAll, Ne, List.map_eq_nil_iff]
    exact solveCubic_ne_nil _ _ _ _ _
  · rintro ⟨hh, hne⟩
    refine List.forall_mem_map.2 fun v hv => ?_
    rw [isFinite_snap]
    exact (bounded_solveCubic hfn hh hne v hv).finite
  · intro hh
    refine List.forall_mem_map.2 fun v hv => ?_
    rw [isFinite_snap]
    exact isFinite_solveCubic hfn hh v hv
  · intro hh
    refine List.forall_mem_map.2 fun v hv => ?_
    rw [isNaN_snap]
    exact isNaN_solveCubic hfn hh v hv
  · rintro ⟨y, z, rest, h, hne⟩
    refine List.forall_mem_map.2 fun v hv => ?_
    rw [isNaN_snap]
    exact isNaN_solveQuartic h hne v hv
  · intro hh hpos
    refine List.forall_mem_map.2 fun v hv => ?_
    rw [isNaN_snap]
    rcases roots : resolventRoots fn policy _ _ _ _ with _ | ⟨y, _ | ⟨z, rest⟩⟩
    · rw [solveQuartic_eq, roots] at hv
      cases hv
    · rw [solveQuartic_eq, roots] at hv
      cases hv
    · obtain ⟨hy, hz⟩ := hpos y z rest roots
      exact isNaN_solveQuartic_of_pos hfn hh roots hy hz v hv

/-- Functions with the exact cube roots of `8`, `1`, `0` and `-1`. -/
def sampleFunctions : Elementary where
  cbrt x := if x = 8.0 then 2.0 else x
  acos := id
  cos := clampUnit
  sin := clampUnit

theorem regular_sampleFunctions : sampleFunctions.Regular where
  cbrt_finite x hx := by
    have htwo : IsInt 2.0 2 := isInt_of_isNat (by decide)
    have height : IsInt 8.0 8 := isInt_of_isNat (by decide)
    unfold sampleFunctions
    simp only
    split_ifs with h
    · rw [h, htwo.toRat_eq, height.toRat_eq]
      exact ⟨htwo.finite, by norm_num⟩
    · exact ⟨hx, le_max_right _ _⟩
  cbrt_infinity x hx := if_neg fun h => by rw [h] at hx; exact absurd hx (by decide)
  cbrt_nan x hx := by
    unfold sampleFunctions
    simp only
    rwa [if_neg fun h => by rw [h] at hx; exact absurd hx (by decide)]
  acos_finite x hx _ := hx
  acos_nan x hx := hx
  cos_finite x hx := by
    have h := bounded_clampUnit (isNaN_eq_false_of_isFinite hx)
    exact ⟨h.finite, h.le.trans_eq (zpow_zero 2)⟩
  cos_nan x hx := by
    show (clampUnit x).isNaN = true
    rwa [clampUnit_of_isNaN hx]
  sin_finite x hx := by
    have h := bounded_clampUnit (isNaN_eq_false_of_isFinite hx)
    exact ⟨h.finite, h.le.trans_eq (zpow_zero 2)⟩

/-- No root of `x ^ 3 - 1e-120 * x` is a number, but the one of `x ^ 3 - 6 * x - 9` is, and so are
those of `(x - 1) ^ 3 * (x + 3)`. -/
theorem closedForms_numbers_sample :
    (∃ xs, (ofTerms [⟨1.0, 3⟩, ⟨-1e-120, 1⟩]).cubicRoots sampleFunctions .standard = .ok xs ∧
      xs ≠ [] ∧ ∀ x ∈ xs, x.isNaN = true) ∧
    (∃ xs, (ofTerms [⟨1.0, 3⟩, ⟨-6.0, 1⟩, ⟨-9.0, 0⟩]).cubicRoots sampleFunctions .standard =
      .ok xs ∧ xs ≠ [] ∧ ∀ x ∈ xs, x.isFinite = true) ∧
    ∃ xs, (ofTerms [⟨1.0, 4⟩, ⟨-6.0, 2⟩, ⟨8.0, 1⟩, ⟨-3.0, 0⟩]).quarticRoots sampleFunctions
      .standard = .ok xs ∧ ∀ x ∈ xs, x.isNaN = false := by
  have h := fun p => closedForms_numbers regular_sampleFunctions .standard p
  refine ⟨?_, ?_, ?_⟩
  · obtain ⟨xs, hxs, hne, -, -, hnan⟩ :=
      (h (ofTerms [⟨1.0, 3⟩, ⟨-1e-120, 1⟩])).1 (by decide +kernel)
    exact ⟨xs, hxs, hne, hnan (by decide +kernel)⟩
  · obtain ⟨xs, hxs, hne, hfinite, -, -⟩ :=
      (h (ofTerms [⟨1.0, 3⟩, ⟨-6.0, 1⟩, ⟨-9.0, 0⟩])).1 (by decide +kernel)
    exact ⟨xs, hxs, hne, hfinite (by decide +kernel)⟩
  · obtain ⟨xs, hxs, -, hnumbers⟩ :=
      (h (ofTerms [⟨1.0, 4⟩, ⟨-6.0, 2⟩, ⟨8.0, 1⟩, ⟨-3.0, 0⟩])).2 (by decide +kernel)
    refine ⟨xs, hxs, hnumbers (by decide +kernel) fun y z rest hroots => ?_⟩
    have hlist : y :: z :: rest = [1.0, 1.0, 1.0] := hroots.symm.trans (by decide +kernel)
    injection hlist with hy hlist
    injection hlist with hz _
    rw [hy, hz]
    decide

end Poly

end SparsePoly
