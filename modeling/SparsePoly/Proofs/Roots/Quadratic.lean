import Mathlib
import SparsePoly.Proofs.Binary64.SquareRoot
import SparsePoly.Proofs.Calculus.Dense
import SparsePoly.Proofs.Poly.Descent
import SparsePoly.Roots.ClosedForm

/-!
# The error of the quadratic formula

The roots that the formula computes for `a * x ^ 2 + b * x + c` need not be near the exact roots,
because rounding can move two roots that are near one another by much more than its unit.  They are
near the roots `t₁` and `t₂` of a polynomial with the same leading coefficient, though, and the
values that are computed for `a * x ^ 2 + b * x + c` are near the values `a * (x - t₁) * (x - t₂)`
(`exists_shadow`).  All bounds are relative to the size `Y` of the computed roots, as long as the
square of the leading coefficient is not tiny.  The value of a quadratic polynomial has the sign of
the value computed from the coefficients, also where terms are missing (`Valid.sign_eval`).
-/

namespace SparsePoly

open Binary64

namespace ClosedForm

/-! ## The steps of the formula

The lemmas are about rational numbers and `rounded`.  They take the bound on the computed roots
back to bounds on the coefficients first, because an error is relative to the size of what is
rounded. -/

variable {A B C D E S M Y k n y : ℚ}

theorem tiny_le_square (h : 2 ^ (-511 : ℤ) ≤ M) : 2 ^ (-1022 : ℤ) ≤ M ^ 2 := by
  have hpos : (0 : ℚ) < 2 ^ (-511 : ℤ) := zpow_pos two_pos _
  calc (2 : ℚ) ^ (-1022 : ℤ) = 2 ^ (-511 : ℤ) * 2 ^ (-511 : ℤ) := by
        rw [← zpow_add₀ two_ne_zero]
        rfl
    _ ≤ M ^ 2 := by nlinarith

theorem tiny_le (h : 2 ^ (-511 : ℤ) ≤ M) : 2 ^ (-1022 : ℤ) ≤ M :=
  (zpow_le_zpow_right₀ one_le_two (by norm_num)).trans h

theorem tiny_le_of_one_le (h : 1 ≤ M) : 2 ^ (-1022 : ℤ) ≤ M :=
  (zpow_le_one_of_nonpos₀ one_le_two (by norm_num)).trans h

theorem le_abs_mul (hA : 2 ^ (-511 : ℤ) ≤ |A|) (hY : 1 ≤ Y) : 2 ^ (-511 : ℤ) ≤ |A| * Y :=
  hA.trans (le_mul_of_one_le_right (abs_nonneg A) hY)

/-- A multiple of the leading coefficient after it has been rounded. -/
theorem multiple_near (hk : 1 ≤ k) (hA : 2 ^ (-1022 : ℤ) ≤ |A|) :
    999 / 1000 * (k * |A|) ≤ |rounded (k * A)| ∧ |rounded (k * A)| ≤ 1001 / 1000 * (k * |A|) ∧
      |rounded (k * A) - k * A| ≤ roundoff * (k * |A|) := by
  have hsize : |k * A| = k * |A| := by rw [abs_mul, abs_of_nonneg (zero_le_one.trans hk)]
  have hscale : (2 : ℚ) ^ (-1022 : ℤ) ≤ |k * A| :=
    hsize ▸ hA.trans (le_mul_of_one_le_left (abs_nonneg A) hk)
  rw [← hsize]
  exact ⟨(abs_rounded_near hscale).1, (abs_rounded_near hscale).2,
    abs_rounded_sub_le_of_abs_le hscale le_rfl⟩

/-- The scale of the quotient that a computed root is, and its rounded denominator `E`. -/
theorem quotient_scale (hA : 2 ^ (-511 : ℤ) ≤ |A|) (hY : 1 ≤ Y) (hE : E = rounded (2 * A)) :
    0 < |A| * Y ∧ 2 ^ (-1022 : ℤ) ≤ |A| * Y ∧
      E ≠ 0 ∧ |E| ≤ 1001 / 1000 * (2 * |A|) ∧ |E - 2 * A| ≤ roundoff * (2 * |A|) := by
  have hA₀ : 0 < |A| := (zpow_pos two_pos _).trans_le hA
  obtain ⟨hlow, hhigh, herror⟩ := multiple_near one_le_two (tiny_le hA)
  rw [← hE] at hlow hhigh herror
  exact ⟨mul_pos hA₀ (zero_lt_one.trans_le hY), tiny_le (le_abs_mul hA hY),
    abs_pos.1 (by linarith), hhigh, herror⟩

/-- A computed root tells the size of the quotient that was rounded, and of its numerator. -/
theorem quotient_sizes (hA : 2 ^ (-511 : ℤ) ≤ |A|) (hY : 1 ≤ Y)
    (h : |rounded (rounded n / rounded (2 * A))| ≤ Y) :
    |rounded n / rounded (2 * A)| ≤ 1001 / 1000 * Y ∧ |n| ≤ 201 / 100 * (|A| * Y) := by
  obtain ⟨E, hE⟩ : ∃ E, E = rounded (2 * A) := ⟨_, rfl⟩
  obtain ⟨q, hq⟩ : ∃ q, q = rounded n / E := ⟨_, rfl⟩
  obtain ⟨hAY, hscale, hE₀, hEhigh, -⟩ := quotient_scale hA hY hE
  rw [← hE, ← hq] at h ⊢
  have hqle : |q| ≤ 1001 / 1000 * Y := abs_le_of_abs_rounded_le (tiny_le_of_one_le hY) h
  have hnumerator : |rounded n| ≤ 2005 / 1000 * (|A| * Y) := by
    rw [show rounded n = q * E by rw [hq, div_mul_cancel₀ _ hE₀], abs_mul]
    calc |q| * |E| ≤ 1001 / 1000 * Y * (1001 / 1000 * (2 * |A|)) :=
          mul_le_mul hqle hEhigh (abs_nonneg _) (by linarith)
      _ ≤ 2005 / 1000 * (|A| * Y) := by linarith
  exact ⟨hqle, by linarith [abs_le_of_abs_rounded_le (by linarith) hnumerator]⟩

/-- The error of a computed root. -/
theorem quotient_near (hA : 2 ^ (-511 : ℤ) ≤ |A|) (hY : 1 ≤ Y)
    (h : |rounded (rounded n / rounded (2 * A))| ≤ Y) :
    |rounded (rounded n / rounded (2 * A)) - n / (2 * A)| ≤ 4 * (roundoff * Y) := by
  obtain ⟨hqle, hnle⟩ := quotient_sizes hA hY h
  obtain ⟨E, hE⟩ : ∃ E, E = rounded (2 * A) := ⟨_, rfl⟩
  obtain ⟨q, hq⟩ : ∃ q, q = rounded n / E := ⟨_, rfl⟩
  obtain ⟨hAY, hscale, hE₀, -, hEerror⟩ := quotient_scale hA hY hE
  rw [← hE, ← hq] at hqle ⊢
  have hYscale := tiny_le_of_one_le hY
  have hden : |2 * A| = 2 * |A| := by rw [abs_mul, abs_two]
  have hA₀ : 0 < |A| := (zpow_pos two_pos _).trans_le hA
  have hden₀ : 2 * A ≠ 0 := abs_pos.1 (by linarith)
  have hqerror : |rounded q - q| ≤ roundoff * (1001 / 1000 * Y) :=
    abs_rounded_sub_le_of_abs_le (by linarith) hqle
  have hnerror : |rounded n - n| ≤ roundoff * (201 / 100 * (|A| * Y)) :=
    abs_rounded_sub_le_of_abs_le (by linarith) hnle
  have hdiff : |q - n / (2 * A)| ≤ 2011 / 1000 * (roundoff * Y) := by
    have hsplit : (q - n / (2 * A)) * (2 * A) = q * (2 * A - E) + (rounded n - n) := by
      rw [sub_mul, div_mul_cancel₀ _ hden₀, show rounded n = q * E by
        rw [hq, div_mul_cancel₀ _ hE₀]]
      ring
    refine le_of_mul_le_mul_right ?_ (abs_pos.2 hden₀)
    rw [← abs_mul, hsplit, hden]
    calc |q * (2 * A - E) + (rounded n - n)| ≤ |q| * |E - 2 * A| + |rounded n - n| := by
          rw [abs_sub_comm E, ← abs_mul]
          exact abs_add_le _ _
      _ ≤ 1001 / 1000 * Y * (roundoff * (2 * |A|)) + roundoff * (201 / 100 * (|A| * Y)) :=
          add_le_add (mul_le_mul hqle hEerror (abs_nonneg _) (by linarith)) hnerror
      _ ≤ 2011 / 1000 * (roundoff * Y) * (2 * |A|) := by linarith [mul_pos roundoff_pos hAY]
  linarith [abs_sub_le (rounded q) q (n / (2 * A)), mul_pos roundoff_pos (zero_lt_one.trans_le hY)]

theorem sq_le_of_abs_le (h : |n| ≤ 201 / 100 * M) : n ^ 2 ≤ 405 / 100 * M ^ 2 := by
  nlinarith [sq_le_sq' (neg_le_of_abs_le h) ((le_abs_self n).trans h)]

theorem abs_mul_self_le (h : |n| ≤ 201 / 100 * M) : |n * n| ≤ 405 / 100 * M ^ 2 := by
  rw [abs_mul_self, ← sq]
  exact sq_le_of_abs_le h

/-- The square root `S` tells the size of the number `D` under it, and of the product that is taken
from the square of `B`. -/
theorem radicand_sizes (hM : 2 ^ (-1022 : ℤ) ≤ M ^ 2) (hA : 2 ^ (-1022 : ℤ) ≤ |A|)
    (hB : |B| ≤ 201 / 100 * M) (hS : |S| ≤ 201 / 100 * M)
    (hD : D = rounded (rounded (B * B) - rounded (rounded (4 * A) * C))) (hD₀ : 0 ≤ D)
    (hroot : |S ^ 2 - D| ≤ 4 * (roundoff * D)) :
    D ≤ 406 / 100 * M ^ 2 ∧
      |rounded (B * B) - rounded (rounded (4 * A) * C)| ≤ 407 / 100 * M ^ 2 ∧
      |rounded (4 * A) * C| ≤ 814 / 100 * M ^ 2 ∧ |A| * |C| ≤ 205 / 100 * M ^ 2 := by
  obtain ⟨F, hF⟩ : ∃ F, F = rounded (4 * A) := ⟨_, rfl⟩
  obtain ⟨W, hW⟩ : ∃ W, W = M ^ 2 := ⟨_, rfl⟩
  rw [← hF] at hD ⊢
  have hSS : S ^ 2 ≤ 405 / 100 * W := hW ▸ sq_le_of_abs_le hS
  have hBB : |B * B| ≤ 405 / 100 * W := hW ▸ abs_mul_self_le hB
  rw [← hW] at hM ⊢
  have hW₀ : 0 < W := (zpow_pos two_pos _).trans_le hM
  have hA₀ : 0 < |A| := (zpow_pos two_pos _).trans_le hA
  have hsquare : |rounded (B * B)| ≤ 406 / 100 * W := by
    have := abs_le_of_abs_sub_le (abs_rounded_sub_le_of_abs_le
      (by linarith : (2 : ℚ) ^ (-1022 : ℤ) ≤ 405 / 100 * W) hBB)
    linarith [roundoff_mul_le hW₀.le]
  have hDle : D ≤ 406 / 100 * W := by linarith [neg_le_of_abs_le hroot, roundoff_mul_le hD₀]
  have hdiff : |rounded (B * B) - rounded (F * C)| ≤ 1001 / 1000 * (406 / 100 * W) := by
    refine abs_le_of_abs_rounded_le (by linarith) ?_
    rwa [← hD, abs_of_nonneg hD₀]
  have hproduct : |rounded (F * C)| ≤ 813 / 100 * W := by linarith [abs_le_of_abs_sub_le' hdiff]
  have hFC := abs_le_of_abs_rounded_le (by linarith) hproduct
  refine ⟨hDle, by linarith, by linarith, ?_⟩
  have hFlow : 999 / 1000 * (4 * |A|) ≤ |F| := hF ▸ (multiple_near (by norm_num) hA).1
  rw [abs_mul] at hFC
  linarith [mul_le_mul_of_nonneg_right hFlow (abs_nonneg C)]

/-- The error of the square of the computed root `S`. -/
theorem radicand_near (hM : 2 ^ (-1022 : ℤ) ≤ M ^ 2) (hA : 2 ^ (-1022 : ℤ) ≤ |A|)
    (hB : |B| ≤ 201 / 100 * M) (hS : |S| ≤ 201 / 100 * M)
    (hD : D = rounded (rounded (B * B) - rounded (rounded (4 * A) * C))) (hD₀ : 0 ≤ D)
    (hroot : |S ^ 2 - D| ≤ 4 * (roundoff * D)) :
    |S ^ 2 - (B ^ 2 - 4 * A * C)| ≤ 45 * (roundoff * M ^ 2) := by
  obtain ⟨hDle, hdiff, hFC, hAC⟩ := radicand_sizes hM hA hB hS hD hD₀ hroot
  obtain ⟨P, hP⟩ : ∃ P, P = rounded (B * B) := ⟨_, rfl⟩
  obtain ⟨F, hF⟩ : ∃ F, F = rounded (4 * A) := ⟨_, rfl⟩
  obtain ⟨R, hR⟩ : ∃ R, R = rounded (F * C) := ⟨_, rfl⟩
  obtain ⟨W, hW⟩ : ∃ W, W = M ^ 2 := ⟨_, rfl⟩
  rw [← hF] at hD hdiff hFC
  rw [← hP, ← hR] at hD hdiff
  have hBB : |B * B| ≤ 405 / 100 * W := hW ▸ abs_mul_self_le hB
  rw [← hW] at hM hDle hdiff hFC hAC ⊢
  have hW₀ : 0 < W := (zpow_pos two_pos _).trans_le hM
  have hA₀ : 0 < |A| := (zpow_pos two_pos _).trans_le hA
  have hDerror : |D - (P - R)| ≤ roundoff * (407 / 100 * W) :=
    hD ▸ abs_rounded_sub_le_of_abs_le (by linarith) hdiff
  have hPerror : |P - B * B| ≤ roundoff * (405 / 100 * W) :=
    hP ▸ abs_rounded_sub_le_of_abs_le (by linarith) hBB
  have hRerror : |R - F * C| ≤ roundoff * (814 / 100 * W) :=
    hR ▸ abs_rounded_sub_le_of_abs_le (by linarith) hFC
  have hCerror : |(F - 4 * A) * C| ≤ roundoff * (820 / 100 * W) := by
    have hFerror : |F - 4 * A| ≤ roundoff * (4 * |A|) :=
      hF ▸ (multiple_near (by norm_num) hA).2.2
    rw [abs_mul]
    linarith [mul_le_mul_of_nonneg_right hFerror (abs_nonneg C),
      mul_le_mul_of_nonneg_left hAC roundoff_pos.le]
  have hsplit : S ^ 2 - (B ^ 2 - 4 * A * C) =
      (S ^ 2 - D) + (D - (P - R)) + (P - B * B) - (R - F * C) - (F - 4 * A) * C := by ring
  have hunit := mul_pos roundoff_pos hW₀
  have hDunit := mul_le_mul_of_nonneg_left hDle roundoff_pos.le
  rw [hsplit, abs_le]
  constructor <;> linarith [abs_le.1 hroot, abs_le.1 hDerror, abs_le.1 hPerror,
    abs_le.1 hRerror, abs_le.1 hCerror]

/-- The value that is computed at `y`. -/
def computedValue (A B C y : ℚ) : ℚ :=
  rounded (rounded (rounded (A * rounded (y * y)) + rounded (B * y)) + C)

/-- The error of a computed value. -/
theorem value_near (hA : 2 ^ (-511 : ℤ) ≤ |A|) (hY : 1 ≤ Y)
    (hB : |B| ≤ 201 / 100 * (|A| * Y)) (hC : |A| * |C| ≤ 205 / 100 * (|A| * Y) ^ 2) (hy : |y| ≤ Y) :
    |computedValue A B C y - (A * y ^ 2 + B * y + C)| ≤ 13 * (roundoff * (|A| * Y ^ 2)) := by
  obtain ⟨Q, hQ⟩ : ∃ Q, Q = rounded (y * y) := ⟨_, rfl⟩
  obtain ⟨P, hP⟩ : ∃ P, P = rounded (A * Q) := ⟨_, rfl⟩
  obtain ⟨L, hL⟩ : ∃ L, L = rounded (B * y) := ⟨_, rfl⟩
  obtain ⟨N, hN⟩ : ∃ N, N = rounded (P + L) := ⟨_, rfl⟩
  obtain ⟨W, hW⟩ : ∃ W, W = |A| * Y ^ 2 := ⟨_, rfl⟩
  rw [computedValue, ← hQ, ← hP, ← hL, ← hN, ← hW]
  have hA₀ : 0 < |A| := (zpow_pos two_pos _).trans_le hA
  have hYY : 1 ≤ Y ^ 2 := one_le_pow₀ hY
  have hscale : (2 : ℚ) ^ (-1022 : ℤ) ≤ W := hW ▸ tiny_le (le_abs_mul hA hYY)
  have hW₀ : 0 < W := (zpow_pos two_pos _).trans_le hscale
  have hsmall := roundoff_mul_le hW₀.le
  have hyy : |y * y| ≤ Y ^ 2 := by
    rw [abs_mul, sq]
    exact mul_le_mul hy hy (abs_nonneg y) (by linarith)
  have hQerror := abs_rounded_sub_le_of_abs_le (tiny_le_of_one_le hYY) hyy
  rw [← hQ] at hQerror
  have hAQ : |A * Q - A * y ^ 2| ≤ roundoff * W := by
    rw [← mul_sub, abs_mul, sq y, hW]
    linarith [mul_le_mul_of_nonneg_left hQerror hA₀.le]
  have hAy : |A * y ^ 2| ≤ W := by
    rw [abs_mul, hW, sq y]
    exact mul_le_mul_of_nonneg_left hyy hA₀.le
  have hAQle := abs_le_of_abs_sub_le hAQ
  have hPerror : |P - A * Q| ≤ roundoff * (1001 / 1000 * W) :=
    hP ▸ abs_rounded_sub_le_of_abs_le (by linarith) (by linarith)
  have hPle := abs_le_of_abs_sub_le hPerror
  have hBy : |B * y| ≤ 201 / 100 * W := by
    rw [abs_mul, hW]
    calc |B| * |y| ≤ 201 / 100 * (|A| * Y) * Y := mul_le_mul hB hy (abs_nonneg y)
          (mul_nonneg (by norm_num) (mul_nonneg hA₀.le (by linarith)))
      _ = 201 / 100 * (|A| * Y ^ 2) := by ring
  have hLerror : |L - B * y| ≤ roundoff * (201 / 100 * W) :=
    hL ▸ abs_rounded_sub_le_of_abs_le (by linarith) hBy
  have hLle := abs_le_of_abs_sub_le hLerror
  have hPL := abs_add_le P L
  have hNerror : |N - (P + L)| ≤ roundoff * (302 / 100 * W) :=
    hN ▸ abs_rounded_sub_le_of_abs_le (by linarith) (by linarith)
  have hNle := abs_le_of_abs_sub_le hNerror
  have hCle : |C| ≤ 205 / 100 * W := by
    refine le_of_mul_le_mul_left ?_ hA₀
    rw [hW]
    linarith
  have hNC := abs_add_le N C
  have herror : |rounded (N + C) - (N + C)| ≤ roundoff * (513 / 100 * W) :=
    abs_rounded_sub_le_of_abs_le (by linarith) (by linarith)
  have hsplit : rounded (N + C) - (A * y ^ 2 + B * y + C) = (rounded (N + C) - (N + C)) +
      (N - (P + L)) + (P - A * Q) + (A * Q - A * y ^ 2) + (L - B * y) := by ring
  have hunit := mul_pos roundoff_pos hW₀
  rw [hsplit, abs_le]
  constructor <;> linarith [abs_le.1 herror, abs_le.1 hNerror, abs_le.1 hPerror, abs_le.1 hAQ,
    abs_le.1 hLerror]

/-! ## The roots that are computed -/

variable {a b c : Float} {t₁ t₂ : ℚ}

/-- The number under the square root. -/
def radicand (a b c : Float) : Float := b * b - 4.0 * a * c

/-- The root with the positive square root. -/
def plusRoot (a b c : Float) : Float := (-b + (radicand a b c).sqrt) / (2.0 * a)

/-- The root with the negative square root. -/
def minusRoot (a b c : Float) : Float := (-b - (radicand a b c).sqrt) / (2.0 * a)

theorem solveQuadratic_eq (a b c : Float) :
    solveQuadratic a b c = [plusRoot a b c, minusRoot a b c] := rfl

/-- A finite root comes from a number under the square root that is finite and not negative. -/
theorem radicand_spec (h : (plusRoot a b c).isFinite = true) :
    (radicand a b c).isFinite = true ∧ 0 ≤ toRat (radicand a b c) := by
  obtain ⟨hf, hnonneg⟩ := isFinite_of_sqrt (isFinite_of_add (isFinite_of_div h).1).2
  have hzero : IsInt 0.0 0 := isInt_zero_of_beq (by decide)
  rw [lt_iff_toRat hf hzero.finite, hzero.toRat_eq, Int.cast_zero, not_lt] at hnonneg
  exact ⟨hf, hnonneg⟩

theorem toRat_radicand (h : (radicand a b c).isFinite = true) : toRat (radicand a b c) =
    rounded (rounded (toRat b * toRat b) - rounded (rounded (4 * toRat a) * toRat c)) := by
  have hfour : IsInt 4.0 4 := isInt_of_isNat (by decide)
  obtain ⟨hsquare, hproduct⟩ := isFinite_of_sub h
  rw [radicand, toRat_sub_of_isFinite h, toRat_mul_of_isFinite hsquare,
    toRat_mul_of_isFinite hproduct, toRat_mul_of_isFinite (isFinite_of_mul hproduct).1,
    hfour.toRat_eq]
  rfl

/-- Twice the leading coefficient is finite, because four times the leading coefficient is. -/
theorem double_spec (h : (radicand a b c).isFinite = true) :
    (2.0 * a).isFinite = true ∧ toRat (2.0 * a) = rounded (2 * toRat a) := by
  have htwo : IsInt 2.0 2 := isInt_of_isNat (by decide)
  have hfour : IsInt 4.0 4 := isInt_of_isNat (by decide)
  have hquadruple := (isFinite_of_mul (isFinite_of_sub h).2).1
  have hlt : |toRat (4.0 * a)| < 2 ^ (1024 : ℤ) := abs_toRat_lt _
  rw [toRat_mul_of_isFinite hquadruple, hfour.toRat_eq, Int.cast_ofNat] at hlt
  have hle : |2 * toRat a| ≤ 2 ^ (1023 : ℤ) := by
    by_contra! hlarge
    refine absurd hlt (not_lt.2 (le_abs_rounded (by norm_num) ?_))
    rw [abs_mul, abs_two] at hlarge
    rw [show (1024 : ℤ) = 1023 + 1 from rfl, zpow_add_one₀ two_ne_zero, abs_mul,
      abs_of_pos four_pos]
    linarith
  have hspec := toRat_mul htwo.finite (isFinite_of_mul hquadruple).2
  rw [htwo.toRat_eq, Int.cast_ofNat] at hspec
  exact hspec (abs_rounded_lt (by norm_num) (by norm_num) hle)

theorem toRat_plusRoot (h : (plusRoot a b c).isFinite = true) : toRat (plusRoot a b c) =
    rounded (rounded (-toRat b + toRat (radicand a b c).sqrt) / rounded (2 * toRat a)) := by
  rw [plusRoot, toRat_div_of_isFinite h, toRat_add_of_isFinite (isFinite_of_div h).1, toRat_neg,
    (double_spec (radicand_spec h).1).2]

theorem toRat_minusRoot (h : (plusRoot a b c).isFinite = true)
    (h' : (minusRoot a b c).isFinite = true) : toRat (minusRoot a b c) =
    rounded (rounded (-toRat b - toRat (radicand a b c).sqrt) / rounded (2 * toRat a)) := by
  rw [minusRoot, toRat_div_of_isFinite h', toRat_sub_of_isFinite (isFinite_of_div h').1, toRat_neg,
    (double_spec (radicand_spec h).1).2]

/-- The coefficients come with computed roots near `t₁` and `t₂`, and with computed values near
those of the polynomial with these roots. -/
structure Shadow (a b c : Float) (Y t₁ t₂ : ℚ) : Prop where
  plus : |toRat (plusRoot a b c) - t₁| ≤ 4 * (roundoff * Y)
  minus : |toRat (minusRoot a b c) - t₂| ≤ 4 * (roundoff * Y)
  ordered : 0 ≤ toRat a * (t₁ - t₂)
  apart : |toRat a| * |t₁ - t₂| ≤ 2 ^ (513 : ℤ)
  linear : |toRat b| ≤ 201 / 100 * (|toRat a| * Y)
  constant : |toRat a| * |toRat c| ≤ 205 / 100 * (|toRat a| * Y) ^ 2
  value : ∀ y, |y| ≤ Y →
    |computedValue (toRat a) (toRat b) (toRat c) y - toRat a * ((y - t₁) * (y - t₂))| ≤
      25 * (roundoff * (|toRat a| * Y ^ 2))

theorem abs_le_of_sum_of_difference {K : ℚ} (hplus : |-B + S| ≤ K) (hminus : |-B - S| ≤ K) :
    |B| ≤ K ∧ |S| ≤ K := by
  rw [abs_le] at hplus hminus
  exact ⟨abs_le.2 ⟨by linarith, by linarith⟩, abs_le.2 ⟨by linarith, by linarith⟩⟩

/-- A computed value is near that of the polynomial whose roots have the square root `S`. -/
theorem value_near_factored (hA : 2 ^ (-511 : ℤ) ≤ |A|) (hY : 1 ≤ Y)
    (hB : |B| ≤ 201 / 100 * (|A| * Y)) (hC : |A| * |C| ≤ 205 / 100 * (|A| * Y) ^ 2)
    (hS : |S ^ 2 - (B ^ 2 - 4 * A * C)| ≤ 45 * (roundoff * (|A| * Y) ^ 2)) (hy : |y| ≤ Y) :
    |computedValue A B C y - A * ((y - (-B + S) / (2 * A)) * (y - (-B - S) / (2 * A)))| ≤
      25 * (roundoff * (|A| * Y ^ 2)) := by
  have hA₀ : A ≠ 0 := abs_pos.1 ((zpow_pos two_pos _).trans_le hA)
  have hsplit : A * y ^ 2 + B * y + C - A * ((y - (-B + S) / (2 * A)) * (y - (-B - S) / (2 * A)))
      = (S ^ 2 - (B ^ 2 - 4 * A * C)) / (4 * A) := by
    field_simp
    ring
  have hdiff : |(S ^ 2 - (B ^ 2 - 4 * A * C)) / (4 * A)| ≤ 12 * (roundoff * (|A| * Y ^ 2)) := by
    rw [abs_div, abs_mul 4 A, abs_of_pos (four_pos (α := ℚ)), div_le_iff₀ (by positivity)]
    linarith [mul_nonneg roundoff_pos.le (sq_nonneg (|A| * Y))]
  have htriangle := abs_sub_le (computedValue A B C y) (A * y ^ 2 + B * y + C)
    (A * ((y - (-B + S) / (2 * A)) * (y - (-B - S) / (2 * A))))
  rw [hsplit] at htriangle
  linarith [value_near hA hY hB hC hy]

/-- Finite computed roots have a shadow. -/
theorem exists_shadow (h : (plusRoot a b c).isFinite = true)
    (h' : (minusRoot a b c).isFinite = true) (ha : 2 ^ (-511 : ℤ) ≤ |toRat a|) (hY : 1 ≤ Y)
    (hplus : |toRat (plusRoot a b c)| ≤ Y) (hminus : |toRat (minusRoot a b c)| ≤ Y) :
    ∃ t₁ t₂, Shadow a b c Y t₁ t₂ := by
  obtain ⟨hfinite, hnonneg⟩ := radicand_spec h
  obtain ⟨-, hsqrt, hsquare⟩ := sqrt_spec hfinite hnonneg
  obtain ⟨A, hA⟩ : ∃ A, A = toRat a := ⟨_, rfl⟩
  obtain ⟨B, hB⟩ : ∃ B, B = toRat b := ⟨_, rfl⟩
  obtain ⟨C, hC⟩ : ∃ C, C = toRat c := ⟨_, rfl⟩
  obtain ⟨S, hS⟩ : ∃ S, S = toRat (radicand a b c).sqrt := ⟨_, rfl⟩
  have hsqrtle : |S| ≤ 2 ^ (513 : ℤ) :=
    hS ▸ ((bounded_of_isFinite hfinite).sqrt (k := 512) hnonneg).le
  have hroot := toRat_radicand hfinite
  have hplus' := toRat_plusRoot h
  have hminus' := toRat_minusRoot h h'
  rw [← hA, ← hB] at hroot hplus' hminus'
  rw [← hC] at hroot
  rw [← hS] at hsqrt hsquare hplus' hminus'
  rw [hplus'] at hplus
  rw [hminus'] at hminus
  rw [← hA] at ha
  have hA₀ : 0 < |A| := (zpow_pos two_pos _).trans_le ha
  have hA' : A ≠ 0 := abs_pos.1 hA₀
  obtain ⟨hBle, hSle⟩ := abs_le_of_sum_of_difference (quotient_sizes ha hY hplus).2
    (quotient_sizes ha hY hminus).2
  have hscale := tiny_le_square (le_abs_mul ha hY)
  have hsquare' : |S ^ 2 - toRat (radicand a b c)| ≤ 4 * (roundoff * toRat (radicand a b c)) := by
    refine hsquare.trans_eq ?_
    rw [roundoff]
    norm_num
    ring
  obtain ⟨-, -, -, hCle⟩ := radicand_sizes hscale (tiny_le ha) hBle hSle hroot hnonneg hsquare'
  have hSnear := radicand_near hscale (tiny_le ha) hBle hSle hroot hnonneg hsquare'
  have hgap : A * ((-B + S) / (2 * A) - (-B - S) / (2 * A)) = S := by
    field_simp
    ring
  refine ⟨(-B + S) / (2 * A), (-B - S) / (2 * A), ?_⟩
  constructor <;> simp only [← hA, ← hB, ← hC, ← abs_mul A (_ - _), hgap, hplus', hminus']
  · exact quotient_near ha hY hplus
  · exact quotient_near ha hY hminus
  · exact hsqrt
  · exact hsqrtle
  · exact hBle
  · exact hCle
  · exact fun y hy => value_near_factored ha hY hBle hCle hSnear hy

/-! ## The values that are computed -/

/-- A value that is computed without overflow. -/
theorem quadraticValue_spec {y : Float} (ha : Bounded a 560) (hb : Bounded b 610)
    (hc : Bounded c 660) (hy : Bounded y 48) :
    (a * (y * y) + b * y + c).isFinite = true ∧
      toRat (a * (y * y) + b * y + c) =
        computedValue (toRat a) (toRat b) (toRat c) (toRat y) := by
  have hyy : Bounded (y * y) 96 := hy.mul hy (by norm_num) (by norm_num)
  have hayy : Bounded (a * (y * y)) 656 := ha.mul hyy (by norm_num) (by norm_num)
  have hby : Bounded (b * y) 658 := hb.mul hy (by norm_num) (by norm_num)
  have hsum : Bounded (a * (y * y) + b * y) 659 :=
    (hayy.mono (by norm_num)).add hby (by norm_num) (by norm_num)
  have hvalue : Bounded (a * (y * y) + b * y + c) 661 :=
    (hsum.mono (by norm_num)).add hc (by norm_num) (by norm_num)
  refine ⟨hvalue.finite, ?_⟩
  rw [toRat_add_of_isFinite hvalue.finite, toRat_add_of_isFinite hsum.finite,
    toRat_mul_of_isFinite hayy.finite, toRat_mul_of_isFinite hby.finite,
    toRat_mul_of_isFinite hyy.finite]
  rfl

end ClosedForm

namespace Poly

open ClosedForm

variable {p : Poly} {y : Float}

/-- The sign of a value of a quadratic polynomial is that of what is computed from its
coefficients, whether or not they are zero. -/
theorem Valid.sign_eval (hp : p.Valid) (hd : p.degree.toInt = 2)
    (hnonneg : ∀ t ∈ p.terms, 0 ≤ t.exponent.toInt) (ha : Bounded (p.coefficient 2) 560)
    (hb : Bounded (p.coefficient 1) 610) (hc : Bounded (p.coefficient 0) 660)
    (hy : Bounded y 48) {v : ℚ} (hv : v = computedValue (toRat (p.coefficient 2))
      (toRat (p.coefficient 1)) (toRat (p.coefficient 0)) (toRat y)) :
    (0.0 < p.eval y ↔ 0 < v) ∧ (p.eval y < 0.0 ↔ v < 0) := by
  have hexponents : ∀ t ∈ p.terms, t.exponent ∈ ([2, 1, 0] : List Exponent) := by
    intro t ht
    have hlow := hnonneg t ht
    have hhigh := Int32.le_iff_toInt_le.1 (hp.le_degree t ht)
    rw [hd] at hhigh
    have hcases : t.exponent.toInt = 2 ∨ t.exponent.toInt = 1 ∨ t.exponent.toInt = 0 := by omega
    rcases hcases with h | h | h
    · simp [show t.exponent = 2 from Int32.toInt_inj.1 h]
    · simp [show t.exponent = 1 from Int32.toInt_inj.1 h]
    · simp [show t.exponent = 0 from Int32.toInt_inj.1 h]
  have hpowers : ∀ e ∈ ([2, 1, 0] : List Exponent), (pow y e.toInt).isFinite = true := by
    intro e he
    simp only [List.mem_cons, List.not_mem_nil, or_false] at he
    have hone : IsInt 1.0 1 := isInt_of_isNat (by decide)
    rcases he with rfl | rfl | rfl
    · show (pow y 2).isFinite = true
      rw [pow_two_float]
      exact (hy.mul hy (by norm_num) (by norm_num)).finite
    · show (pow y 1).isFinite = true
      rw [pow_one_float]
      exact hy.finite
    · exact hone.finite
  have hsum : evalTerms (p.denseTerms [2, 1, 0]) y =
      p.coefficient 2 * (y * y) + p.coefficient 1 * y + p.coefficient 0 := by
    show -0.0 + p.coefficient 2 * pow y 2 + p.coefficient 1 * pow y 1 +
      p.coefficient 0 * pow y 0 = _
    rw [neg_zero_add_float, pow_two_float, pow_one_float, pow_zero_float, mul_one_float]
  have hagree := hp.agree_eval (by decide) hexponents hpowers
  obtain ⟨hfinite, hvalue⟩ := quadraticValue_spec ha hb hc hy
  have hzero : IsInt 0.0 0 := isInt_zero_of_beq (by decide)
  rw [hsum] at hagree
  rw [(Agree.refl 0.0).lt_iff hagree, hagree.lt_iff (.refl 0.0), lt_iff_toRat hzero.finite hfinite,
    lt_iff_toRat hfinite hzero.finite, hvalue, ← hv, hzero.toRat_eq, Int.cast_zero]
  exact ⟨.rfl, .rfl⟩

end Poly

end SparsePoly
