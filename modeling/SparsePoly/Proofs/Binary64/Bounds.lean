import Mathlib
import SparsePoly.Proofs.Binary64.Integral
import SparsePoly.Proofs.Binary64.Status

/-!
# Bounds on results

A finite result is the exact result, `rounded` (`toRat_add_of_isFinite` and its companions), and
rounding changes a number by at most `2 ^ -53` of its size and half the smallest double
(`abs_rounded_sub_le_mul`).  `Bounded x k` says that a double is finite and at most `2 ^ k` in
size.  The operations keep such bounds as long as these are in range.
-/

namespace SparsePoly.Binary64

variable {x y : Float} {q r e N : ℚ} {k l : ℤ}

/-! ## The size of a rounded number -/

theorem rounded_nonneg (h : 0 ≤ q) : 0 ≤ rounded q := by
  have hquantum : (0 : ℚ) < 2 ^ quantum q := zpow_pos two_pos _
  refine mul_nonneg ?_ hquantum.le
  have : (0 : ℤ) ≤ nearestEven (q / 2 ^ quantum q) :=
    le_nearestEven (by exact_mod_cast div_nonneg h hquantum.le)
  exact_mod_cast this

/-- Powers of two are not passed. -/
theorem abs_rounded_le (hk : -1074 ≤ k) (h : |q| ≤ 2 ^ k) : |rounded q| ≤ 2 ^ k := by
  wlog hq : 0 ≤ q generalizing q
  · have := this (q := -q) (by rwa [abs_neg]) (by linarith)
    rwa [rounded_neg, abs_neg] at this
  rcases hq.eq_or_lt with rfl | hpos
  · rw [rounded_zero, abs_zero]
    exact (zpow_pos two_pos k).le
  rw [abs_of_pos hpos] at h
  rw [abs_of_nonneg (rounded_nonneg hq)]
  have hquantum : (0 : ℚ) < 2 ^ quantum q := zpow_pos two_pos _
  have hle : quantum q ≤ k := by
    rcases zpow_quantum_le hpos.ne' with hle | heq
    · rw [abs_of_pos hpos] at hle
      have := (zpow_le_zpow_iff_right₀ (one_lt_two (α := ℚ))).1 (hle.trans h)
      omega
    · omega
  have hpow : ((2 ^ (k - quantum q).toNat : ℤ) : ℚ) = 2 ^ k / 2 ^ quantum q := by
    push_cast
    rw [← zpow_natCast, Int.toNat_of_nonneg (by omega), zpow_sub₀ two_ne_zero]
  have hnearest : nearestEven (q / 2 ^ quantum q) ≤ 2 ^ (k - quantum q).toNat := by
    refine nearestEven_le ?_
    rw [hpow]
    exact div_le_div_of_nonneg_right h hquantum.le
  calc rounded q ≤ ((2 ^ (k - quantum q).toNat : ℤ) : ℚ) * 2 ^ quantum q :=
        mul_le_mul_of_nonneg_right (by exact_mod_cast hnearest) hquantum.le
    _ = 2 ^ k := by rw [hpow, div_mul_cancel₀ _ hquantum.ne']

/-- Nor are they passed from above. -/
theorem le_abs_rounded (hk : -1074 ≤ k) (h : 2 ^ k ≤ |q|) : 2 ^ k ≤ |rounded q| := by
  wlog hq : 0 ≤ q generalizing q
  · have := this (q := -q) (by rwa [abs_neg]) (by linarith)
    rwa [rounded_neg, abs_neg] at this
  rw [abs_of_nonneg hq] at h
  rw [abs_of_nonneg (rounded_nonneg hq)]
  have hquantum : (0 : ℚ) < 2 ^ quantum q := zpow_pos two_pos _
  have hpos : 0 < q := (zpow_pos two_pos k).trans_le h
  obtain ⟨n, hn, hnearest⟩ :
      ∃ n : ℤ, (2 : ℚ) ^ k ≤ n * 2 ^ quantum q ∧ (n : ℚ) ≤ q / 2 ^ quantum q := by
    rcases le_total (quantum q) k with hle | hle
    · refine ⟨2 ^ (k - quantum q).toNat, ?_, ?_⟩
      · push_cast
        rw [← zpow_natCast, Int.toNat_of_nonneg (by omega), ← zpow_add₀ two_ne_zero]
        rw [sub_add_cancel]
      · push_cast
        rw [← zpow_natCast, Int.toNat_of_nonneg (by omega), zpow_sub₀ two_ne_zero]
        exact div_le_div_of_nonneg_right h hquantum.le
    · refine ⟨1, ?_, ?_⟩
      · rw [Int.cast_one, one_mul]
        exact zpow_le_zpow_right₀ one_le_two hle
      · rw [Int.cast_one, one_le_div hquantum]
        rcases zpow_quantum_le hpos.ne' with hlow | heq
        · rw [abs_of_pos hpos] at hlow
          exact (zpow_le_zpow_right₀ one_le_two (by omega)).trans hlow
        · rw [heq]
          exact (zpow_le_zpow_right₀ one_le_two hk).trans h
  calc (2 : ℚ) ^ k ≤ n * 2 ^ quantum q := hn
    _ ≤ rounded q :=
        mul_le_mul_of_nonneg_right (by exact_mod_cast le_nearestEven hnearest) hquantum.le

/-! ## The error of rounding -/

/-- Half a unit in the last of the 53 places of a number between one and two. -/
def roundoff : ℚ := 2 ^ (-53 : ℤ)

theorem roundoff_pos : 0 < roundoff := zpow_pos two_pos _

theorem roundoff_le : roundoff ≤ 1 / 10 ^ 15 := by
  unfold roundoff
  norm_num

theorem roundoff_mul_le (h : 0 ≤ N) : roundoff * N ≤ N / 10 ^ 6 := by
  linarith [mul_le_mul_of_nonneg_right roundoff_le h]

/-- The error of rounding at a scale that is not tiny. -/
theorem abs_rounded_sub_le_of_abs_le (hN : 2 ^ (-1022 : ℤ) ≤ N) (h : |q| ≤ N) :
    |rounded q - q| ≤ roundoff * N := by
  rcases eq_or_ne q 0 with rfl | h₀
  · rw [rounded_zero, sub_zero, abs_zero]
    exact mul_nonneg roundoff_pos.le ((zpow_pos two_pos _).le.trans hN)
  have hsplit : (2 : ℚ) ^ quantum q / 2 = roundoff * 2 ^ (quantum q + 52) := by
    rw [roundoff, ← zpow_add₀ two_ne_zero, div_eq_mul_inv, ← zpow_sub_one₀ two_ne_zero]
    congr 1
    ring
  refine (abs_rounded_sub_le q).trans ?_
  rw [hsplit]
  refine mul_le_mul_of_nonneg_left ?_ roundoff_pos.le
  rcases zpow_quantum_le h₀ with hle | heq
  · exact hle.trans h
  · rw [heq]
    exact hN

/-- The error of rounding at any scale: half the smallest double is added. -/
theorem abs_rounded_sub_le_mul (q : ℚ) : |rounded q - q| ≤ roundoff * |q| + 2 ^ (-1075 : ℤ) := by
  have hscale : (2 : ℚ) ^ (-1022 : ℤ) ≤ |q| + 2 ^ (-1022 : ℤ) :=
    le_add_of_nonneg_left (abs_nonneg q)
  refine (abs_rounded_sub_le_of_abs_le hscale (le_add_of_nonneg_right
    (zpow_pos two_pos _).le)).trans_eq ?_
  rw [mul_add, roundoff, ← zpow_add₀ two_ne_zero]
  rfl

theorem abs_le_of_abs_sub_le (h : |q - r| ≤ e) : |q| ≤ |r| + e := by
  linarith [abs_sub_abs_le_abs_sub q r]

theorem abs_le_of_abs_sub_le' (h : |q - r| ≤ e) : |r| ≤ |q| + e := by
  rw [abs_sub_comm] at h
  exact abs_le_of_abs_sub_le h

/-- A number is not much larger than what it is rounded to. -/
theorem abs_le_of_abs_rounded_le (hN : 2 ^ (-1022 : ℤ) ≤ N) (h : |rounded q| ≤ N) :
    |q| ≤ 1001 / 1000 * N := by
  have hN₀ : 0 < N := (zpow_pos two_pos _).trans_le hN
  have herror := abs_rounded_sub_le_of_abs_le (hN.trans (le_max_right |q| N)) (le_max_left |q| N)
  have hle := abs_le_of_abs_sub_le' herror
  rcases max_cases |q| N with ⟨hmax, -⟩ | ⟨-, hlt⟩
  · rw [hmax] at hle
    linarith [roundoff_mul_le (abs_nonneg q)]
  · linarith

/-- A rounded number has about the size of the number. -/
theorem abs_rounded_near (h : 2 ^ (-1022 : ℤ) ≤ |q|) :
    999 / 1000 * |q| ≤ |rounded q| ∧ |rounded q| ≤ 1001 / 1000 * |q| := by
  have herror := abs_rounded_sub_le_of_abs_le h le_rfl
  have hlow := abs_le_of_abs_sub_le' herror
  have hhigh := abs_le_of_abs_sub_le herror
  have hsmall := roundoff_mul_le (abs_nonneg q)
  constructor <;> linarith

/-! ## Finite results -/

theorem toRat_add_of_isFinite (h : (x + y).isFinite = true) :
    toRat (x + y) = rounded (toRat x + toRat y) := by
  obtain ⟨hx, hy⟩ := isFinite_of_add h
  rcases isFinite_or_isInf_add hx hy with ⟨-, hlt⟩ | ⟨hinf, -⟩
  · exact (toRat_add hx hy hlt).2
  · rw [isFinite_eq_false_of_isInf hinf] at h
    cases h

theorem toRat_sub_of_isFinite (h : (x - y).isFinite = true) :
    toRat (x - y) = rounded (toRat x - toRat y) := by
  rw [sub_eq_add_neg_float] at h ⊢
  rw [toRat_add_of_isFinite h, toRat_neg, sub_eq_add_neg]

theorem toRat_mul_of_isFinite (h : (x * y).isFinite = true) :
    toRat (x * y) = rounded (toRat x * toRat y) := by
  obtain ⟨hx, hy⟩ := isFinite_of_mul h
  obtain ⟨hc, hv⟩ := mul_spec (isFinite_iff.1 hx) (isFinite_iff.1 hy)
  rcases isFinite_or_isInf (x := x * y) rfl hc with ⟨-, hlt⟩ | ⟨hinf, -⟩
  · exact (toRat_of_unpacked (x := x * y) rfl hc hlt).2.trans hv
  · rw [isFinite_eq_false_of_isInf hinf] at h
    cases h

/-- The quotient by an infinity is zero, and so is the quotient of the values. -/
theorem toRat_div_of_isFinite (h : (x / y).isFinite = true) :
    toRat (x / y) = rounded (toRat x / toRat y) := by
  obtain ⟨hx, hz, hnan⟩ := isFinite_of_div h
  rcases finite_or_isInf_or_isNaN y with hy | hy | hy
  · obtain ⟨hc, hv⟩ := div_spec (isFinite_iff.1 hx) (isFinite_iff.1 hy) (toRat_ne_zero hy hz)
    rcases isFinite_or_isInf (x := x / y) rfl hc with ⟨-, hlt⟩ | ⟨hinf, -⟩
    · exact (toRat_of_unpacked (x := x / y) rfl hc hlt).2.trans hv
    · rw [isFinite_eq_false_of_isInf hinf] at h
      cases h
  · obtain ⟨s, hs⟩ := isInf_iff.1 hy
    have hy₀ : toRat y = 0 := by rw [toRat, hs, value_infinity]
    rw [hy₀, div_zero, rounded_zero]
    exact (beq_zero_iff_toRat h).1 (div_beq_zero_of_isInf hx hy)
  · rw [hy] at hnan
    cases hnan

/-! ## Finite doubles of a known size -/

/-- A finite double of size at most `2 ^ k`. -/
structure Bounded (x : Float) (k : ℤ) : Prop where
  finite : x.isFinite = true
  le : |toRat x| ≤ 2 ^ k

theorem Bounded.mono (h : Bounded x k) (hkl : k ≤ l) : Bounded x l :=
  ⟨h.finite, h.le.trans (zpow_le_zpow_right₀ one_le_two hkl)⟩

theorem bounded_of_isFinite (h : x.isFinite = true) : Bounded x 1024 := ⟨h, (abs_toRat_lt x).le⟩

theorem Bounded.neg (h : Bounded x k) : Bounded (-x) k :=
  ⟨by rw [isFinite_neg, h.finite], by rw [toRat_neg, abs_neg]; exact h.le⟩

theorem bounded_of_beq_zero (h : (x == 0.0) = true) : Bounded x k := by
  have hint := isInt_zero_of_beq h
  refine ⟨hint.finite, ?_⟩
  rw [hint.toRat_eq, Int.cast_zero, abs_zero]
  exact (zpow_pos two_pos k).le

/-- A result is finite if the exact result is below `2 ^ 1024`. -/
theorem abs_rounded_lt (hk : -1074 ≤ k) (hk' : k < 1024) (h : |q| ≤ 2 ^ k) :
    |rounded q| < 2 ^ (1024 : ℤ) :=
  (abs_rounded_le hk h).trans_lt (zpow_lt_zpow_right₀ one_lt_two hk')

theorem Bounded.add (hx : Bounded x k) (hy : Bounded y k) (hk : -1075 ≤ k) (hk' : k < 1023) :
    Bounded (x + y) (k + 1) := by
  have hsum : |toRat x + toRat y| ≤ 2 ^ (k + 1) := by
    rw [zpow_add_one₀ two_ne_zero, mul_two]
    exact (abs_add_le _ _).trans (add_le_add hx.le hy.le)
  obtain ⟨hf, hv⟩ := toRat_add hx.finite hy.finite (abs_rounded_lt (by omega) (by omega) hsum)
  exact ⟨hf, by rw [hv]; exact abs_rounded_le (by omega) hsum⟩

theorem Bounded.sub (hx : Bounded x k) (hy : Bounded y k) (hk : -1075 ≤ k) (hk' : k < 1023) :
    Bounded (x - y) (k + 1) := by
  rw [sub_eq_add_neg_float]
  exact hx.add hy.neg hk hk'

theorem Bounded.mul (hx : Bounded x k) (hy : Bounded y l) (hkl : -1074 ≤ k + l)
    (hkl' : k + l < 1024) : Bounded (x * y) (k + l) := by
  have hprod : |toRat x * toRat y| ≤ 2 ^ (k + l) := by
    rw [zpow_add₀ two_ne_zero, abs_mul]
    exact mul_le_mul hx.le hy.le (abs_nonneg _) (zpow_pos two_pos k).le
  obtain ⟨hf, hv⟩ := toRat_mul hx.finite hy.finite (abs_rounded_lt hkl hkl' hprod)
  exact ⟨hf, by rw [hv]; exact abs_rounded_le hkl hprod⟩

theorem Bounded.div (hx : Bounded x k) (hy : 2 ^ l ≤ |toRat y|) (hkl : -1074 ≤ k - l)
    (hkl' : k - l < 1024) : Bounded (x / y) (k - l) := by
  have hpos : (0 : ℚ) < 2 ^ l := zpow_pos two_pos l
  have hy₀ : toRat y ≠ 0 := abs_pos.1 (hpos.trans_le hy)
  have hquot : |toRat x / toRat y| ≤ 2 ^ (k - l) := by
    rw [zpow_sub₀ two_ne_zero, abs_div]
    exact div_le_div₀ (zpow_pos two_pos k).le hx.le hpos hy
  obtain ⟨hf, hv⟩ := toRat_div hx.finite hy₀ (abs_rounded_lt hkl hkl' hquot)
  exact ⟨hf, by rw [hv]; exact abs_rounded_le hkl hquot⟩

section

variable {m n : ℤ}

theorem IsInt.bounded (h : IsInt x m) (hm : |m| ≤ 2 ^ 53) : Bounded x 53 :=
  ⟨h.finite, by rw [h.toRat_eq]; exact_mod_cast hm⟩

/-- The sum of two integers is rounded once. -/
theorem IsInt.toRat_add (hx : IsInt x m) (hy : IsInt y n) (hm : |m| ≤ 2 ^ 53)
    (hn : |n| ≤ 2 ^ 53) :
    (x + y).isFinite = true ∧ toRat (x + y) = Binary64.rounded (m + n : ℤ) := by
  have hfinite := ((hx.bounded hm).add (hy.bounded hn) (by norm_num) (by norm_num)).finite
  refine ⟨hfinite, ?_⟩
  rw [toRat_add_of_isFinite hfinite, hx.toRat_eq, hy.toRat_eq, Int.cast_add]

theorem IsInt.toRat_sub (hx : IsInt x m) (hy : IsInt y n) (hm : |m| ≤ 2 ^ 53)
    (hn : |n| ≤ 2 ^ 53) :
    (x - y).isFinite = true ∧ toRat (x - y) = Binary64.rounded (m - n : ℤ) := by
  rw [sub_eq_add_neg_float, sub_eq_add_neg]
  exact hx.toRat_add hy.neg hm (by rwa [abs_neg])

end

/-- The square of a double from `2 ^ 512` on is not finite. -/
theorem bounded_of_isFinite_mul_self (h : (x * x).isFinite = true) : Bounded x 512 := by
  refine ⟨(isFinite_of_mul h).1, ?_⟩
  by_contra! hlt
  have hsquare : (2 : ℚ) ^ (1024 : ℤ) ≤ toRat x * toRat x := by
    rw [← abs_mul_abs_self, show (1024 : ℤ) = 512 + 512 from rfl, zpow_add₀ two_ne_zero]
    exact mul_le_mul hlt.le hlt.le (zpow_pos two_pos _).le (abs_nonneg _)
  have hrounded := two_zpow_le_rounded hsquare
  rw [← toRat_mul_of_isFinite h] at hrounded
  exact absurd ((le_abs_self _).trans_lt (abs_toRat_lt (x * x))) (not_lt.2 hrounded)

end SparsePoly.Binary64
