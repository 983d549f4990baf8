import Mathlib
import SparsePoly.Proofs.Binary64.Conversion
import SparsePoly.Proofs.Decimal.Positional

/-!
# Printing what was read back

`printed x` is the number that a positive `x` prints as: `x` to twelve significant digits, or the
nearest integer if it has more.  The double nearest to that number prints as the same number, with
one exception (`printed_rounded`): `slip` prints as `10 ^ (-312)`, and the nearest double lies below
that power of ten and so has one more digit to show.
-/

open SparsePoly.Binary64

namespace SparsePoly.Decimal

/-- The number of decimal places of `x`. -/
def printedPlaces (x : ℚ) : ℕ := (11 - Int.log 10 x).toNat

/-- The number that `x` prints as. -/
def printed (x : ℚ) : ℚ := nearestEven (x * 10 ^ printedPlaces x) / 10 ^ printedPlaces x

/-- The one double that is printed as a power of ten above the double that this reads back as. -/
def slip : ℚ := 202402253308 * 2 ^ (-1074 : ℤ)

variable {x : ℚ} {k n : ℤ}

theorem ten_zpow_pos (k : ℤ) : (0 : ℚ) < 10 ^ k := zpow_pos (by norm_num) k

theorem ten_zpow_eq {k l : ℤ} {j : ℕ} (h : k = j + l) : (10 : ℚ) ^ k = 10 ^ j * 10 ^ l := by
  rw [← zpow_natCast, ← zpow_add₀ (by norm_num), h]

theorem log_eq_iff (hx : 0 < x) : Int.log 10 x = k ↔ 10 ^ k ≤ x ∧ x < 10 ^ (k + 1) := by
  have h₁ := Int.zpow_le_iff_le_log (b := 10) (x := k) (by norm_num) hx
  have h₂ := Int.lt_zpow_iff_log_lt (b := 10) (x := k + 1) (by norm_num) hx
  push_cast at h₁ h₂
  rw [h₁, h₂]
  omega

theorem zpow_log_le (hx : 0 < x) : (10 : ℚ) ^ Int.log 10 x ≤ x := ((log_eq_iff hx).1 rfl).1

theorem lt_zpow_log (hx : 0 < x) : x < (10 : ℚ) ^ (Int.log 10 x + 1) := ((log_eq_iff hx).1 rfl).2

/-- Up to twelve integral digits the last place is the twelfth digit. -/
theorem printed_eq_of_log_le (hk : Int.log 10 x ≤ 11) :
    printed x = nearestEven (x / 10 ^ (Int.log 10 x - 11)) * 10 ^ (Int.log 10 x - 11) := by
  have hpow : (10 : ℚ) ^ printedPlaces x = (10 ^ (Int.log 10 x - 11))⁻¹ := by
    rw [← zpow_neg, ← zpow_natCast, printedPlaces, Int.toNat_of_nonneg (by omega), neg_sub]
  rw [printed, hpow, ← div_eq_mul_inv, div_inv_eq_mul]

/-- A number close to a multiple of its last place prints as that multiple. -/
theorem printed_eq (hk : k ≤ 11) (hlow : 10 ^ k ≤ x) (hhigh : x < 10 ^ (k + 1))
    (h : |x - n * 10 ^ (k - 11)| < 10 ^ (k - 11) / 2) : printed x = n * 10 ^ (k - 11) := by
  have hlog := (log_eq_iff ((ten_zpow_pos k).trans_le hlow)).2 ⟨hlow, hhigh⟩
  have hu := ten_zpow_pos (k - 11)
  have hn : nearestEven (x / 10 ^ (k - 11)) = n := by
    apply nearestEven_eq
    rw [abs_sub_comm, ← mul_lt_mul_iff_left₀ hu, ← abs_of_pos hu, ← abs_mul, abs_of_pos hu, sub_mul,
      div_mul_cancel₀ _ hu.ne']
    linarith
  rw [printed_eq_of_log_le (by omega), hlog, hn]

/-- An integer prints as itself, however many digits it has. -/
theorem printed_intCast (n : ℤ) : printed n = n := by
  have hscaled : (n : ℚ) * 10 ^ printedPlaces n = (n * 10 ^ printedPlaces n : ℤ) := by
    push_cast
    rfl
  rw [printed, hscaled, nearestEven_intCast, ← hscaled, mul_div_cancel_right₀ _ (by positivity)]

/-! ## Numbers of at least twelve integral digits -/

/-- A double from `2 ^ 52` on is an integer. -/
theorem exists_intCast_eq (hx : rounded x = x) (h : 2 ^ (52 : ℤ) ≤ x) : ∃ n : ℤ, x = n := by
  have hq : 0 ≤ quantum x :=
    le_quantum (by rwa [zero_add, abs_of_pos ((zpow_pos two_pos _).trans_le h)])
  refine ⟨nearestEven (x / 2 ^ quantum x) * 2 ^ (quantum x).toNat, ?_⟩
  conv_lhs => rw [← hx, rounded]
  push_cast
  rw [← zpow_natCast, Int.toNat_of_nonneg hq]

/-- From twelve integral digits on the printed number is an integer, which is the double itself
when that is large. -/
theorem printed_of_le_log (hx : rounded x = x) (hpos : 0 < x) (hk : 11 ≤ Int.log 10 x) :
    ∃ n : ℤ, printed x = n ∧ 10 ^ 11 ≤ n ∧ (printed x = x ∨ n ≤ 2 ^ 53) := by
  have hlow : (10 ^ 11 : ℤ) ≤ x := by
    have := (Int.zpow_le_iff_le_log (b := 10) (by norm_num) hpos).2 hk
    exact_mod_cast this
  have hplaces : printedPlaces x = 0 := by
    rw [printedPlaces]
    omega
  have hp : printed x = nearestEven x := by simp [printed, hplaces]
  refine ⟨nearestEven x, hp, le_nearestEven hlow, ?_⟩
  rcases le_total ((2 : ℚ) ^ (53 : ℤ)) x with h | h
  · left
    obtain ⟨n, hn⟩ := exists_intCast_eq hx
      (le_trans (zpow_le_zpow_right₀ one_le_two (by norm_num)) h)
    rw [hp, hn, nearestEven_intCast]
  · exact Or.inr (nearestEven_le (by exact_mod_cast h))

/-- Such a number is read back exactly. -/
theorem rounded_printed_of_le_log (hx : rounded x = x) (hpos : 0 < x) (hk : 11 ≤ Int.log 10 x) :
    rounded (printed x) = printed x := by
  obtain ⟨n, hn, hlow, heq | hle⟩ := printed_of_le_log hx hpos hk
  · rw [heq, hx]
  · rw [hn, rounded_intCast]
    rwa [abs_of_nonneg (le_trans (by norm_num) hlow)]

/-! ## Numbers of fewer integral digits -/

/-- The digits of a number with twelve places. -/
theorem printed_bounds (hpos : 0 < x) (hk : Int.log 10 x ≤ 11) :
    ∃ n : ℤ, printed x = n * 10 ^ (Int.log 10 x - 11) ∧ 10 ^ 11 ≤ n ∧ n ≤ 10 ^ 12 ∧
      |printed x - x| ≤ 10 ^ (Int.log 10 x - 11) / 2 := by
  set k := Int.log 10 x with hlog
  have hu := ten_zpow_pos (k - 11)
  obtain ⟨hlow, hhigh⟩ := (log_eq_iff hpos).1 hlog.symm
  have h₁₁ : (10 : ℚ) ^ k = 10 ^ 11 * 10 ^ (k - 11) := ten_zpow_eq (by omega)
  have h₁₂ : (10 : ℚ) ^ (k + 1) = 10 ^ 12 * 10 ^ (k - 11) := ten_zpow_eq (by omega)
  have hp := printed_eq_of_log_le hk
  rw [← hlog] at hp
  refine ⟨_, hp, le_nearestEven ?_, nearestEven_le ?_, ?_⟩
  · rw [le_div_iff₀ hu]
    push_cast
    linarith
  · rw [div_le_iff₀ hu]
    push_cast
    linarith
  · have hsub : printed x - x =
        (nearestEven (x / 10 ^ (k - 11)) - x / 10 ^ (k - 11)) * 10 ^ (k - 11) := by
      rw [hp, sub_mul, div_mul_cancel₀ _ hu.ne']
    rw [hsub, abs_mul, abs_of_pos hu]
    have := mul_le_mul_of_nonneg_right (abs_nearestEven_sub_le (x / 10 ^ (k - 11))) hu.le
    linarith

/-- The last place of a double is small beside the twelfth digit, or the least of all. -/
theorem two_zpow_quantum_le (hpos : 0 < x) (h : x ≤ 10 ^ (k + 1)) :
    2 ^ quantum x ≤ (10 : ℚ) ^ (k - 11) / 1000 ∨ quantum x = -1074 := by
  rcases zpow_quantum_le hpos.ne' with hq | hq
  · left
    rw [abs_of_pos hpos, zpow_add₀ two_ne_zero] at hq
    have h₁₂ : (10 : ℚ) ^ (k + 1) = 10 ^ 12 * 10 ^ (k - 11) := ten_zpow_eq (by omega)
    have hle : (2 : ℚ) ^ quantum x * 2 ^ 52 ≤ 10 ^ 12 * 10 ^ (k - 11) := by
      have := hq.trans h
      rw [h₁₂] at this
      exact_mod_cast this
    have hu := ten_zpow_pos (k - 11)
    linarith
  · exact Or.inr hq

/-- The least last place in decimal. -/
theorem two_zpow_lt_ten_zpow : (2 : ℚ) ^ (-1074 : ℤ) < 10 ^ (-323 : ℤ) / 2 := by
  have h : 10 ^ 323 * 2 < 2 ^ 1074 := by decide +kernel
  rw [zpow_neg, zpow_neg, ← one_div, ← one_div, div_div, div_lt_div_iff₀ (by positivity)
    (by positivity), one_mul, one_mul, zpow_ofNat, zpow_ofNat]
  exact_mod_cast h

theorem ten_zpow_lt_two_zpow : (10 : ℚ) ^ (-324 : ℤ) < 2 ^ (-1074 : ℤ) := by
  have h : 2 ^ 1074 < 10 ^ 324 := by decide +kernel
  rw [zpow_neg, zpow_neg, inv_lt_inv₀ (by positivity) (by positivity), zpow_ofNat, zpow_ofNat]
  exact_mod_cast h

theorem ten_zpow_lt_normal : (10 : ℚ) ^ (-311 : ℤ) < 2 ^ (-1021 : ℤ) := by
  have h : 2 ^ 1021 < 10 ^ 311 := by decide +kernel
  rw [zpow_neg, zpow_neg, inv_lt_inv₀ (by positivity) (by positivity), zpow_ofNat, zpow_ofNat]
  exact_mod_cast h

/-- Below the normal doubles the last place is the least one. -/
theorem quantum_eq_of_lt (hpos : 0 < x) (h : x < 2 ^ (-1021 : ℤ)) : quantum x = -1074 := by
  refine le_antisymm (quantum_le hpos.ne' ?_ le_rfl) (le_max_right _ _)
  rw [abs_of_pos hpos]
  exact h

/-- A number with a coarser last place than its twelfth digit is read back as it was. -/
theorem rounded_printed_of_log_le (hx : rounded x = x) (hpos : 0 < x)
    (hk : Int.log 10 x ≤ -313) : rounded (printed x) = x := by
  obtain ⟨n, hn, hlow, hhigh, hdist⟩ := printed_bounds hpos (by omega)
  have hu := ten_zpow_pos (Int.log 10 x - 11)
  have hu₁ : (10 : ℚ) ^ (Int.log 10 x - 11) ≤ 10 ^ (-324 : ℤ) :=
    zpow_le_zpow_right₀ (by norm_num) (by omega)
  have h₂ := ten_zpow_lt_two_zpow
  have hq : (0 : ℚ) < 2 ^ (-1074 : ℤ) := zpow_pos two_pos _
  have hT : 0 < printed x := by
    rw [hn]
    exact mul_pos (by exact_mod_cast lt_of_lt_of_le (by norm_num) hlow) hu
  have hxlt : x < 10 ^ (-312 : ℤ) :=
    (lt_zpow_log hpos).trans_le (zpow_le_zpow_right₀ (by norm_num) (by omega))
  have hTlt : printed x < 2 ^ (-1021 : ℤ) := by
    have h₁₁ : (10 : ℚ) ^ (-311 : ℤ) = 10 ^ 1 * 10 ^ (-312 : ℤ) := ten_zpow_eq (by norm_num)
    have h₁₂ : (10 : ℚ) ^ (-324 : ℤ) ≤ 10 ^ (-312 : ℤ) :=
      zpow_le_zpow_right₀ (by norm_num) (by norm_num)
    have := (abs_le.1 hdist).2
    have := ten_zpow_lt_normal
    linarith [ten_zpow_pos (-324)]
  have hxq : quantum x = -1074 := by
    refine quantum_eq_of_lt hpos (hxlt.trans (lt_trans ?_ ten_zpow_lt_normal))
    exact zpow_lt_zpow_right₀ (by norm_num) (by norm_num)
  have hTq : quantum (printed x) = -1074 := quantum_eq_of_lt hT hTlt
  have hnear : nearestEven (printed x / 2 ^ (-1074 : ℤ)) = nearestEven (x / 2 ^ (-1074 : ℤ)) := by
    apply nearestEven_eq
    have hx' : (nearestEven (x / 2 ^ (-1074 : ℤ)) : ℚ) = x / 2 ^ (-1074 : ℤ) := by
      rw [eq_div_iff hq.ne', ← hxq]
      exact hx
    rw [hx', abs_sub_comm, ← sub_div, abs_div, abs_of_pos hq, div_lt_iff₀ hq]
    linarith
  rw [rounded, hTq, hnear, ← hxq]
  exact hx

/-- Otherwise the number that is read back is near the printed one. -/
theorem abs_rounded_printed_sub_lt (hpos : 0 < x) (hk : Int.log 10 x ≤ 11) {j : ℤ}
    (hj : j ≤ Int.log 10 x - 11) (hj₁ : Int.log 10 x - 12 ≤ j) (hlow : -323 ≤ j) :
    |rounded (printed x) - printed x| < 10 ^ j / 4 := by
  obtain ⟨n, hn, hn₁, hn₂, -⟩ := printed_bounds hpos hk
  have hu := ten_zpow_pos (Int.log 10 x - 11)
  have hT : 0 < printed x := by
    rw [hn]
    exact mul_pos (by exact_mod_cast lt_of_lt_of_le (by norm_num) hn₁) hu
  have hTle : printed x ≤ 10 ^ (Int.log 10 x + 1) := by
    have h₁₂ : (10 : ℚ) ^ (Int.log 10 x + 1) = 10 ^ 12 * 10 ^ (Int.log 10 x - 11) :=
      ten_zpow_eq (by omega)
    rw [hn, h₁₂]
    exact mul_le_mul_of_nonneg_right (by exact_mod_cast hn₂) hu.le
  refine (abs_rounded_sub_le (printed x)).trans_lt ?_
  have hten : (10 : ℚ) ^ (Int.log 10 x - 11) ≤ 10 * 10 ^ j := by
    rw [← zpow_one_add₀ (by norm_num)]
    exact zpow_le_zpow_right₀ (by norm_num) (by omega)
  have hjpos := ten_zpow_pos j
  rcases two_zpow_quantum_le hT hTle with hq | hq
  · linarith
  · have h₁ := two_zpow_lt_ten_zpow
    have h₂ : (10 : ℚ) ^ (-323 : ℤ) ≤ 10 ^ j := zpow_le_zpow_right₀ (by norm_num) hlow
    rw [hq]
    linarith

/-- The neighbors of `slip` are too far from `10 ^ (-312)` to be printed as it. -/
theorem slip_neighbors : (202402253307 : ℚ) * 2 ^ (-1074 : ℤ) < 10 ^ 11 * 10 ^ (-323 : ℤ) ∧
    (2 * 10 ^ 11 + 1 : ℚ) * 10 ^ (-323 : ℤ) < 2 * 202402253309 * 2 ^ (-1074 : ℤ) := by
  have hlow : 202402253307 * 10 ^ 323 < 10 ^ 11 * 2 ^ 1074 := by decide +kernel
  have hhigh : (2 * 10 ^ 11 + 1) * 2 ^ 1074 < 2 * 202402253309 * 10 ^ 323 := by decide +kernel
  rw [zpow_neg, zpow_neg, ← div_eq_mul_inv, ← div_eq_mul_inv, ← div_eq_mul_inv, ← div_eq_mul_inv,
    div_lt_div_iff₀ (by positivity) (by positivity), div_lt_div_iff₀ (by positivity)
    (by positivity), zpow_ofNat, zpow_ofNat]
  exact ⟨by exact_mod_cast hlow, by exact_mod_cast hhigh⟩

/-- Only `slip` is a double that prints as `10 ^ (-312)` and is not below it. -/
theorem eq_slip (hx : rounded x = x) (hk : Int.log 10 x = -312) (hpos : 0 < x)
    (h : printed x = 10 ^ (-312 : ℤ)) : x = slip := by
  obtain ⟨-, -, -, -, hdist⟩ := printed_bounds hpos (by omega)
  rw [hk, h] at hdist
  obtain ⟨hlow, hhigh⟩ := (log_eq_iff hpos).1 hk
  have hq : quantum x = -1074 := quantum_eq_of_lt hpos (hhigh.trans ten_zpow_lt_normal)
  obtain ⟨m, hm⟩ : ∃ m : ℤ, x = m * 2 ^ (-1074 : ℤ) := ⟨_, by
    conv_lhs => rw [← hx, rounded, hq]⟩
  have h₂ : (0 : ℚ) < 2 ^ (-1074 : ℤ) := zpow_pos two_pos _
  have h₁₁ : (10 : ℚ) ^ (-312 : ℤ) = 10 ^ 11 * 10 ^ (-323 : ℤ) := ten_zpow_eq (by norm_num)
  have hsub : (-312 - 11 : ℤ) = -323 := rfl
  have hclose := (abs_le.1 hdist).1
  obtain ⟨hlt, hgt⟩ := slip_neighbors
  rw [hsub] at hclose
  rw [hm] at hlow hclose
  have hm₁ : (202402253307 : ℚ) < m := by
    refine lt_of_mul_lt_mul_right ?_ h₂.le
    linarith
  have hm₂ : (m : ℚ) < 202402253309 := by
    refine lt_of_mul_lt_mul_right ?_ h₂.le
    linarith
  have hm₁ : 202402253307 < m := by exact_mod_cast hm₁
  have hm₂ : m < 202402253309 := by exact_mod_cast hm₂
  have hm₃ : m = 202402253308 := by omega
  rw [hm, hm₃, slip]
  norm_cast

/-! ## Near a number of twelve digits -/

section Near

variable {y : ℚ}

/-- Near a number of twelve digits and of the same size the digits are the same. -/
theorem printed_of_near_within (hk : k ≤ 10) (hlow : 10 ^ k ≤ y) (hhigh : y < 10 ^ (k + 1))
    (h : |y - n * 10 ^ (k - 11)| < 10 ^ (k - 11) / 4) : printed y = n * 10 ^ (k - 11) :=
  printed_eq (by omega) hlow hhigh (by linarith [ten_zpow_pos (k - 11)])

/-- Only a power of ten is near a number below it. -/
theorem eq_of_near_below (hy : y < 10 ^ k) (hn : 10 ^ 11 ≤ n)
    (h : |y - n * 10 ^ (k - 11)| < 10 ^ (k - 11) / 4) : n = 10 ^ 11 := by
  have hu := ten_zpow_pos (k - 11)
  have h₁₁ : (10 : ℚ) ^ k = 10 ^ 11 * 10 ^ (k - 11) := ten_zpow_eq (by omega)
  have hc := (abs_lt.1 h).1
  have hlt : (n : ℚ) * 10 ^ (k - 11) < (10 ^ 11 + 1) * 10 ^ (k - 11) := by linarith
  have hlt : n < 10 ^ 11 + 1 := by exact_mod_cast lt_of_mul_lt_mul_right hlt hu.le
  omega

/-- Below a power of ten a thirteenth digit is printed, so `y` has to be nearer. -/
theorem printed_of_near_below (hk : k ≤ 10) (hy : y < 10 ^ k)
    (h : |y - (10 ^ 11 : ℤ) * 10 ^ (k - 11)| < 10 ^ (k - 12) / 4) :
    printed y = (10 ^ 11 : ℤ) * 10 ^ (k - 11) := by
  have hv := ten_zpow_pos (k - 12)
  have hu : (10 : ℚ) ^ (k - 11) = 10 ^ 1 * 10 ^ (k - 12) := ten_zpow_eq (by omega)
  have h₁₀ : (10 : ℚ) ^ (k - 1) = 10 ^ 11 * 10 ^ (k - 12) := ten_zpow_eq (by omega)
  have hexp : k - 1 - 11 = k - 12 := by ring
  have hT : ((10 ^ 11 : ℤ) : ℚ) * 10 ^ (k - 11) = (10 ^ 12 : ℤ) * 10 ^ (k - 1 - 11) := by
    rw [hu, hexp]
    push_cast
    ring
  rw [hT] at h ⊢
  refine printed_eq (by omega) ?_ (by rwa [sub_add_cancel]) ?_
  · rw [hexp] at h
    push_cast at h
    rw [h₁₀]
    linarith [(abs_lt.1 h).1]
  · rw [hexp] at h ⊢
    linarith

/-- Only a power of ten is near a number from it on. -/
theorem eq_of_near_above (hy : 10 ^ (k + 1) ≤ y) (hn : n ≤ 10 ^ 12)
    (h : |y - n * 10 ^ (k - 11)| < 10 ^ (k - 11) / 4) : n = 10 ^ 12 := by
  have hu := ten_zpow_pos (k - 11)
  have h₁₂ : (10 : ℚ) ^ (k + 1) = 10 ^ 12 * 10 ^ (k - 11) := ten_zpow_eq (by omega)
  have hc := (abs_lt.1 h).2
  have hlt : (10 ^ 12 - 1) * (10 : ℚ) ^ (k - 11) < n * 10 ^ (k - 11) := by linarith
  have hlt : 10 ^ 12 - 1 < n := by exact_mod_cast lt_of_mul_lt_mul_right hlt hu.le
  omega

/-- From the next power of ten on one digit less is printed. -/
theorem printed_of_near_above (hk : k ≤ 10) (hy : 10 ^ (k + 1) ≤ y)
    (h : |y - (10 ^ 12 : ℤ) * 10 ^ (k - 11)| < 10 ^ (k - 11) / 4) :
    printed y = (10 ^ 12 : ℤ) * 10 ^ (k - 11) := by
  have hu := ten_zpow_pos (k - 11)
  have h₁₀ : (10 : ℚ) ^ (k + 1 - 11) = 10 ^ 1 * 10 ^ (k - 11) := ten_zpow_eq (by omega)
  have h₁₃ : (10 : ℚ) ^ (k + 1 + 1) = 10 ^ 13 * 10 ^ (k - 11) := ten_zpow_eq (by omega)
  have hT : ((10 ^ 12 : ℤ) : ℚ) * 10 ^ (k - 11) = (10 ^ 11 : ℤ) * 10 ^ (k + 1 - 11) := by
    rw [h₁₀]
    push_cast
    ring
  have hc := (abs_lt.1 h).2
  rw [hT] at h ⊢
  refine printed_eq (by omega) hy ?_ ?_
  · rw [h₁₃]
    push_cast at hc
    linarith
  · rw [h₁₀] at h ⊢
    linarith

/-- What is near enough to a number of twelve digits prints as that number. -/
theorem printed_of_near (hk : k ≤ 10) (hn₁ : 10 ^ 11 ≤ n) (hn₂ : n ≤ 10 ^ 12)
    (h : |y - n * 10 ^ (k - 11)| < 10 ^ (k - 11) / 4)
    (hbelow : y < 10 ^ k → |y - n * 10 ^ (k - 11)| < 10 ^ (k - 12) / 4) :
    printed y = n * 10 ^ (k - 11) := by
  rcases lt_or_ge y (10 ^ k) with hy | hy
  · obtain rfl := eq_of_near_below hy hn₁ h
    exact printed_of_near_below hk hy (hbelow hy)
  · rcases lt_or_ge y (10 ^ (k + 1)) with hy' | hy'
    · exact printed_of_near_within hk hy hy' h
    · obtain rfl := eq_of_near_above hy' hn₂ h
      exact printed_of_near_above hk hy' h

end Near

/-! ## Reading back -/

/-- What a positive double prints as is read back as a double that prints as the same, `slip`
excepted. -/
theorem printed_rounded (hx : rounded x = x) (hpos : 0 < x) (hslip : x ≠ slip) :
    printed (rounded (printed x)) = printed x := by
  rcases le_or_gt 11 (Int.log 10 x) with hk | hk
  · obtain ⟨n, hn, -⟩ := printed_of_le_log hx hpos hk
    rw [rounded_printed_of_le_log hx hpos hk, hn, printed_intCast]
  rcases le_or_gt (Int.log 10 x) (-313) with hlow | hlow
  · rw [rounded_printed_of_log_le hx hpos hlow]
  obtain ⟨n, hn, hn₁, hn₂, -⟩ := printed_bounds hpos (by omega)
  have hnear := abs_rounded_printed_sub_lt hpos (by omega) (j := Int.log 10 x - 11) le_rfl
    (by omega) (by omega)
  conv_rhs => rw [hn]
  rw [hn] at hnear
  refine printed_of_near (by omega) hn₁ hn₂ (by rwa [hn]) fun hy => ?_
  -- below a power of ten, which only the double at `slip` is too far away from
  have hk₁ : -311 ≤ Int.log 10 x := by
    by_contra hlt
    have hk₁ : Int.log 10 x = -312 := by omega
    refine hslip (eq_slip hx hk₁ hpos ?_)
    have h₁₁ : (10 : ℚ) ^ (-312 : ℤ) = 10 ^ 11 * 10 ^ (-312 - 11 : ℤ) := ten_zpow_eq (by norm_num)
    rw [hn, eq_of_near_below hy hn₁ (by rwa [hn]), hk₁, h₁₁, Int.cast_pow, Int.cast_ofNat]
  have := abs_rounded_printed_sub_lt hpos (by omega) (j := Int.log 10 x - 12) (by omega) (by omega)
    (by omega)
  rw [hn] at this ⊢
  exact this

theorem printed_pos (hpos : 0 < x) : 0 < printed x := by
  rcases le_or_gt (Int.log 10 x) 11 with hk | hk
  · obtain ⟨n, hn, hn₁, -, -⟩ := printed_bounds hpos hk
    rw [hn]
    exact mul_pos (by exact_mod_cast lt_of_lt_of_le (by norm_num) hn₁) (ten_zpow_pos _)
  · have hplaces : printedPlaces x = 0 := by
      rw [printedPlaces]
      omega
    have hlow : ((1 : ℤ) : ℚ) ≤ x := by
      have := zpow_log_le hpos
      refine le_trans ?_ this
      rw [Int.cast_one]
      exact one_le_zpow₀ (by norm_num) (by omega)
    have : 1 ≤ nearestEven x := le_nearestEven hlow
    have : (0 : ℚ) < nearestEven x := by exact_mod_cast this
    simpa [printed, hplaces] using this

/-- What is read back is neither zero nor too large. -/
theorem rounded_printed_bounds (hx : rounded x = x) (hpos : 0 < x) (hlt : x < 2 ^ (1024 : ℤ)) :
    0 < rounded (printed x) ∧ rounded (printed x) < 2 ^ (1024 : ℤ) := by
  have hT := printed_pos hpos
  have hbig : (2 : ℚ) ^ 53 < 2 ^ (1024 : ℤ) := by
    rw [← zpow_natCast]
    exact zpow_lt_zpow_right₀ one_lt_two (by norm_num)
  generalize (2 : ℚ) ^ (1024 : ℤ) = bound at hlt hbig ⊢
  rcases le_or_gt 11 (Int.log 10 x) with hk | hk
  · rw [rounded_printed_of_le_log hx hpos hk]
    refine ⟨hT, ?_⟩
    obtain ⟨n, hn, -, heq | hle⟩ := printed_of_le_log hx hpos hk
    · rwa [heq]
    · rw [hn]
      exact lt_of_le_of_lt (by exact_mod_cast hle) hbig
  rcases le_or_gt (Int.log 10 x) (-313) with hlow | hlow
  · rw [rounded_printed_of_log_le hx hpos hlow]
    exact ⟨hpos, hlt⟩
  · obtain ⟨n, hn, hn₁, hn₂, -⟩ := printed_bounds hpos (by omega)
    have hnear := abs_lt.1 (abs_rounded_printed_sub_lt hpos (by omega) (j := Int.log 10 x - 11)
      le_rfl (by omega) (by omega))
    have hu := ten_zpow_pos (Int.log 10 x - 11)
    have hu₁ : (10 : ℚ) ^ (Int.log 10 x - 11) ≤ 1 := zpow_le_one_of_nonpos₀ (by norm_num) (by omega)
    have hn₁ : (10 ^ 11 : ℚ) ≤ n := by exact_mod_cast hn₁
    have hn₂ : (n : ℚ) ≤ 10 ^ 12 := by exact_mod_cast hn₂
    have h₁ := mul_le_mul_of_nonneg_right hn₁ hu.le
    have h₂ := mul_le_mul_of_nonneg_right hn₂ hu.le
    constructor <;> linarith

end SparsePoly.Decimal
