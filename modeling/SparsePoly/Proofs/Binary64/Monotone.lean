import Mathlib
import SparsePoly.Proofs.Binary64.Bounds

/-!
# Rounding keeps the order

A larger number is not rounded to a smaller one (`rounded_mono`): numbers with the same last place
are rounded as integers are, and between numbers with different last places there is a power of
two.  So the computed midpoint of two doubles lies between them, and since halving is exact unless
the sum was, it is their exact midpoint, rounded once (`toRat_midpoint`).
-/

namespace SparsePoly.Binary64

variable {x y : Float} {q r : ℚ}

/-! ## Rounding -/

theorem nearestEven_mono : Monotone nearestEven := by
  intro q r h
  by_cases hfloor : ⌊q⌋ = ⌊r⌋
  · have hfract : Int.fract q ≤ Int.fract r := by
      unfold Int.fract
      rw [hfloor]
      linarith
    unfold nearestEven
    rw [hfloor]
    split_ifs with hq hr hr
    · exact le_rfl
    · exact (lt_add_one _).le
    · refine absurd ?_ hq
      rcases hr with hr | ⟨hr, heven⟩
      · exact Or.inl (hfract.trans_lt hr)
      · exact (hfract.trans_eq hr).lt_or_eq.imp_right fun hq => ⟨hq, heven⟩
    · exact le_rfl
  · have hlt : ⌊q⌋ + 1 ≤ ⌊r⌋ := (Int.floor_mono h).lt_of_ne hfloor
    calc nearestEven q ≤ ⌊q⌋ + 1 := nearestEven_le (by exact_mod_cast (Int.lt_floor_add_one q).le)
      _ ≤ ⌊r⌋ := hlt
      _ ≤ nearestEven r := le_nearestEven (Int.floor_le r)

/-- Of two numbers above zero the larger one does not have the smaller last place. -/
theorem quantum_le_quantum (hq : 0 < q) (h : q ≤ r) : quantum q ≤ quantum r := by
  unfold quantum
  rw [abs_of_pos hq, abs_of_pos (hq.trans_le h)]
  have := Int.log_mono_right (b := 2) hq h
  omega

theorem rounded_le_rounded_of_pos (hq : 0 < q) (h : q ≤ r) : rounded q ≤ rounded r := by
  have hr : 0 < r := hq.trans_le h
  rcases (quantum_le_quantum hq h).eq_or_lt with heq | hlt
  · have hquantum : (0 : ℚ) < 2 ^ quantum r := zpow_pos two_pos _
    have hnearest := nearestEven_mono (div_le_div_of_nonneg_right h hquantum.le)
    rw [rounded, rounded, heq]
    exact mul_le_mul_of_nonneg_right (by exact_mod_cast hnearest) hquantum.le
  · -- the power of two between the numbers is passed by neither
    have hlow : -1074 ≤ quantum q := le_max_right _ _
    have hq' : |q| ≤ 2 ^ (quantum r + 52) :=
      (lt_zpow_quantum q).le.trans (zpow_le_zpow_right₀ one_le_two (by omega))
    have hr' : 2 ^ (quantum r + 52) ≤ |r| := (zpow_quantum_le hr.ne').resolve_right (by omega)
    calc rounded q ≤ |rounded q| := le_abs_self _
      _ ≤ 2 ^ (quantum r + 52) := abs_rounded_le (by omega) hq'
      _ ≤ |rounded r| := le_abs_rounded (by omega) hr'
      _ = rounded r := abs_of_nonneg (rounded_nonneg hr.le)

theorem rounded_nonpos (h : q ≤ 0) : rounded q ≤ 0 := by
  have := rounded_nonneg (neg_nonneg.2 h)
  rwa [rounded_neg, neg_nonneg] at this

/-- A larger number is not rounded to a smaller one. -/
theorem rounded_mono : Monotone rounded := by
  intro q r h
  by_cases hq : 0 < q
  · exact rounded_le_rounded_of_pos hq h
  by_cases hr : r < 0
  · have := rounded_le_rounded_of_pos (neg_pos.2 hr) (neg_le_neg h)
    rw [rounded_neg, rounded_neg] at this
    exact neg_le_neg_iff.1 this
  · exact (rounded_nonpos (not_lt.1 hq)).trans (rounded_nonneg (not_lt.1 hr))

/-- Rounding keeps a number between two doubles. -/
theorem toRat_le_rounded (h : toRat x ≤ q) : toRat x ≤ rounded q := by
  rw [← rounded_toRat x]
  exact rounded_mono h

theorem rounded_le_toRat (h : q ≤ toRat x) : rounded q ≤ toRat x := by
  rw [← rounded_toRat x]
  exact rounded_mono h

theorem abs_rounded (q : ℚ) : |rounded q| = rounded |q| := by
  rcases le_total 0 q with hq | hq
  · rw [abs_of_nonneg hq, abs_of_nonneg (rounded_nonneg hq)]
  · rw [abs_of_nonpos hq, rounded_neg, abs_of_nonpos (rounded_nonpos hq)]

/-! ## The largest double -/

/-- The largest finite value. -/
def largest : ℚ := (2 ^ 53 - 1) * 2 ^ (971 : ℤ)

theorem two_le_largest : 2 ≤ largest := by
  have hone : (1 : ℚ) ≤ 2 ^ (971 : ℤ) := one_le_zpow₀ one_le_two (by norm_num)
  calc (2 : ℚ) ≤ (2 ^ 53 - 1) * 1 := by norm_num
    _ ≤ largest := mul_le_mul_of_nonneg_left hone (by norm_num)

theorem largest_lt : largest < 2 ^ (1024 : ℤ) := by
  have hsplit : (2 : ℚ) ^ (1024 : ℤ) = 2 ^ 53 * 2 ^ (971 : ℤ) := by
    rw [← zpow_natCast, ← zpow_add₀ two_ne_zero]
    rfl
  rw [hsplit, largest]
  exact mul_lt_mul_of_pos_right (by norm_num) (zpow_pos two_pos _)

theorem rounded_largest : rounded largest = largest := by
  have hcast : (2 ^ 53 - 1 : ℚ) = ((2 ^ 53 - 1 : ℤ) : ℚ) := by norm_num
  rw [largest, hcast]
  exact rounded_eq_self_of_lt (by norm_num) (by norm_num)

theorem abs_toRat_le_largest (x : Float) : |toRat x| ≤ largest := by
  by_cases h₀ : toRat x = 0
  · rw [h₀, abs_zero]
    exact two_pos.le.trans two_le_largest
  obtain ⟨s, m, e, hp, hu⟩ := unpack_of_toRat_ne_zero h₀
  obtain ⟨hr, he⟩ := isRounded_of_unpack hu
  have hm : (m : ℚ) ≤ 2 ^ 53 - 1 := by
    rw [le_sub_iff_add_le]
    exact_mod_cast hr.lt
  rw [toRat, hu, abs_value_finite, largest]
  exact mul_le_mul hm (zpow_le_zpow_right₀ one_le_two he) (zpow_pos two_pos e).le (by norm_num)

/-- A result is finite if the exact result is not above the largest double. -/
theorem abs_rounded_lt_of_le_largest (h : |q| ≤ largest) : |rounded q| < 2 ^ (1024 : ℤ) := by
  rw [abs_rounded]
  refine (rounded_mono h).trans_lt ?_
  rw [rounded_largest]
  exact largest_lt

theorem toRat_add_of_le_largest (hx : x.isFinite = true) (hy : y.isFinite = true)
    (h : |toRat x + toRat y| ≤ largest) :
    (x + y).isFinite = true ∧ toRat (x + y) = rounded (toRat x + toRat y) :=
  toRat_add hx hy (abs_rounded_lt_of_le_largest h)

/-! ## Midpoints -/

/-- The value of a double is a multiple of the smallest one. -/
theorem exists_toRat_eq (x : Float) : ∃ k : ℤ, toRat x = k * 2 ^ (-1074 : ℤ) := by
  obtain ⟨n, t, -, ht, hx⟩ := exists_toRat_eq_mul x
  refine ⟨n * 2 ^ (t + 1074).toNat, ?_⟩
  rw [hx, Int.cast_mul, Int.cast_pow, Int.cast_ofNat, mul_assoc, ← zpow_natCast,
    Int.toNat_of_nonneg (by omega), ← zpow_add₀ two_ne_zero]
  congr 2
  omega

/-- Small sums are exact. -/
theorem rounded_add_of_lt (h : |toRat x + toRat y| < 2 ^ (-1021 : ℤ)) :
    rounded (toRat x + toRat y) = toRat x + toRat y := by
  obtain ⟨j, hj⟩ := exists_toRat_eq x
  obtain ⟨k, hk⟩ := exists_toRat_eq y
  rw [hj, hk, ← add_mul, ← Int.cast_add] at h ⊢
  have hbound : |j + k| < 2 ^ 53 := by
    have hunit : (0 : ℚ) < 2 ^ (-1074 : ℤ) := zpow_pos two_pos _
    rw [abs_mul, abs_of_pos hunit, show (-1021 : ℤ) = (53 : ℕ) + -1074 from rfl,
      zpow_add₀ two_ne_zero, zpow_natCast] at h
    have := lt_of_mul_lt_mul_right h hunit.le
    exact_mod_cast this
  exact rounded_eq_self_of_lt hbound le_rfl

/-- Halving a number that is not small commutes with rounding. -/
theorem rounded_half (h : 2 ^ (-1021 : ℤ) ≤ |q|) : rounded (q / 2) = rounded q / 2 := by
  have h₀ : q ≠ 0 := abs_pos.1 ((zpow_pos two_pos _).trans_le h)
  have hlow : -1073 ≤ quantum q := le_quantum h
  have habs : |q / 2| = |q| / 2 := by rw [abs_div, abs_two]
  have hpow (k : ℤ) : (2 : ℚ) ^ (k - 1) = 2 ^ k / 2 := by
    rw [zpow_sub_one₀ two_ne_zero, div_eq_mul_inv]
  have hquantum : quantum (q / 2) = quantum q - 1 := by
    apply le_antisymm
    · apply quantum_le (div_ne_zero h₀ two_ne_zero)
      · rw [habs, sub_add_eq_add_sub, hpow]
        exact div_lt_div_of_pos_right (lt_zpow_quantum q) two_pos
      · omega
    · apply le_quantum
      rw [habs, sub_add_eq_add_sub, hpow]
      exact div_le_div_of_nonneg_right ((zpow_quantum_le h₀).resolve_right (by omega)) two_pos.le
  unfold rounded
  rw [hquantum, hpow, div_div_div_cancel_right₀ two_ne_zero, mul_div_assoc]

/-- The computed midpoint is the exact one, rounded once. -/
theorem toRat_midpoint (hx : x.isFinite = true) (hy : y.isFinite = true)
    (h : |toRat x + toRat y| ≤ largest) :
    ((x + y) / 2.0).isFinite = true ∧
      toRat ((x + y) / 2.0) = rounded ((toRat x + toRat y) / 2) := by
  have htwo : toRat 2.0 = 2 := (isInt_of_isNat (k := 2) (by decide)).toRat_eq
  obtain ⟨hsum, hvalue⟩ := toRat_add_of_le_largest hx hy h
  have hhalf : |toRat (x + y) / toRat 2.0| ≤ largest := by
    rw [htwo, abs_div, abs_two]
    linarith [abs_nonneg (toRat (x + y)), abs_toRat_le_largest (x + y)]
  obtain ⟨hfinite, hquot⟩ := toRat_div hsum (y := 2.0) (by rw [htwo]; exact two_ne_zero)
    (abs_rounded_lt_of_le_largest hhalf)
  refine ⟨hfinite, hquot.trans ?_⟩
  rw [htwo]
  by_cases hsmall : |toRat x + toRat y| < 2 ^ (-1021 : ℤ)
  · rw [hvalue, rounded_add_of_lt hsmall]
  · have hlarge : 2 ^ (-1021 : ℤ) ≤ |toRat x + toRat y| := not_lt.1 hsmall
    have hlarge' := le_abs_rounded (by norm_num) hlarge
    rw [← hvalue] at hlarge'
    rw [rounded_half hlarge, rounded_half hlarge', rounded_toRat, hvalue]

/-- The midpoint lies between the two doubles. -/
theorem midpoint_between (hx : x.isFinite = true) (hy : y.isFinite = true)
    (h : |toRat x + toRat y| ≤ largest) (hxy : x ≤ y) :
    x ≤ (x + y) / 2.0 ∧ (x + y) / 2.0 ≤ y := by
  obtain ⟨hfinite, hvalue⟩ := toRat_midpoint hx hy h
  rw [le_iff_toRat hx hy] at hxy
  rw [le_iff_toRat hx hfinite, le_iff_toRat hfinite hy, hvalue]
  exact ⟨toRat_le_rounded (by linarith), rounded_le_toRat (by linarith)⟩

end SparsePoly.Binary64
