import Mathlib
import SparsePoly.Decimal
import SparsePoly.Proofs.Binary64.Operations

/-!
# Doubles from numbers

The double that an integer or a decimal numeral stands for is the exact number, `rounded`
(`toRat_ofScientific`, `toRat_ofScaled`).  An integer of at most 53 bits is met exactly
(`toRat_ofInt`).
-/

open Float.Model Float.Model.UnpackedFloat

namespace SparsePoly.Binary64

/-! ## Very small and very large numbers -/

theorem rounded_eq_zero {x : ℚ} (h : |x| < 2 ^ (-1075 : ℤ)) : rounded x = 0 := by
  rcases eq_or_ne x 0 with rfl | h₀
  · exact rounded_zero
  have hq : quantum x = -1074 := by
    refine le_antisymm (quantum_le h₀ (h.trans ?_) le_rfl) (le_max_right _ _)
    exact zpow_lt_zpow_right₀ one_lt_two (by norm_num)
  have h₂ : (0 : ℚ) < 2 ^ (-1074 : ℤ) := zpow_pos two_pos _
  have hn : nearestEven (x / 2 ^ (-1074 : ℤ)) = 0 := by
    apply nearestEven_eq
    rw [Int.cast_zero, zero_sub, abs_neg, abs_div, abs_of_pos h₂, div_lt_iff₀ h₂]
    have : (2 : ℚ) ^ (-1075 : ℤ) = 1 / 2 * 2 ^ (-1074 : ℤ) := by
      rw [show (-1074 : ℤ) = -1075 + 1 by norm_num, zpow_add_one₀ two_ne_zero]
      ring
    rwa [this] at h
  unfold rounded
  rw [hq, hn, Int.cast_zero, zero_mul]

theorem two_zpow_le_rounded {x : ℚ} (h : 2 ^ (1024 : ℤ) ≤ x) : 2 ^ (1024 : ℤ) ≤ rounded x := by
  have hx : 0 < x := lt_of_lt_of_le (zpow_pos two_pos _) h
  have hq : 972 ≤ quantum x := le_quantum (by rwa [abs_of_pos hx])
  have hn : (nearestEven (x / 2 ^ quantum x)).toNat = nearestEven (x / 2 ^ quantum x) := by
    refine Int.toNat_of_nonneg (le_nearestEven ?_)
    exact_mod_cast div_nonneg hx.le (zpow_pos two_pos _).le
  have hlow := (nearestEven_quantum_bounds hx hn).2.resolve_right (by omega)
  have hlow : (2 : ℚ) ^ 52 ≤ nearestEven (x / 2 ^ quantum x) := by
    rw [← hn]
    exact_mod_cast hlow
  calc (2 : ℚ) ^ (1024 : ℤ) = 2 ^ 52 * 2 ^ (972 : ℤ) := by
        rw [← zpow_natCast, ← zpow_add₀ two_ne_zero]
        rfl
    _ ≤ 2 ^ 52 * 2 ^ quantum x :=
        mul_le_mul_of_nonneg_left (zpow_le_zpow_right₀ one_le_two hq) (by positivity)
    _ ≤ rounded x := mul_le_mul_of_nonneg_right hlow (zpow_pos two_pos _).le

/-! ## Natural numbers and powers of ten -/

theorem toRat_toUInt64_toFloat {n : ℕ} (h : n < 2 ^ 53) :
    n.toUInt64.toFloat.isFinite = true ∧ toRat n.toUInt64.toFloat = n := by
  have hn : n.toUInt64.toNat = n := by
    show n % 2 ^ 64 = n
    omega
  obtain ⟨hc, hv⟩ := normalize_spec (n : ℤ) 0
  have hr : rounded (((n : ℤ) : ℚ) * 2 ^ (0 : ℤ)) = n := by
    rw [zpow_zero, mul_one, rounded_intCast]
    · exact Int.cast_natCast n
    · rw [Nat.abs_cast]
      exact_mod_cast h.le
  rw [hr] at hv
  have hx : n.toUInt64.toFloat.toModel =
      .pack (UnpackedFloat.normalize .binary64 n 0 .positive) := by
    show Float.Model.pack (UnpackedFloat.normalize .binary64 (n.toUInt64.toNat : ℤ) 0 .positive) = _
    rw [hn]
  have hlt : |value (UnpackedFloat.normalize .binary64 n 0 .positive)| < 2 ^ (1024 : ℤ) := by
    rw [hv, Nat.abs_cast]
    calc (n : ℚ) < 2 ^ 53 := by exact_mod_cast h
      _ = 2 ^ (53 : ℤ) := by norm_num
      _ ≤ 2 ^ (1024 : ℤ) := zpow_le_zpow_right₀ one_le_two (by norm_num)
  obtain ⟨h₁, h₂⟩ := toRat_of_unpacked hx hc hlt
  exact ⟨h₁, h₂.trans hv⟩

/-- Whether an unpacked double is the natural number `n`. -/
def isNat (n : ℕ) : UnpackedFloat → Bool
  | .finite .positive m e _ => m <<< e.toNat == n <<< (-e).toNat
  | _ => false

theorem value_of_isNat {n : ℕ} {x : Float} (h : isNat n x.toModel.unpack = true) :
    x.isFinite = true ∧ toRat x = n := by
  unfold toRat
  rw [isFinite_eq]
  cases hx : x.toModel.unpack with
  | finite s m e hp =>
    rw [hx] at h
    cases s
    · simp [isNat] at h
    · refine ⟨rfl, ?_⟩
      simp only [isNat, Nat.shiftLeft_eq, beq_iff_eq] at h
      have h : (m : ℚ) * 2 ^ e.toNat = n * 2 ^ (-e).toNat := by exact_mod_cast h
      rw [value_finite_eq]
      show (m : ℚ) * 2 ^ e = n
      rw [← zpow_natCast, ← zpow_natCast] at h
      have he : e = e.toNat - (-e).toNat := by omega
      rw [he, zpow_sub₀ two_ne_zero, ← mul_div_assoc, h]
      exact mul_div_cancel_right₀ _ (zpow_pos two_pos _).ne'
  | _ => simp [hx, isNat] at h

theorem isNat_powerOfTen : ∀ e : Fin Float.exactlyRepresentablePowersOfTen.size,
    isNat (10 ^ e.val) Float.exactlyRepresentablePowersOfTen[e].toModel.unpack = true := by
  decide +kernel

theorem toRat_powerOfTen (e : ℕ) (h : e < Float.exactlyRepresentablePowersOfTen.size) :
    Float.exactlyRepresentablePowersOfTen[e].isFinite = true ∧
      toRat Float.exactlyRepresentablePowersOfTen[e] = 10 ^ e := by
  have := value_of_isNat (isNat_powerOfTen ⟨e, h⟩)
  exact_mod_cast this

/-! ## Decimal numerals -/

section

variable {m : ℕ} {e : ℤ}

/-- A numeral as large as this would be rounded to an infinity. -/
theorem two_zpow_le_rounded_scaled (hm : m ≠ 0) (he : 2048 < e) :
    (2 : ℚ) ^ (1024 : ℤ) ≤ rounded (m * 10 ^ e) := by
  have hm : (1 : ℚ) ≤ m := by exact_mod_cast Nat.one_le_iff_ne_zero.2 hm
  apply two_zpow_le_rounded
  calc (2 : ℚ) ^ (1024 : ℤ) ≤ 10 ^ (1024 : ℤ) := by
        rw [← Nat.cast_ofNat (n := 1024), zpow_natCast, zpow_natCast]
        exact pow_le_pow_left₀ two_pos.le (by norm_num) _
    _ ≤ 10 ^ e := zpow_le_zpow_right₀ (by norm_num) (by omega)
    _ ≤ m * 10 ^ e := le_mul_of_one_le_left (zpow_pos (by norm_num) e).le hm

/-- A numeral as small as this is rounded to zero. -/
theorem rounded_scaled_eq_zero (he : e < -(2048 + (m.log2 : ℤ))) : rounded (m * 10 ^ e) = 0 := by
  apply rounded_eq_zero
  rw [abs_of_nonneg (mul_nonneg (Nat.cast_nonneg m) (zpow_pos (by norm_num) e).le)]
  calc (m : ℚ) * 10 ^ e ≤ 2 ^ (m.log2 + 1 : ℤ) * 2 ^ e := by
        refine mul_le_mul ?_ ?_ (zpow_pos (by norm_num) e).le (zpow_pos two_pos _).le
        · exact_mod_cast (Nat.lt_log2_self (n := m)).le
        · rw [← neg_neg e, zpow_neg, zpow_neg (2 : ℚ)]
          refine inv_anti₀ (zpow_pos two_pos _) ?_
          rw [← Int.toNat_of_nonneg (a := -e) (by omega), zpow_natCast, zpow_natCast]
          exact pow_le_pow_left₀ two_pos.le (by norm_num) _
    _ = 2 ^ (m.log2 + 1 + e : ℤ) := (zpow_add₀ two_ne_zero _ _).symm
    _ < 2 ^ (-1075 : ℤ) := zpow_lt_zpow_right₀ one_lt_two (by omega)

/-- The product of a shifted mantissa and a power of ten has digits enough to be rounded. -/
theorem le_targetExponent_scaled (hm : m ≠ 0) (k : ℕ) : (-(53 : ℕ) : ℤ) + 0 ≤
    Format.binary64.targetExponent (totalExponent (m <<< 53 * 10 ^ k) (-(53 : ℕ) + 0)) := by
  have hpos : 0 < 10 ^ k := by positivity
  have hM : 2 ^ 53 ≤ m <<< 53 * 10 ^ k := by
    rw [Nat.shiftLeft_eq]
    calc 2 ^ 53 ≤ m * 2 ^ 53 := Nat.le_mul_of_pos_left _ (Nat.pos_of_ne_zero hm)
      _ ≤ m * 2 ^ 53 * 10 ^ k := Nat.le_mul_of_pos_right _ hpos
  have := (Nat.le_log2 (by omega)).2 hM
  rw [targetExponent_eq]
  omega

theorem toRat_ofModel_ofScientific (h : |rounded (m * 10 ^ e)| < 2 ^ (1024 : ℤ)) :
    (Float.ofModel (Float.Model.ofScientific m e)).isFinite = true ∧
      toRat (Float.ofModel (Float.Model.ofScientific m e)) = rounded (m * 10 ^ e) := by
  suffices key : IsCanonical (UnpackedFloat.ofScientific .binary64 m e) ∧
      value (UnpackedFloat.ofScientific .binary64 m e) = rounded (m * 10 ^ e) by
    rw [← key.2] at h ⊢
    exact toRat_of_unpacked rfl key.1 h
  unfold UnpackedFloat.ofScientific
  split_ifs with hm hbig hsmall he
  · exact ⟨trivial, by simp [hm]⟩
  · exact absurd (two_zpow_le_rounded_scaled hm hbig) (not_le.2 ((le_abs_self _).trans_lt h))
  · exact ⟨trivial, by rw [value_zero, rounded_scaled_eq_zero hsmall]⟩
  · have := mul_finite_spec .positive .positive
      (by rw [Nat.shiftLeft_eq]; positivity) (by positivity) (le_targetExponent_scaled hm e.toNat)
    refine ⟨this.1, this.2.trans ?_⟩
    congr 1
    show ((m <<< 53 : ℕ) : ℚ) * 2 ^ (-(53 : ℕ) : ℤ) * (((10 ^ e.toNat : ℕ) : ℚ) * 2 ^ (0 : ℤ)) = _
    rw [Nat.shiftLeft_eq, zpow_neg, zpow_natCast]
    push_cast
    rw [← zpow_natCast (10 : ℚ), Int.toNat_of_nonneg he]
    field_simp
    norm_num
  · have := div_finite_spec .positive .positive (m := m) (n := 10 ^ (-e).toNat) 0 0
      (Nat.pos_of_ne_zero hm) (by positivity)
    refine ⟨this.1, this.2.trans ?_⟩
    congr 1
    show (m : ℚ) * 2 ^ (0 : ℤ) / (((10 ^ (-e).toNat : ℕ) : ℚ) * 2 ^ (0 : ℤ)) = _
    push_cast
    rw [← zpow_natCast (10 : ℚ), Int.toNat_of_nonneg (by omega), zpow_neg]
    field_simp

end

/-- The sign that the flag of a numeral gives to its exponent. -/
def place (negative : Bool) (e : ℕ) : ℤ := if negative then -e else e

theorem toRat_float_ofScientific {m : ℕ} {negative : Bool} {e : ℕ}
    (h : |rounded (m * 10 ^ place negative e)| < 2 ^ (1024 : ℤ)) :
    (Float.ofScientific m negative e).isFinite = true ∧
      toRat (Float.ofScientific m negative e) = rounded (m * 10 ^ place negative e) := by
  unfold Float.ofScientific
  split_ifs with hfast hneg hneg
  · obtain ⟨hm, hmv⟩ := toRat_toUInt64_toFloat hfast.1
    obtain ⟨-, htv⟩ := toRat_powerOfTen e (Nat.lt_succ_of_le hfast.2)
    have hval : (m : ℚ) * 10 ^ place negative e = m / 10 ^ e := by
      rw [place, if_pos hneg, zpow_neg, zpow_natCast, div_eq_mul_inv]
    rw [hval, ← hmv, ← htv] at h
    rw [hval]
    have := toRat_div hm (by rw [htv]; positivity) h
    rwa [hmv, htv] at this
  · obtain ⟨hm, hmv⟩ := toRat_toUInt64_toFloat hfast.1
    obtain ⟨ht, htv⟩ := toRat_powerOfTen e (Nat.lt_succ_of_le hfast.2)
    have hval : (m : ℚ) * 10 ^ place negative e = m * 10 ^ e := by
      rw [place, if_neg hneg, zpow_natCast]
    rw [hval, ← hmv, ← htv] at h
    rw [hval]
    have := toRat_mul hm ht h
    rwa [hmv, htv] at this
  · have hp : place negative e = Int.negOfNat e := by
      rw [place, if_pos hneg, Int.negOfNat_eq]
      rfl
    rw [hp] at h ⊢
    exact toRat_ofModel_ofScientific h
  · have hp : place negative e = Int.ofNat e := by
      rw [place, if_neg hneg]
      rfl
    rw [hp] at h ⊢
    exact toRat_ofModel_ofScientific h

/-- The double that a decimal numeral writes is its value, rounded. -/
theorem toRat_ofScaled {n : ℕ} {e : ℤ} (h : |rounded (n * 10 ^ e)| < 2 ^ (1024 : ℤ)) :
    (Decimal.ofScaled n e).isFinite = true ∧
      toRat (Decimal.ofScaled n e) = rounded (n * 10 ^ e) := by
  unfold Decimal.ofScaled
  split_ifs with he
  · have hp : place false e.toNat = e := by simp [place, he]
    rw [← hp] at h
    have := toRat_float_ofScientific h
    rwa [hp] at this
  · have hp : place true (-e).toNat = e := by
      simp only [place, if_true]
      omega
    rw [← hp] at h
    have := toRat_float_ofScientific h
    rwa [hp] at this

/-! ## Integers -/

theorem abs_intCast_lt {n : ℤ} (h : |n| ≤ 2 ^ 53) : |rounded (n : ℚ)| < 2 ^ (1024 : ℤ) := by
  rw [rounded_intCast h]
  calc |(n : ℚ)| ≤ 2 ^ 53 := by exact_mod_cast h
    _ = 2 ^ (53 : ℤ) := by norm_num
    _ < 2 ^ (1024 : ℤ) := zpow_lt_zpow_right₀ one_lt_two (by norm_num)

theorem toRat_ofNat {n : ℕ} (h : |rounded n| < 2 ^ (1024 : ℤ)) :
    (Float.ofNat n).isFinite = true ∧ toRat (Float.ofNat n) = rounded n := by
  have hval : (n : ℚ) * 10 ^ place false 0 = n := by simp [place]
  rw [← hval] at h
  have := toRat_float_ofScientific h
  rwa [hval] at this

theorem toRat_ofNat_of_le {n : ℕ} (h : n ≤ 2 ^ 53) :
    (Float.ofNat n).isFinite = true ∧ toRat (Float.ofNat n) = n := by
  have habs : |(n : ℤ)| ≤ 2 ^ 53 := by
    rw [Nat.abs_cast]
    exact_mod_cast h
  have hrounded : rounded (n : ℚ) = n := by exact_mod_cast rounded_intCast habs
  obtain ⟨hf, hv⟩ := toRat_ofNat (n := n) (by exact_mod_cast abs_intCast_lt habs)
  exact ⟨hf, hv.trans hrounded⟩

theorem toRat_ofInt {n : ℤ} (h : |rounded n| < 2 ^ (1024 : ℤ)) :
    (Float.ofInt n).isFinite = true ∧ toRat (Float.ofInt n) = rounded n := by
  cases n with
  | ofNat n => exact toRat_ofNat (by simpa using h)
  | negSucc n =>
    have hn : ((Int.negSucc n : ℤ) : ℚ) = -((n + 1 : ℕ) : ℚ) := by
      rw [Int.negSucc_eq]
      push_cast
      ring
    rw [hn, rounded_neg, abs_neg] at h
    rw [hn, rounded_neg]
    obtain ⟨h₁, h₂⟩ := toRat_ofNat h
    show (-(Float.ofNat (n + 1))).isFinite = true ∧ toRat (-(Float.ofNat (n + 1))) = _
    rw [isFinite_neg, toRat_neg, h₂]
    exact ⟨h₁, rfl⟩

end SparsePoly.Binary64
