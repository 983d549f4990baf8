import Mathlib
import SparsePoly.Proofs.Binary64.Bounds

/-!
# The square root

The mantissa is shifted until its integral root has 53 bits, and what the root leaves over says
where the exact root lies above the integral one (`holds_root`).  The square of the computed root
differs from the number by at most `2 ^ -51` of its size (`sqrt_spec`), and the root of the square
of an integer is exact (`IsInt.sqrt`).
-/

open Float.Model Float.Model.UnpackedFloat

namespace SparsePoly.Binary64

/-! ## The integral root -/

/-- The accuracy of the integral root of `n`. -/
def rootAccuracy (n : ℕ) : Accuracy :=
  if n - n.sqrt * n.sqrt = 0 then .exact
  else .inexact (if n - n.sqrt * n.sqrt ≤ n.sqrt then .lt else .gt)

/-- A rational number in the same part of the unit above the integral root as the exact root. -/
def rootProxy (n : ℕ) : ℚ :=
  n.sqrt +
    if n - n.sqrt * n.sqrt = 0 then 0 else if n - n.sqrt * n.sqrt ≤ n.sqrt then 1 / 4 else 3 / 4

theorem holds_root (n : ℕ) :
    Holds (.ofMantissaAndAccuracy n.sqrt (rootAccuracy n)) (rootProxy n) := by
  unfold rootAccuracy rootProxy
  split_ifs
  · simpa using holds_exact n.sqrt
  · constructor <;> simp only [ExtendedMantissa.ofMantissaAndAccuracy]
    · linarith
    · linarith
    · simp only [Bool.false_eq_true, false_iff, not_le]
      linarith
    · simp
  · constructor <;> simp only [ExtendedMantissa.ofMantissaAndAccuracy]
    · linarith
    · linarith
    · simp only [true_iff]
      linarith
    · simp
      norm_num

theorem sqrt_le_rootProxy (n : ℕ) : n.sqrt ≤ rootProxy n := by
  unfold rootProxy
  split_ifs <;> linarith

theorem rootProxy_pos {n : ℕ} (h : 2 ^ 52 ≤ n.sqrt) : 0 < rootProxy n := by
  have hroot : (2 : ℚ) ^ 52 ≤ n.sqrt := by exact_mod_cast h
  linarith [sqrt_le_rootProxy n]

theorem rootProxy_mul_self (n : ℕ) : rootProxy (n * n) = n := by
  rw [rootProxy, Nat.sqrt_eq, Nat.sub_self, if_pos rfl, add_zero]

theorem abs_sq_rootProxy_sub_le (n : ℕ) : |rootProxy n ^ 2 - n| ≤ n.sqrt / 2 := by
  obtain ⟨r, hr⟩ : ∃ r, r = n.sqrt := ⟨_, rfl⟩
  have hlow : r * r ≤ n := hr ▸ Nat.sqrt_le n
  have hhigh : n ≤ r * r + r + r := hr ▸ Nat.sqrt_le_add n
  obtain ⟨d, rfl⟩ := Nat.exists_eq_add_of_le hlow
  unfold rootProxy
  rw [← hr, Nat.add_sub_cancel_left]
  have hd : (d : ℚ) ≤ r + r := by exact_mod_cast (by omega : d ≤ r + r)
  push_cast
  rw [abs_le]
  split_ifs with h₀ h₁
  · rw [h₀]
    constructor <;> push_cast <;> nlinarith [(Nat.cast_nonneg r : (0 : ℚ) ≤ r)]
  · have h₀ : (1 : ℚ) ≤ d := by exact_mod_cast Nat.one_le_iff_ne_zero.2 h₀
    have h₁ : (d : ℚ) ≤ r := by exact_mod_cast h₁
    constructor <;> nlinarith
  · have h₁ : (r : ℚ) + 1 ≤ d := by exact_mod_cast (by omega : r + 1 ≤ d)
    constructor <;> nlinarith

/-! ## The shift -/

theorem sq_two_zpow (t : ℤ) : ((2 : ℚ) ^ t) ^ 2 = 2 ^ (2 * t) := by
  rw [← zpow_natCast, ← zpow_mul, mul_comm]
  rfl

/-- The exponent of the root is low enough for a root of 53 bits. -/
theorem sqrtExponent_bounds {m : ℕ} {e t : ℤ} (he : -1074 ≤ e)
    (ht : t = min (e.ediv 2) (Format.binary64.targetExponent ((totalExponent m e + 1).ediv 2))) :
    2 * t ≤ e ∧ 104 ≤ m.log2 + (e - 2 * t) := by
  have htarget : Format.binary64.targetExponent ((totalExponent m e + 1).ediv 2) =
      max (((m.log2 : ℤ) + 1 + e + 1) / 2 - 53) (-1074) := by
    show max ((((m.log2 : ℤ) + 1 + e + 1).ediv 2) - (1 + 52 : ℕ)) (3 - 2 ^ 10 - (1 + 52 : ℕ)) = _
    norm_num
    rfl
  have hhalf : e.ediv 2 = e / 2 := rfl
  rw [htarget, hhalf] at ht
  omega

theorem two_pow_le_sqrt {m : ℕ} (hm : 0 < m) {k : ℕ} (hk : 104 ≤ m.log2 + k) :
    2 ^ 52 ≤ (m <<< k).sqrt := by
  rw [Nat.le_sqrt, Nat.shiftLeft_eq]
  calc 2 ^ 52 * 2 ^ 52 ≤ 2 ^ (m.log2 + k) := by
        rw [← pow_add]
        exact Nat.pow_le_pow_right two_pos hk
    _ = 2 ^ m.log2 * 2 ^ k := pow_add _ _ _
    _ ≤ m * 2 ^ k := Nat.mul_le_mul_right _ (Nat.log2_self_le hm.ne')

/-- The root is the number that stands for the root of the shifted mantissa, rounded. -/
theorem sqrt_finite_eq {m : ℕ} {e : ℤ} (hm : 0 < m) (he : -1074 ≤ e) :
    ∃ (n : ℕ) (t : ℤ), (n : ℚ) * 2 ^ (2 * t) = m * 2 ^ e ∧ 2 ^ 52 ≤ n.sqrt ∧
      IsCanonical (UnpackedFloat.sqrt .binary64 (.finite .positive m e hm)) ∧
      value (UnpackedFloat.sqrt .binary64 (.finite .positive m e hm)) =
        rounded (rootProxy n * 2 ^ t) := by
  obtain ⟨t, ht⟩ : ∃ t, t = min (e.ediv 2)
    (Format.binary64.targetExponent ((totalExponent m e + 1).ediv 2)) := ⟨_, rfl⟩
  obtain ⟨hte, hbits⟩ := sqrtExponent_bounds he ht
  obtain ⟨n, hn⟩ : ∃ n, n = m <<< (e - 2 * t).toNat := ⟨_, rfl⟩
  have hroot : 2 ^ 52 ≤ n.sqrt := hn ▸ two_pow_le_sqrt hm (by omega)
  have hpos : 0 < rootProxy n := rootProxy_pos hroot
  have hscale : (n : ℚ) * 2 ^ (2 * t) = m * 2 ^ e := by
    rw [hn, Nat.shiftLeft_eq]
    push_cast
    rw [← zpow_natCast, Int.toNat_of_nonneg (by omega), mul_assoc, ← zpow_add₀ two_ne_zero]
    congr 2
    ring
  have hlast : t ≤ Format.binary64.targetExponent (totalExponent n.sqrt t) := by
    have := (Nat.le_log2 (by omega)).2 hroot
    rw [targetExponent_eq]
    omega
  have hsqrt : UnpackedFloat.sqrt .binary64 (.finite .positive m e hm) =
      roundWithAccuracy .binary64 .positive n.sqrt t (rootAccuracy n) := by
    rw [hn, ht]
    rfl
  have hspec := roundWithAccuracy_spec .positive hpos (holds_root n) hlast
  exact ⟨n, t, hscale, hroot, hsqrt ▸ hspec.1, hsqrt ▸ hspec.2⟩

/-- The root is rounded from a number whose square is the operand up to its last place. -/
theorem sqrt_finite_spec {m : ℕ} {e : ℤ} (hm : 0 < m) (he : -1074 ≤ e) :
    ∃ y : ℚ, 0 < y ∧ |y ^ 2 - (m : ℚ) * 2 ^ e| ≤ 2 ^ (-53 : ℤ) * ((m : ℚ) * 2 ^ e) ∧
      IsCanonical (UnpackedFloat.sqrt .binary64 (.finite .positive m e hm)) ∧
      value (UnpackedFloat.sqrt .binary64 (.finite .positive m e hm)) = rounded y := by
  obtain ⟨n, t, hscale, hroot, hc, hv⟩ := sqrt_finite_eq hm he
  refine ⟨rootProxy n * 2 ^ t, mul_pos (rootProxy_pos hroot) (zpow_pos two_pos t), ?_, hc, hv⟩
  have hroot' : (2 : ℚ) ^ 52 ≤ n.sqrt := by exact_mod_cast hroot
  have hsquare : (rootProxy n * 2 ^ t) ^ 2 - m * 2 ^ e = (rootProxy n ^ 2 - n) * 2 ^ (2 * t) := by
    rw [← hscale, mul_pow, sq_two_zpow]
    ring
  have hproxy : |rootProxy n ^ 2 - n| ≤ 2 ^ (-53 : ℤ) * n := by
    have hn' : (n.sqrt : ℚ) * n.sqrt ≤ n := by exact_mod_cast Nat.sqrt_le n
    refine (abs_sq_rootProxy_sub_le n).trans ?_
    norm_num
    nlinarith
  have hunit : (0 : ℚ) < 2 ^ (2 * t) := zpow_pos two_pos _
  rw [hsquare, abs_mul, abs_of_pos hunit, ← hscale, ← mul_assoc]
  exact mul_le_mul_of_nonneg_right hproxy hunit.le

/-- Nothing is lost before the root of a square is rounded. -/
theorem sqrt_finite_square {m : ℕ} {e : ℤ} (hm : 0 < m) (he : -1074 ≤ e) {r : ℚ} (hr : 0 ≤ r)
    (h : (m : ℚ) * 2 ^ e = r ^ 2) :
    IsCanonical (UnpackedFloat.sqrt .binary64 (.finite .positive m e hm)) ∧
      value (UnpackedFloat.sqrt .binary64 (.finite .positive m e hm)) = rounded r := by
  obtain ⟨n, t, hscale, -, hc, hv⟩ := sqrt_finite_eq hm he
  have hunit : (0 : ℚ) < 2 ^ t := zpow_pos two_pos t
  rw [h, ← sq_two_zpow] at hscale
  have hsquare : IsSquare (n : ℚ) := by
    refine ⟨r / 2 ^ t, ?_⟩
    rw [div_mul_div_comm, ← sq, ← sq, ← hscale, mul_div_cancel_right₀ _ (pow_pos hunit 2).ne']
  obtain ⟨k, rfl⟩ := Rat.isSquare_natCast_iff.1 hsquare
  have hroot : (k : ℚ) * 2 ^ t = r := by
    refine (sq_eq_sq₀ (by positivity) hr).1 ?_
    rw [← hscale, mul_pow]
    push_cast
    ring
  rw [rootProxy_mul_self, hroot] at hv
  exact ⟨hc, hv⟩

/-! ## Doubles -/

variable {x : Float} {k : ℤ}

/-- The square of a rounded number, for numbers that are not tiny. -/
theorem abs_sq_rounded_sub_le {v y : ℚ} (hv : 2 ^ (-1074 : ℤ) ≤ v) (hy : 0 < y)
    (h : |y ^ 2 - v| ≤ 2 ^ (-53 : ℤ) * v) : |rounded y ^ 2 - v| ≤ 2 ^ (-51 : ℤ) * v := by
  obtain ⟨hlow, hhigh⟩ := abs_le.1 h
  have hhalf : v / 2 ≤ y ^ 2 := by
    norm_num at hlow
    linarith [(zpow_pos two_pos _).trans_le hv]
  have hy₀ : (2 : ℚ) ^ (-538 : ℤ) ≤ y := by
    refine le_of_sq_le_sq ?_ hy.le
    calc ((2 : ℚ) ^ (-538 : ℤ)) ^ 2 = 2 ^ (-1074 : ℤ) * 2 ^ (-2 : ℤ) := by
          rw [← zpow_natCast, ← zpow_mul, ← zpow_add₀ two_ne_zero]
          rfl
      _ ≤ v * 2 ^ (-2 : ℤ) := mul_le_mul_of_nonneg_right hv (by norm_num)
      _ ≤ y ^ 2 := by
        norm_num
        linarith [(zpow_pos two_pos _).trans_le hv]
  have hleast : (2 : ℚ) ^ (-1075 : ℤ) ≤ 2 ^ (-60 : ℤ) * y := by
    calc (2 : ℚ) ^ (-1075 : ℤ) ≤ 2 ^ (-60 : ℤ) * 2 ^ (-538 : ℤ) := by
          rw [← zpow_add₀ two_ne_zero]
          exact zpow_le_zpow_right₀ one_le_two (by norm_num)
      _ ≤ 2 ^ (-60 : ℤ) * y := mul_le_mul_of_nonneg_left hy₀ (zpow_pos two_pos _).le
  have herror := abs_rounded_sub_le_mul y
  rw [abs_of_pos hy, roundoff] at herror
  have hnear : |rounded y - y| ≤ (2 ^ (-53 : ℤ) + 2 ^ (-60 : ℤ)) * y := by linarith
  norm_num at hnear hlow hhigh ⊢
  obtain ⟨hleft, hright⟩ := abs_le.1 hnear
  have hv₀ : 0 < v := (zpow_pos two_pos _).trans_le hv
  rw [abs_le]
  constructor
  · nlinarith
  · nlinarith

theorem unpack_sqrt_of_toRat_zero (hx : x.isFinite = true) (h : toRat x = 0) :
    ∃ s, x.sqrt.toModel.unpack = .zero s := by
  obtain ⟨s, hs⟩ := beq_zero_iff.1 ((beq_zero_iff_toRat hx).2 h)
  refine ⟨s, ?_⟩
  rw [unpack_sqrt, hs]
  exact unpack_pack_zero s

theorem unpack_sqrt_of_toRat_pos (h : 0 < toRat x) : ∃ y : ℚ, 0 < y ∧
    |y ^ 2 - toRat x| ≤ 2 ^ (-53 : ℤ) * toRat x ∧
    IsCanonical (UnpackedFloat.sqrt .binary64 x.toModel.unpack) ∧
    value (UnpackedFloat.sqrt .binary64 x.toModel.unpack) = rounded y := by
  obtain ⟨s, m, e, hm, hu⟩ := unpack_of_toRat_ne_zero h.ne'
  obtain rfl := (toRat_pos_iff hu).1 h
  have hv : toRat x = (m : ℚ) * 2 ^ e := by rw [toRat, hu, value_finite_eq]; rfl
  rw [hv, hu]
  exact sqrt_finite_spec hm (isRounded_of_unpack hu).1.le

/-- The square root of a finite number that is not negative. -/
theorem sqrt_spec (hx : x.isFinite = true) (h : 0 ≤ toRat x) :
    x.sqrt.isFinite = true ∧ 0 ≤ toRat x.sqrt ∧
      |toRat x.sqrt ^ 2 - toRat x| ≤ 2 ^ (-51 : ℤ) * toRat x := by
  rcases h.eq_or_lt with h₀ | hpos
  · obtain ⟨s, hs⟩ := unpack_sqrt_of_toRat_zero hx h₀.symm
    rw [isFinite_eq, toRat, hs, ← h₀]
    exact ⟨rfl, le_rfl, by simp⟩
  · obtain ⟨y, hy, hsquare, hc, hv⟩ := unpack_sqrt_of_toRat_pos hpos
    have hsize : |y| ≤ 2 ^ (513 : ℤ) := by
      have hquad : y ^ 2 ≤ toRat x * 2 ^ (2 : ℤ) := by
        have := (abs_le.1 hsquare).2
        norm_num at this ⊢
        linarith
      rw [abs_of_pos hy]
      refine le_of_sq_le_sq ?_ (zpow_pos two_pos _).le
      calc y ^ 2 ≤ toRat x * 2 ^ (2 : ℤ) := hquad
        _ ≤ 2 ^ (1024 : ℤ) * 2 ^ (2 : ℤ) := mul_le_mul_of_nonneg_right
            ((le_abs_self _).trans (abs_toRat_lt x).le) (zpow_pos two_pos _).le
        _ = ((2 : ℚ) ^ (513 : ℤ)) ^ 2 := by
            rw [← zpow_natCast, ← zpow_mul, ← zpow_add₀ two_ne_zero]
            rfl
    have hlt := abs_rounded_lt (by norm_num) (by norm_num) hsize
    rw [← hv] at hlt
    obtain ⟨hf, hroot⟩ := toRat_of_unpacked (x := x.sqrt) rfl hc hlt
    rw [hroot, hv]
    exact ⟨hf, rounded_nonneg hy.le, abs_sq_rounded_sub_le
      (by simpa [abs_of_pos hpos] using le_abs_toRat hpos.ne') hy hsquare⟩

/-- The square root of a square is its root, rounded. -/
theorem toRat_sqrt_of_sq {r : ℚ} (hx : x.isFinite = true) (hr : 0 ≤ r) (h : toRat x = r ^ 2)
    (hlt : |rounded r| < 2 ^ (1024 : ℤ)) :
    x.sqrt.isFinite = true ∧ toRat x.sqrt = rounded r := by
  rcases hr.eq_or_lt with rfl | hpos
  · rw [zero_pow two_ne_zero] at h
    obtain ⟨s, hs⟩ := unpack_sqrt_of_toRat_zero hx h
    rw [isFinite_eq, toRat, hs, rounded_zero]
    exact ⟨rfl, rfl⟩
  · have hx₀ : 0 < toRat x := h ▸ pow_pos hpos 2
    obtain ⟨s, m, e, hm, hu⟩ := unpack_of_toRat_ne_zero hx₀.ne'
    obtain rfl := (toRat_pos_iff hu).1 hx₀
    have hv : (m : ℚ) * 2 ^ e = r ^ 2 := by
      rw [← h, toRat, hu, value_finite_eq]
      rfl
    obtain ⟨hc, hvalue⟩ := sqrt_finite_square hm (isRounded_of_unpack hu).1.le hr hv
    rw [← hu] at hc hvalue
    rw [← hvalue] at hlt ⊢
    exact toRat_of_unpacked (x := x.sqrt) rfl hc hlt

/-- The square root of the square of an integer is exact. -/
theorem IsInt.sqrt {n : ℤ} (hx : IsInt x (n ^ 2)) (hn : 0 ≤ n) (h : n ≤ 2 ^ 53) :
    IsInt x.sqrt n := by
  have hle : |n| ≤ 2 ^ 53 := by rwa [abs_of_nonneg hn]
  obtain ⟨hf, hv⟩ := toRat_sqrt_of_sq (r := n) hx.finite (by exact_mod_cast hn)
    (by rw [hx.toRat_eq, Int.cast_pow]) (abs_intCast_lt hle)
  exact ⟨hf, by rw [hv, rounded_intCast hle]⟩

/-- The root has about half the exponent. -/
theorem Bounded.sqrt (hx : Bounded x (2 * k)) (h : 0 ≤ toRat x) : Bounded x.sqrt (k + 1) := by
  obtain ⟨hf, hnonneg, hsquare⟩ := sqrt_spec hx.finite h
  have hle := (abs_le.1 hsquare).2
  have hx' := hx.le
  rw [abs_of_nonneg h] at hx'
  refine ⟨hf, ?_⟩
  rw [abs_of_nonneg hnonneg]
  refine le_of_sq_le_sq ?_ (zpow_pos two_pos _).le
  calc toRat x.sqrt ^ 2 ≤ toRat x * 2 ^ (2 : ℤ) := by
        norm_num at hle ⊢
        linarith
    _ ≤ 2 ^ (2 * k) * 2 ^ (2 : ℤ) := mul_le_mul_of_nonneg_right hx' (zpow_pos two_pos _).le
    _ = ((2 : ℚ) ^ (k + 1)) ^ 2 := by
        rw [← zpow_natCast, ← zpow_mul, ← zpow_add₀ two_ne_zero]
        congr 1
        push_cast
        ring

/-- The root of a positive number is not tiny. -/
theorem le_toRat_sqrt (hx : x.isFinite = true) (h : 0 < toRat x) :
    2 ^ (-538 : ℤ) ≤ toRat x.sqrt := by
  obtain ⟨-, hnonneg, hsquare⟩ := sqrt_spec hx h.le
  have hle := (abs_le.1 hsquare).1
  have hleast := le_abs_toRat h.ne'
  rw [abs_of_pos h] at hleast
  refine le_of_sq_le_sq ?_ hnonneg
  calc ((2 : ℚ) ^ (-538 : ℤ)) ^ 2 = 2 ^ (-1074 : ℤ) * 2 ^ (-2 : ℤ) := by
        rw [← zpow_natCast, ← zpow_mul, ← zpow_add₀ two_ne_zero]
        rfl
    _ ≤ toRat x * 2 ^ (-2 : ℤ) := mul_le_mul_of_nonneg_right hleast (by norm_num)
    _ ≤ toRat x.sqrt ^ 2 := by
        norm_num at hle ⊢
        linarith

end SparsePoly.Binary64
