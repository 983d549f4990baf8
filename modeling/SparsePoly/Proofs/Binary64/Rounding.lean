import Mathlib
import SparsePoly.Proofs.Binary64.Value

/-!
# Rounding

`nearestEven` rounds a rational number to the nearest integer, a tie to the even one, and `rounded`
rounds it in the same way to a multiple of the last place that a double of its size has (`quantum`).
The shifts of `roundWithAccuracy` compute `rounded` (`roundWithAccuracy_spec`): the mantissa with
its round and sticky bits says where the exact number lies (`Holds`), and a shift to the right keeps
that.
-/

open Float.Model Float.Model.UnpackedFloat

namespace SparsePoly.Binary64

/-! ## The nearest integer -/

/-- The integer nearest to `x`, the even one of two. -/
def nearestEven (x : ℚ) : ℤ :=
  if Int.fract x < 1 / 2 ∨ Int.fract x = 1 / 2 ∧ Even ⌊x⌋ then ⌊x⌋ else ⌊x⌋ + 1

theorem abs_nearestEven_sub_le (x : ℚ) : |(nearestEven x : ℚ) - x| ≤ 1 / 2 := by
  have h := Int.self_sub_floor x
  have h₀ := Int.fract_nonneg x
  have h₁ := Int.fract_lt_one x
  unfold nearestEven
  rw [abs_le]
  split_ifs with hx
  · rcases hx with hx | ⟨hx, -⟩ <;> constructor <;> linarith
  · have : 1 / 2 ≤ Int.fract x := not_lt.1 fun hlt => hx (Or.inl hlt)
    push_cast
    constructor <;> linarith

/-- An integer closer than one half is the nearest one. -/
theorem nearestEven_eq {x : ℚ} {n : ℤ} (h : |(n : ℚ) - x| < 1 / 2) : nearestEven x = n := by
  have h' := abs_nearestEven_sub_le x
  rw [abs_lt] at h
  rw [abs_le] at h'
  have h₁ : ((nearestEven x - n : ℤ) : ℚ) < 1 := by push_cast; linarith
  have h₂ : (-1 : ℚ) < ((nearestEven x - n : ℤ) : ℚ) := by push_cast; linarith
  have h₁ : nearestEven x - n < 1 := by exact_mod_cast h₁
  have h₂ : -1 < nearestEven x - n := by exact_mod_cast h₂
  omega

/-- No integer is nearer. -/
theorem abs_nearestEven_sub_le_abs (x : ℚ) (n : ℤ) : |(nearestEven x : ℚ) - x| ≤ |n - x| := by
  by_contra! h
  exact h.ne (by rw [nearestEven_eq (h.trans_le (abs_nearestEven_sub_le x))])

@[simp] theorem nearestEven_intCast (n : ℤ) : nearestEven n = n :=
  nearestEven_eq (by simp)

theorem nearestEven_le {x : ℚ} {n : ℤ} (h : x ≤ n) : nearestEven x ≤ n := by
  have h' := (abs_le.1 (abs_nearestEven_sub_le x)).2
  have : ((nearestEven x : ℤ) : ℚ) < n + 1 := by linarith
  exact Int.lt_add_one_iff.1 (by exact_mod_cast this)

theorem le_nearestEven {x : ℚ} {n : ℤ} (h : (n : ℚ) ≤ x) : n ≤ nearestEven x := by
  have h' := (abs_le.1 (abs_nearestEven_sub_le x)).1
  have : (n : ℚ) < ((nearestEven x : ℤ) : ℚ) + 1 := by linarith
  exact Int.lt_add_one_iff.1 (by exact_mod_cast this)

theorem nearestEven_neg (x : ℚ) : nearestEven (-x) = -nearestEven x := by
  rcases eq_or_ne (Int.fract x) 0 with h₀ | h₀
  · obtain ⟨n, rfl⟩ : ∃ n : ℤ, (n : ℚ) = x := ⟨⌊x⌋, by linarith [Int.self_sub_floor x]⟩
    rw [← Int.cast_neg, nearestEven_intCast, nearestEven_intCast]
  · have hfract : Int.fract (-x) = 1 - Int.fract x := Int.fract_neg h₀
    have hfloor : ⌊-x⌋ = -⌊x⌋ - 1 := by
      have h₁ := Int.self_sub_floor x
      have h₂ := Int.self_sub_floor (-x)
      have : ((⌊-x⌋ : ℤ) : ℚ) = ((-⌊x⌋ - 1 : ℤ) : ℚ) := by push_cast; linarith
      exact_mod_cast this
    unfold nearestEven
    rw [hfract, hfloor]
    rcases lt_trichotomy (Int.fract x) (1 / 2) with h | h | h
    · rw [if_neg (by rintro (h' | ⟨h', -⟩) <;> linarith), if_pos (Or.inl h)]
      ring
    · rw [h]
      rcases Int.even_or_odd ⌊x⌋ with he | ho
      · rw [if_neg, if_pos (Or.inr ⟨rfl, he⟩)]
        · ring
        · rintro (h' | ⟨-, h'⟩)
          · norm_num at h'
          · exact absurd h' (by simpa [Int.even_sub] using he)
      · rw [if_pos, if_neg]
        · ring
        · rintro (h' | ⟨-, h'⟩)
          · norm_num at h'
          · exact absurd ho (Int.not_odd_iff_even.2 h')
        · exact Or.inr ⟨by norm_num, by simpa [Int.even_sub] using ho⟩
    · rw [if_pos (Or.inl (by linarith)), if_neg (by rintro (h' | ⟨h', -⟩) <;> linarith)]
      ring

/-! ## The last place -/

/-- The exponent of the last place of a double of the size of `x`. -/
def quantum (x : ℚ) : ℤ := max (Int.log 2 |x| - 52) (-1074)

/-- The value of the double nearest to `x`, without a bound on the exponent. -/
def rounded (x : ℚ) : ℚ := nearestEven (x / 2 ^ quantum x) * 2 ^ quantum x

@[simp] theorem rounded_zero : rounded 0 = 0 := by
  have : nearestEven 0 = 0 := by exact_mod_cast nearestEven_intCast 0
  simp [rounded, this]

theorem quantum_neg (x : ℚ) : quantum (-x) = quantum x := by simp [quantum]

theorem rounded_neg (x : ℚ) : rounded (-x) = -rounded x := by
  unfold rounded
  rw [quantum_neg, neg_div, nearestEven_neg]
  push_cast
  ring

theorem abs_rounded_sub_le (x : ℚ) : |rounded x - x| ≤ 2 ^ quantum x / 2 := by
  have hq : (0 : ℚ) < 2 ^ quantum x := zpow_pos two_pos _
  have h := abs_nearestEven_sub_le (x / 2 ^ quantum x)
  have : rounded x - x = (nearestEven (x / 2 ^ quantum x) - x / 2 ^ quantum x) * 2 ^ quantum x := by
    unfold rounded
    field_simp
  rw [this, abs_mul, abs_of_pos hq]
  linarith [mul_le_mul_of_nonneg_right h hq.le]

theorem quantum_le {x : ℚ} {t : ℤ} (h₀ : x ≠ 0) (hx : |x| < 2 ^ (t + 53)) (ht : -1074 ≤ t) :
    quantum x ≤ t := by
  have := (Int.lt_zpow_iff_log_lt (b := 2) one_lt_two (abs_pos.2 h₀)).1 (by exact_mod_cast hx)
  unfold quantum
  omega

theorem le_quantum {x : ℚ} {t : ℤ} (hx : 2 ^ (t + 52) ≤ |x|) : t ≤ quantum x := by
  have h₀ : 0 < |x| := lt_of_lt_of_le (zpow_pos two_pos _) hx
  have := (Int.zpow_le_iff_le_log (b := 2) one_lt_two h₀).1 (by exact_mod_cast hx)
  unfold quantum
  omega

/-- A multiple of a power of two that is not below the last place is its own rounding. -/
theorem rounded_eq_self_of_quantum_le {k t : ℤ} (h : quantum (k * 2 ^ t) ≤ t) :
    rounded (k * 2 ^ t) = k * 2 ^ t := by
  have hn : (k : ℚ) * 2 ^ t / 2 ^ quantum (k * 2 ^ t) =
      ((k * 2 ^ (t - quantum (k * 2 ^ t)).toNat : ℤ) : ℚ) := by
    push_cast
    rw [mul_div_assoc, ← zpow_sub₀ two_ne_zero, ← zpow_natCast, Int.toNat_of_nonneg (by omega)]
  unfold rounded
  rw [hn, nearestEven_intCast, ← hn]
  exact div_mul_cancel₀ _ (zpow_pos two_pos _).ne'

theorem rounded_eq_self_of_lt {k t : ℤ} (hk : |k| < 2 ^ 53) (ht : -1074 ≤ t) :
    rounded (k * 2 ^ t) = k * 2 ^ t := by
  rcases eq_or_ne k 0 with rfl | h₀
  · simp
  have h₂ : (0 : ℚ) < 2 ^ t := zpow_pos two_pos t
  refine rounded_eq_self_of_quantum_le (quantum_le ?_ ?_ ht)
  · exact mul_ne_zero (by exact_mod_cast h₀) h₂.ne'
  · rw [abs_mul, abs_of_pos h₂, zpow_add₀ two_ne_zero, mul_comm]
    refine mul_lt_mul_of_pos_left ?_ h₂
    exact_mod_cast hk

/-- Integers of magnitude at most `2 ^ 53` need no rounding. -/
theorem rounded_intCast {n : ℤ} (h : |n| ≤ 2 ^ 53) : rounded n = n := by
  rcases h.lt_or_eq with h | h
  · simpa using rounded_eq_self_of_lt h (t := 0) (by norm_num)
  · have key : rounded ((2 ^ 53 : ℤ) : ℚ) = ((2 ^ 53 : ℤ) : ℚ) := by
      have := rounded_eq_self_of_lt (k := 2 ^ 52) (t := 1) (by norm_num) (by norm_num)
      norm_num at this ⊢
      exact this
    rcases (abs_eq (by norm_num)).1 h with rfl | rfl
    · exact key
    · rw [Int.cast_neg, rounded_neg, key]

/-! ## Shifting a mantissa -/

/-- The mantissa is the floor of `y`, the round bit says whether `y` is in the upper half of the
unit, and the sticky bit whether it lies apart from both ends of its half. -/
structure Holds (em : ExtendedMantissa) (y : ℚ) : Prop where
  le : em.mantissa ≤ y
  lt : y < em.mantissa + 1
  round : em.roundBit = true ↔ em.mantissa + 1 / 2 ≤ y
  sticky : em.stickyBit = false ↔ y = em.mantissa ∨ y = em.mantissa + 1 / 2

theorem holds_exact (m : ℕ) : Holds (.ofMantissaAndAccuracy m .exact) m where
  le := le_rfl
  lt := by simp [ExtendedMantissa.ofMantissaAndAccuracy]
  round := by
    simp only [ExtendedMantissa.ofMantissaAndAccuracy, Bool.false_eq_true, false_iff, not_le]
    linarith
  sticky := by simp [ExtendedMantissa.ofMantissaAndAccuracy]

theorem Holds.floor_eq {em : ExtendedMantissa} {y : ℚ} (h : Holds em y) : ⌊y⌋ = em.mantissa :=
  Int.floor_eq_iff.2 ⟨by exact_mod_cast h.le, by exact_mod_cast h.lt⟩

/-- The bits suffice to round. -/
theorem Holds.roundedMantissa_eq {em : ExtendedMantissa} {y : ℚ} (h : Holds em y) :
    (em.roundedMantissa : ℤ) = nearestEven y := by
  have hfract : Int.fract y = y - em.mantissa := by
    unfold Int.fract
    rw [h.floor_eq]
    simp
  have hround := h.round
  have hsticky := h.sticky
  have hle := h.le
  unfold nearestEven
  rw [h.floor_eq, hfract]
  obtain ⟨m, r, s⟩ := em
  cases r <;> cases s <;>
    simp only [ExtendedMantissa.roundedMantissa, ExtendedMantissa.accuracy,
      Accuracy.roundToNearestEven, Bool.false_eq_true, false_iff, true_iff, not_le, not_or,
      reduceCtorEq] at hround hsticky hle ⊢
  · rw [if_pos (Or.inl (by linarith))]
  · rw [if_pos (Or.inl (by linarith))]
  · have hy : y = m + 1 / 2 := hsticky.resolve_left (by rintro rfl; linarith)
    rcases Nat.even_or_odd m with he | ho
    · rw [if_pos (Or.inr ⟨by rw [hy]; ring, by exact_mod_cast he⟩), Nat.even_iff.1 he]
      rfl
    · rw [if_neg, Nat.odd_iff.1 ho]
      · push_cast
        rfl
      · rintro (h' | ⟨-, h'⟩)
        · linarith
        · exact Nat.not_even_iff_odd.2 ho (by exact_mod_cast h')
  · rw [if_neg]
    · push_cast
      rfl
    · rintro (h' | ⟨h', -⟩)
      · linarith
      · exact hsticky.2 (by linarith)

theorem Holds.shiftRightOne {em : ExtendedMantissa} {y : ℚ} (h : Holds em y) :
    Holds em.shiftRightOne (y / 2) := by
  have hle := h.le
  have hlt := h.lt
  have hround := h.round
  have hsticky := h.sticky
  obtain ⟨m, r, s⟩ := em
  simp only at hle hlt hround hsticky
  obtain ⟨k, rfl | rfl⟩ := Nat.even_or_odd' m
  · have hk : 2 * k / 2 = k := by omega
    have hb : (2 * k % 2 != 0) = false := by simp
    push_cast at hle hlt hround hsticky
    constructor <;> simp only [ExtendedMantissa.shiftRightOne, hk, hb]
    · linarith
    · linarith
    · simp only [Bool.false_eq_true, false_iff, not_le]
      linarith
    · rw [Bool.or_eq_false_iff, hsticky, ← Bool.not_eq_true, hround]
      constructor
      · rintro ⟨h₁, rfl | rfl⟩
        · left; ring
        · exact absurd le_rfl h₁
      · rintro (h' | h')
        · exact ⟨by linarith, Or.inl (by linarith)⟩
        · exact absurd hlt (by linarith)
  · have hk : (2 * k + 1) / 2 = k := by omega
    have hb : ((2 * k + 1) % 2 != 0) = true := by
      have : (2 * k + 1) % 2 = 1 := by omega
      simp [this]
    push_cast at hle hlt hround hsticky
    constructor <;> simp only [ExtendedMantissa.shiftRightOne, hk, hb]
    · linarith
    · linarith
    · simp only [true_iff]
      linarith
    · rw [Bool.or_eq_false_iff, hsticky, ← Bool.not_eq_true, hround]
      constructor
      · rintro ⟨h₁, rfl | rfl⟩
        · right; ring
        · exact absurd le_rfl h₁
      · rintro (h' | h')
        · exact absurd hle (by linarith)
        · exact ⟨by linarith, Or.inl (by linarith)⟩

theorem Holds.shiftRight {em : ExtendedMantissa} {y : ℚ} (h : Holds em y) (n : ℕ) :
    Holds (em >>> n) (y / 2 ^ n) := by
  show Holds (n.repeat ExtendedMantissa.shiftRightOne em) _
  induction n with
  | zero => simpa [Nat.repeat] using h
  | succ n ih =>
    rw [pow_succ, ← div_div]
    exact ih.shiftRightOne

/-! ## The target of a shift -/

theorem targetExponent_eq (m : ℕ) (e : ℤ) :
    Format.binary64.targetExponent (totalExponent m e) = max (m.log2 + e - 52) (-1074) := by
  show max ((m.log2 : ℤ) + 1 + e - (1 + 52 : ℕ)) (3 - 2 ^ 10 - (1 + 52 : ℕ)) = _
  norm_num
  congr 1
  ring

theorem lt_zpow_quantum (x : ℚ) : |x| < 2 ^ (quantum x + 53) := by
  refine lt_of_lt_of_le (Int.lt_zpow_succ_log_self (b := 2) one_lt_two |x|) ?_
  refine zpow_le_zpow_right₀ (by norm_num) ?_
  unfold quantum
  omega

theorem zpow_quantum_le {x : ℚ} (h₀ : x ≠ 0) : 2 ^ (quantum x + 52) ≤ |x| ∨ quantum x = -1074 := by
  rcases le_total (-1074) (Int.log 2 |x| - 52) with h | h
  · left
    refine le_trans (zpow_le_zpow_right₀ (by norm_num) ?_)
      (Int.zpow_log_le_self (b := 2) one_lt_two (abs_pos.2 h₀))
    unfold quantum
    omega
  · right
    exact max_eq_right h

theorem log_mul_zpow {m : ℕ} {e : ℤ} {y : ℚ} (hm : 0 < m) (hle : (m : ℚ) ≤ y) (hlt : y < m + 1) :
    Int.log 2 (y * 2 ^ e) = m.log2 + e := by
  have h₂ : (0 : ℚ) < 2 ^ e := zpow_pos two_pos e
  have hx : (0 : ℚ) < y * 2 ^ e := mul_pos (lt_of_lt_of_le (by exact_mod_cast hm) hle) h₂
  have hlow : (2 : ℚ) ^ (m.log2 : ℤ) ≤ y := by
    refine le_trans ?_ hle
    rw [zpow_natCast]
    exact_mod_cast Nat.log2_self_le hm.ne'
  have hhigh : y < (2 : ℚ) ^ (m.log2 + 1 : ℤ) := by
    refine lt_of_lt_of_le hlt ?_
    have : m + 1 ≤ 2 ^ (m.log2 + 1) := Nat.lt_log2_self
    exact_mod_cast this
  apply le_antisymm
  · rw [← Int.lt_add_one_iff, ← Int.lt_zpow_iff_log_lt one_lt_two hx, add_right_comm]
    push_cast
    rw [zpow_add₀ two_ne_zero]
    exact mul_lt_mul_of_pos_right hhigh h₂
  · rw [← Int.zpow_le_iff_le_log one_lt_two hx]
    push_cast
    rw [zpow_add₀ two_ne_zero]
    exact mul_le_mul_of_nonneg_right hlow h₂.le

theorem targetExponent_natCast {m : ℕ} (hm : 0 < m) (e : ℤ) :
    Format.binary64.targetExponent (totalExponent m e) = quantum (m * 2 ^ e) := by
  have hx : (0 : ℚ) < m * 2 ^ e := mul_pos (by exact_mod_cast hm) (zpow_pos two_pos e)
  unfold quantum
  rw [targetExponent_eq, abs_of_pos hx, log_mul_zpow hm le_rfl (lt_add_one _)]

theorem targetExponent_eq_quantum {m : ℕ} {e : ℤ} {y : ℚ} (h₀ : 0 < y) (hle : (m : ℚ) ≤ y)
    (hlt : y < m + 1) (he : e ≤ Format.binary64.targetExponent (totalExponent m e)) :
    Format.binary64.targetExponent (totalExponent m e) = quantum (y * 2 ^ e) := by
  have h₂ : (0 : ℚ) < 2 ^ e := zpow_pos two_pos e
  have hx : (0 : ℚ) < y * 2 ^ e := mul_pos h₀ h₂
  rw [targetExponent_eq] at he ⊢
  unfold quantum
  rw [abs_of_pos hx]
  rcases Nat.eq_zero_or_pos m with rfl | hm
  · have hlog : Int.log 2 (y * 2 ^ e) < e := by
      rw [← Int.lt_zpow_iff_log_lt one_lt_two hx]
      push_cast at hlt ⊢
      linarith [mul_lt_mul_of_pos_right hlt h₂]
    simp only [Nat.log2_zero] at he ⊢
    omega
  · rw [log_mul_zpow hm hle hlt]

/-- A shift that keeps the exponent keeps the mantissa. -/
theorem shiftToTargetExponent_of_lt {n : ℕ} {t : ℤ} (hn : n < 2 ^ 53) (ht : -1074 ≤ t) :
    shiftToTargetExponent .binary64 n t .exact = (⟨n, false, false⟩, t) := by
  have hlog : n.log2 ≤ 52 := by
    rcases Nat.eq_zero_or_pos n with rfl | h₀
    · simp
    · exact Nat.lt_succ_iff.1 ((Nat.log2_lt h₀.ne').2 hn)
  have h : (Format.binary64.targetExponent (totalExponent n t) - t).toNat = 0 := by
    rw [targetExponent_eq]
    omega
  simp only [shiftToTargetExponent, shiftToExponent, h]
  exact Prod.ext rfl (add_zero t)

theorem shiftToTargetExponent_two_pow {t : ℤ} (ht : -1074 ≤ t) :
    shiftToTargetExponent .binary64 (2 ^ 53) t .exact = (⟨2 ^ 52, false, false⟩, t + 1) := by
  have h : (Format.binary64.targetExponent (totalExponent (2 ^ 53) t) - t).toNat = 1 := by
    rw [targetExponent_eq, Nat.log2_two_pow]
    omega
  simp only [shiftToTargetExponent, shiftToExponent, h]
  rfl

/-! ## Rounding an unpacked double -/

/-- The rational number with the sign `s` and the magnitude `x`. -/
def signed : Sign → ℚ → ℚ
  | .negative, x => -x
  | .positive, x => x

theorem signed_apply (s : Sign) (m : ℕ) : ((s.apply m : ℤ) : ℚ) = signed s m := by
  cases s <;> simp [Sign.apply, signed]

theorem signed_mul (s : Sign) (x y : ℚ) : signed s x * y = signed s (x * y) := by
  cases s <;> simp [signed]

theorem value_finite_eq (s : Sign) (m : ℕ) (e : ℤ) (hp : 0 < m) :
    value (.finite s m e hp) = signed s (m * 2 ^ e) := by
  rw [value_finite, signed_apply, signed_mul]

theorem rounded_signed (s : Sign) (x : ℚ) : rounded (signed s x) = signed s (rounded x) := by
  cases s <;> simp [signed, rounded_neg]

/-- A mantissa that rounding has made one bit too long is shifted once more, without a loss. -/
theorem shiftToTargetExponent_rounded {n : ℕ} {t : ℤ} (hn : n ≤ 2 ^ 53) (ht : -1074 ≤ t)
    (hnorm : 2 ^ 52 ≤ n ∨ t = -1074) {r : ExtendedMantissa × ℤ}
    (hr : shiftToTargetExponent .binary64 n t .exact = r) :
    IsRounded r.1.mantissa r.2 ∧ (r.1.mantissa : ℚ) * 2 ^ r.2 = n * 2 ^ t := by
  subst hr
  rcases hn.lt_or_eq with hlt | rfl
  · rw [shiftToTargetExponent_of_lt hlt ht]
    exact ⟨⟨hlt, ht, hnorm⟩, rfl⟩
  · rw [shiftToTargetExponent_two_pow ht]
    refine ⟨⟨by norm_num, by dsimp only; omega, Or.inl le_rfl⟩, ?_⟩
    dsimp only
    rw [zpow_add_one₀ two_ne_zero]
    push_cast
    ring

/-- The nearest integer multiple of the last place has at most 53 bits and one more value. -/
theorem nearestEven_quantum_bounds {x : ℚ} (hx : 0 < x) {n : ℕ}
    (hn : (n : ℤ) = nearestEven (x / 2 ^ quantum x)) :
    n ≤ 2 ^ 53 ∧ (2 ^ 52 ≤ n ∨ quantum x = -1074) := by
  have h₂ : (0 : ℚ) < 2 ^ quantum x := zpow_pos two_pos _
  constructor
  · have h := (lt_zpow_quantum x).le
    rw [abs_of_pos hx, zpow_add₀ two_ne_zero, mul_comm] at h
    have := nearestEven_le (n := 2 ^ 53) ((div_le_iff₀ h₂).2 (by exact_mod_cast h))
    rw [← hn] at this
    exact_mod_cast this
  · refine (zpow_quantum_le hx.ne').imp_left fun h => ?_
    rw [abs_of_pos hx, zpow_add₀ two_ne_zero, mul_comm] at h
    have := le_nearestEven (n := 2 ^ 52) ((le_div_iff₀ h₂).2 (by exact_mod_cast h))
    rw [← hn] at this
    exact_mod_cast this

/-- Rounding a mantissa of known accuracy gives the double nearest to the exact number. -/
theorem roundWithAccuracy_spec (s : Sign) {m : ℕ} {e : ℤ} {acc : Accuracy} {y : ℚ} (h₀ : 0 < y)
    (h : Holds (.ofMantissaAndAccuracy m acc) y)
    (he : e ≤ Format.binary64.targetExponent (totalExponent m e)) :
    IsCanonical (roundWithAccuracy .binary64 s m e acc) ∧
      value (roundWithAccuracy .binary64 s m e acc) = signed s (rounded (y * 2 ^ e)) := by
  have hm : (ExtendedMantissa.ofMantissaAndAccuracy m acc).mantissa = m := by
    cases acc with
    | exact => rfl
    | inexact o => cases o <;> rfl
  have hx : 0 < y * 2 ^ e := mul_pos h₀ (zpow_pos two_pos e)
  have ht := targetExponent_eq_quantum h₀ (hm ▸ h.le) (hm ▸ h.lt) he
  set t := quantum (y * 2 ^ e) with hq
  rw [ht] at he
  have hlow : -1074 ≤ t := le_max_right _ _
  -- the first shift drops the bits below the last place
  have hfirst : shiftToTargetExponent .binary64 m e acc =
      (ExtendedMantissa.ofMantissaAndAccuracy m acc >>> (t - e).toNat, t) := by
    simp only [shiftToTargetExponent, shiftToExponent, ht]
    exact Prod.ext rfl (by simp only; omega)
  have hy : y / 2 ^ (t - e).toNat = y * 2 ^ e / 2 ^ t := by
    rw [← zpow_natCast, Int.toNat_of_nonneg (by omega), zpow_sub₀ two_ne_zero]
    field_simp
  have hn := (h.shiftRight (t - e).toNat).roundedMantissa_eq
  rw [hy] at hn
  obtain ⟨hle, hnorm⟩ := nearestEven_quantum_bounds hx hn
  have hrounded : rounded (y * 2 ^ e) =
      (ExtendedMantissa.ofMantissaAndAccuracy m acc >>> (t - e).toNat).roundedMantissa * 2 ^ t := by
    unfold rounded
    rw [← hn]
    rfl
  obtain ⟨hr, hval⟩ := shiftToTargetExponent_rounded hle hlow hnorm rfl
  unfold roundWithAccuracy
  rw [hfirst, hrounded, ← hval]
  dsimp only
  split_ifs with hz
  · rw [hz]
    exact ⟨trivial, by cases s <;> simp [signed]⟩
  · exact ⟨hr, value_finite_eq _ _ _ _⟩

end SparsePoly.Binary64
