import Mathlib
import SparsePoly.Proofs.Binary64.Integral
import SparsePoly.Proofs.Binary64.Opposite

/-!
# Powers

The factor `1`, with which repeated squaring begins, leaves every double as it is (`one_mul_float`),
so that the first powers are what they seem (`pow_one_float`, `pow_two_float`).  On integral doubles
repeated squaring is exact as long as the power is at most `2 ^ 53` (`IsInt.pow`): no square and no
product on the way exceeds the power itself.
-/

namespace SparsePoly.Binary64

/-! ## The first powers -/

theorem one_mul_float (x : Float) : 1.0 * x = x := by
  cases hu : x.toModel.unpack with
  | finite s m e hp =>
    have hone : IsInt 1.0 1 := isInt_of_isNat (by decide)
    have hx : x.isFinite = true := by
      rw [isFinite_eq, hu]
      rfl
    have hvalue : rounded (toRat 1.0 * toRat x) = toRat x := by
      rw [hone.toRat_eq, Int.cast_one, one_mul, rounded_toRat]
    obtain ⟨-, hv⟩ := toRat_mul hone.finite hx (by rw [hvalue]; exact abs_toRat_lt x)
    rw [hvalue] at hv
    refine eq_of_toRat_eq hv (hv ▸ toRat_ne_zero hx ?_)
    rw [← Bool.not_eq_true, beq_zero_iff, hu]
    simp
  | notANumber =>
    apply eq_of_unpack_eq
    rw [unpack_mul, hu]
    rfl
  | zero s | infinity s =>
    apply eq_of_unpack_eq
    rw [unpack_mul, hu]
    cases s <;> rfl

theorem mul_one_float (x : Float) : x * 1.0 = x := by
  rw [mul_comm_float, one_mul_float]

theorem pow_zero_float (x : Float) : pow x 0 = 1.0 := rfl

theorem pow_one_float (x : Float) : pow x 1 = x := one_mul_float x

theorem pow_two_float (x : Float) : pow x 2 = x * x := one_mul_float (x * x)

/-! ## Integral doubles -/

/-- Bounds on the running result and on the running base.  Both are at least one, so that a further
factor makes no bound smaller. -/
structure PowBound (m n M N : ℤ) (k : ℕ) : Prop where
  result : |m| ≤ M
  base : |n| ≤ N
  one_le_result : 1 ≤ M
  one_le_base : 1 ≤ N
  le : M * N ^ k ≤ 2 ^ 53

variable {x y : Float} {m n M N : ℤ} {k : ℕ}

theorem PowBound.abs_mul_le (h : PowBound m n M N k) : |m * n| ≤ M * N := by
  rw [abs_mul]
  exact mul_le_mul h.result h.base (abs_nonneg n) (by linarith [h.one_le_result])

theorem PowBound.isInt_mul (h : PowBound m n M N k) (hk : k ≠ 0) (hx : IsInt x m)
    (hy : IsInt y n) : IsInt (x * y) (m * n) := by
  refine hx.mul hy ?_
  calc |m * n| ≤ M * N := h.abs_mul_le
    _ ≤ M * N ^ k := mul_le_mul_of_nonneg_left (le_self_pow₀ h.one_le_base hk)
        (by linarith [h.one_le_result])
    _ ≤ 2 ^ 53 := h.le

theorem PowBound.abs_square_le (h : PowBound m n M N k) : |n * n| ≤ N * N := by
  rw [abs_mul]
  exact mul_le_mul h.base h.base (abs_nonneg n) (by linarith [h.one_le_base])

theorem PowBound.isInt_square (h : PowBound m n M N k) (hk : 2 ≤ k) (hy : IsInt y n) :
    IsInt (y * y) (n * n) := by
  refine hy.mul hy ?_
  calc |n * n| ≤ N * N := h.abs_square_le
    _ = N ^ 2 := (sq N).symm
    _ ≤ N ^ k := pow_le_pow_right₀ h.one_le_base hk
    _ ≤ M * N ^ k := le_mul_of_one_le_left (by linarith [one_le_pow₀ h.one_le_base (n := k)])
        h.one_le_result
    _ ≤ 2 ^ 53 := h.le

theorem one_le_mul_self (h : 1 ≤ N) : 1 ≤ N * N := by nlinarith

/-- The exponent is halved, and the base is squared. -/
theorem PowBound.half_even (h : PowBound m n M N (2 * k)) : PowBound m (n * n) M (N * N) k where
  result := h.result
  base := h.abs_square_le
  one_le_result := h.one_le_result
  one_le_base := one_le_mul_self h.one_le_base
  le := by
    rw [← sq, ← pow_mul]
    exact h.le

theorem PowBound.half_odd (h : PowBound m n M N (2 * k + 1)) :
    PowBound (m * n) (n * n) (M * N) (N * N) k where
  result := h.abs_mul_le
  base := h.abs_square_le
  one_le_result := by nlinarith [h.one_le_result, h.one_le_base]
  one_le_base := one_le_mul_self h.one_le_base
  le := by
    calc M * N * (N * N) ^ k = M * N ^ (2 * k + 1) := by rw [← sq, ← pow_mul]; ring
      _ ≤ 2 ^ 53 := h.le

theorem isInt_powBits : ∀ (bits : ℕ) {x y : Float} {m n M N : ℤ} {k : ℕ}, k.log2 = bits →
    IsInt x m → IsInt y n → PowBound m n M N k → IsInt (powBits bits x y k) (m * n ^ k)
  | 0, x, y, m, n, M, N, k, hb, hx, hy, h => by
    have hk : k < 2 ^ (k.log2 + 1) := Nat.lt_log2_self
    rw [hb] at hk
    interval_cases k
    · simpa [powBits] using hx
    · simpa [powBits] using h.isInt_mul one_ne_zero hx hy
  | bits + 1, x, y, m, n, M, N, k, hb, hx, hy, h => by
    have hk : 2 ≤ k := by
      by_contra hlt
      rw [Nat.log2_def, if_neg hlt] at hb
      omega
    have hhalf : (k / 2).log2 = bits := by
      rw [Nat.log2_def, if_pos hk] at hb
      omega
    have hsq := h.isInt_square hk hy
    rw [powBits]
    rcases Nat.even_or_odd' k with ⟨j, rfl | rfl⟩
    · rw [if_neg (by omega)]
      rw [Nat.mul_div_cancel_left j two_pos] at hhalf ⊢
      have := isInt_powBits bits hhalf hx hsq h.half_even
      rwa [← sq, ← pow_mul] at this
    · have hj : (2 * j + 1) / 2 = j := by omega
      rw [if_pos (by omega)]
      rw [hj] at hhalf ⊢
      have := isInt_powBits bits hhalf (h.isInt_mul (by omega) hx hy) hsq h.half_odd
      have heq : m * n * (n * n) ^ j = m * n ^ (2 * j + 1) := by
        rw [← sq, ← pow_mul]
        ring
      rwa [heq] at this

/-- A power is exact if it is at most `2 ^ 53`. -/
theorem IsInt.pow (h : IsInt x n) (hk : |n ^ k| ≤ 2 ^ 53) : IsInt (Binary64.pow x k) (n ^ k) := by
  have hone : IsInt 1.0 1 := isInt_of_isNat (by decide)
  have hbound : PowBound 1 n 1 (max 1 |n|) k := by
    refine ⟨by simp, le_max_right 1 |n|, le_rfl, le_max_left 1 |n|, ?_⟩
    rw [one_mul]
    rcases le_total 1 |n| with hn | hn
    · rwa [max_eq_right hn, ← abs_pow]
    · rw [max_eq_left hn, one_pow]
      norm_num
  have key := isInt_powBits k.log2 rfl hone h hbound
  rw [one_mul] at key
  have hnonneg : ¬ (k : ℤ) < 0 := by omega
  rw [Binary64.pow, Int.natAbs_natCast, if_neg hnonneg]
  exact key

end SparsePoly.Binary64
