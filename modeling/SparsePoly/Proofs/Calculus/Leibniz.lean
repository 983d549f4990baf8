import Mathlib
import SparsePoly.Proofs.Calculus.Derivative

/-!
# The sum rule and the product rule

The derivative of Laurent polynomials is additive and satisfies Leibniz's rule
(`Laurent.derivative_mul`), whatever the sign of the exponents.  Exact operations have the terms of
their readings, so both rules hold term for term (`derivative_add_multiply`), although the two sides
drop constants and cancel like terms at different times.
-/

open SparsePoly.Binary64
open scoped LaurentPolynomial

namespace SparsePoly

/-! ## Laurent polynomials -/

namespace Laurent

variable {m n c d : ℤ}

theorem derivative_single_mul (m n c d : ℤ) :
    derivative (.single m c * .single n d) =
      derivative (.single m c) * .single n d + .single m c * derivative (.single n d) := by
  rw [AddMonoidAlgebra.single_mul_single, derivative_single, derivative_single, derivative_single,
    AddMonoidAlgebra.single_mul_single, AddMonoidAlgebra.single_mul_single]
  have hleft : m - 1 + n = m + n - 1 := by ring
  have hright : m + (n - 1) = m + n - 1 := by ring
  rw [hleft, hright, ← AddMonoidAlgebra.single_add]
  congr 1
  ring

/-- The product rule. -/
theorem derivative_mul (P Q : ℤ[T;T⁻¹]) :
    derivative (P * Q) = derivative P * Q + P * derivative Q := by
  -- both sides are additive in `P` and in `Q`
  induction P using AddMonoidAlgebra.induction_linear with
  | zero => simp only [zero_mul, map_zero, zero_add]
  | add P P' hP hP' =>
    rw [add_mul, map_add, map_add, hP, hP']
    ring
  | single m c =>
    induction Q using AddMonoidAlgebra.induction_linear with
    | zero => simp only [mul_zero, map_zero, zero_add]
    | add Q Q' hQ hQ' =>
      rw [mul_add, map_add, map_add, hQ, hQ']
      ring
    | single n d => exact derivative_single_mul m n c d

end Laurent

/-! ## Monomials -/

section

variable {m n c d : ℤ}

theorem upper_single (k m c : ℤ) :
    upper k (.single m c) = .single m (if k ≤ m then c else 0) := by
  ext n
  rw [coeff_upper, coeff_single, coeff_single]
  split_ifs <;> omega

theorem productExact_single (h : |c * d| ≤ 2 ^ 53) (hmin : -2 ^ 31 ≤ m + n)
    (hmax : m + n < 2 ^ 31) : ProductExact (.single m c) (.single n d) where
  products i j := by
    rw [coeff_single, coeff_single]
    split_ifs
    · exact h
    all_goals simp
  sums k j := by
    rw [upper_single, AddMonoidAlgebra.single_mul_single, coeff_single]
    split_ifs
    · exact h
    all_goals simp
  exponents i j hi hj := by
    rw [coeff_single] at hi hj
    split_ifs at hi hj with him hjn
    · exact ⟨by omega, by omega⟩
    all_goals contradiction

theorem derivativeExact_single (h : |c * m| ≤ 2 ^ 53) (hm : -2 ^ 31 < m) :
    DerivativeExact (.single m c) where
  products n := by
    rw [coeff_single]
    split_ifs with hn
    · rwa [← hn]
    · simp
  exponents n hn := by
    rw [coeff_single] at hn
    split_ifs at hn with hmn
    · omega
    · contradiction

end

/-! ## The rules -/

namespace Poly

variable {p q : Poly} {P Q : ℤ[T;T⁻¹]}

theorem Reads.derivative_add (hp : p.Reads P) (hq : q.Reads Q) (dp : DerivativeExact P)
    (dq : DerivativeExact Q) (h : SumExact P Q) (dsum : DerivativeExact (P + Q))
    (hsum : SumExact (Laurent.derivative P) (Laurent.derivative Q)) :
    ∃ p' q' d, p.derivative = .ok p' ∧ q.derivative = .ok q' ∧ (p.add q).derivative = .ok d ∧
      d.terms = (p'.add q').terms := by
  obtain ⟨p', hp', rp'⟩ := hp.derivative dp
  obtain ⟨q', hq', rq'⟩ := hq.derivative dq
  obtain ⟨d, hd, rd⟩ := (hp.add hq h).derivative dsum
  refine ⟨p', q', d, hp', hq', hd, ?_⟩
  rw [rd.terms_eq, (rp'.add rq' hsum).terms_eq, map_add]

theorem Reads.derivative_multiply (hp : p.Reads P) (hq : q.Reads Q) (dp : DerivativeExact P)
    (dq : DerivativeExact Q) (h : ProductExact P Q) (dproduct : DerivativeExact (P * Q))
    (hleft : ProductExact (Laurent.derivative P) Q) (hright : ProductExact P (Laurent.derivative Q))
    (hsum : SumExact (Laurent.derivative P * Q) (P * Laurent.derivative Q)) (policy : SnapPolicy) :
    ∃ p' q' m d u v, p.derivative = .ok p' ∧ q.derivative = .ok q' ∧
      Poly.multiply policy p q = .ok m ∧ m.derivative = .ok d ∧ Poly.multiply policy p' q = .ok u ∧
      Poly.multiply policy p q' = .ok v ∧ d.terms = (u.add v).terms := by
  obtain ⟨p', hp', rp'⟩ := hp.derivative dp
  obtain ⟨q', hq', rq'⟩ := hq.derivative dq
  obtain ⟨m, hm, rm⟩ := hp.multiply hq h policy
  obtain ⟨d, hd, rd⟩ := rm.derivative dproduct
  obtain ⟨u, hu, ru⟩ := rp'.multiply hq hleft policy
  obtain ⟨v, hv, rv⟩ := hp.multiply rq' hright policy
  refine ⟨p', q', m, d, u, v, hp', hq', hm, hd, hu, hv, ?_⟩
  rw [rd.terms_eq, (ru.add rv hsum).terms_eq, Laurent.derivative_mul]

/-- The sum rule and the product rule, term for term and under every snap policy: the derivative of
an exact sum is the sum of the derivatives, and that of an exact product is the sum of the products
with one factor derived. -/
theorem derivative_add_multiply (hp : p.Valid) (hq : q.Valid) (ip : p.Integral) (iq : q.Integral)
    (dp : DerivativeExact p.laurent) (dq : DerivativeExact q.laurent) (policy : SnapPolicy) :
    (SumExact p.laurent q.laurent → DerivativeExact (p.laurent + q.laurent) →
      SumExact (Laurent.derivative p.laurent) (Laurent.derivative q.laurent) →
      ∃ p' q' d, p.derivative = .ok p' ∧ q.derivative = .ok q' ∧ (p.add q).derivative = .ok d ∧
        d.terms = (p'.add q').terms) ∧
    (ProductExact p.laurent q.laurent → DerivativeExact (p.laurent * q.laurent) →
      ProductExact (Laurent.derivative p.laurent) q.laurent →
      ProductExact p.laurent (Laurent.derivative q.laurent) →
      SumExact (Laurent.derivative p.laurent * q.laurent)
        (p.laurent * Laurent.derivative q.laurent) →
      ∃ p' q' m d u v, p.derivative = .ok p' ∧ q.derivative = .ok q' ∧
        multiply policy p q = .ok m ∧ m.derivative = .ok d ∧ multiply policy p' q = .ok u ∧
        multiply policy p q' = .ok v ∧ d.terms = (u.add v).terms) := by
  have rp : p.Reads p.laurent := ⟨hp, ip, rfl⟩
  have rq : q.Reads q.laurent := ⟨hq, iq, rfl⟩
  refine ⟨fun h dsum hsum => rp.derivative_add rq dp dq h dsum hsum,
    fun h dproduct hleft hright hsum => ?_⟩
  exact rp.derivative_multiply rq dp dq h dproduct hleft hright hsum policy

/-- `3 x ^ -2` and `2 x ^ 2` have a constant product, and the two products of the product rule
cancel. -/
theorem derivative_add_multiply_reciprocal :
    let p := monomial 3.0 (-2)
    let q := monomial 2.0 2
    (∃ p' q' d, p.derivative = .ok p' ∧ q.derivative = .ok q' ∧ (p.add q).derivative = .ok d ∧
      d.terms = (p'.add q').terms) ∧
    ∃ p' q' m d u v, p.derivative = .ok p' ∧ q.derivative = .ok q' ∧
      multiply .standard p q = .ok m ∧ m.derivative = .ok d ∧ multiply .standard p' q = .ok u ∧
      multiply .standard p q' = .ok v ∧ d.terms = (u.add v).terms := by
  intro p q
  have three : IsInt 3.0 3 := isInt_of_isNat (by decide)
  have two : IsInt 2.0 2 := isInt_of_isNat (by decide)
  have rp : p.Reads (.single (-2) 3) := reads_monomial three (-2)
  have rq : q.Reads (.single 2 2) := reads_monomial two 2
  have dp : DerivativeExact p.laurent := by
    rw [rp.laurent_eq]
    exact derivativeExact_single (by norm_num) (by norm_num)
  have dq : DerivativeExact q.laurent := by
    rw [rq.laurent_eq]
    exact derivativeExact_single (by norm_num) (by norm_num)
  obtain ⟨sum, product⟩ := derivative_add_multiply rp.valid rq.valid rp.integral rq.integral dp dq
    .standard
  rw [rp.laurent_eq, rq.laurent_eq, Laurent.derivative_single, Laurent.derivative_single]
    at sum product
  refine ⟨sum ?_ ⟨fun n => ?_, fun n hn => ?_⟩ ?_, product ?_ ?_ ?_ ?_ ?_⟩
  · intro n _ _
    rw [coeff_single, coeff_single]
    split_ifs <;> norm_num
  · rw [AddMonoidAlgebra.coeff_add, Finsupp.add_apply, coeff_single, coeff_single]
    split_ifs with h₁ h₂ h₂
    · omega
    · rw [← h₁]
      norm_num
    · rw [← h₂]
      norm_num
    · norm_num
  · rw [AddMonoidAlgebra.coeff_add, Finsupp.add_apply, coeff_single, coeff_single] at hn
    split_ifs at hn <;> omega
  · intro n _ _
    rw [coeff_single, coeff_single]
    split_ifs <;> norm_num
  · exact productExact_single (by norm_num) (by norm_num) (by norm_num)
  · rw [AddMonoidAlgebra.single_mul_single]
    exact derivativeExact_single (by norm_num) (by norm_num)
  · exact productExact_single (by norm_num) (by norm_num) (by norm_num)
  · exact productExact_single (by norm_num) (by norm_num) (by norm_num)
  · intro n _ _
    rw [AddMonoidAlgebra.single_mul_single, AddMonoidAlgebra.single_mul_single, coeff_single,
      coeff_single]
    split_ifs <;> norm_num

end Poly

end SparsePoly
