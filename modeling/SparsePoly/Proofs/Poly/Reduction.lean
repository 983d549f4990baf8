import Mathlib
import SparsePoly.Proofs.Poly.Exactness

/-!
# Long division of Laurent polynomials

One step of a long division by `D` subtracts from `P` the multiple of `D` that cancels the leading
term of `P` (`reduce`).  When `D` has a leading coefficient `1` or `-1`, the step lowers the highest
exponent, and there is at most one quotient without negative exponents that leaves a remainder below
`D` (`eq_of_division`).  `DivisionExact` says that no step of the division forms a product or a sum
above `2 ^ 53`.
-/

open scoped LaurentPolynomial

namespace SparsePoly.Laurent

variable {P Q R D : ℤ[T;T⁻¹]} {k n : ℤ}

/-! ## The leading term -/

/-- The highest exponent; zero for the zero polynomial. -/
noncomputable def top (P : ℤ[T;T⁻¹]) : ℤ := P.coeff.support.max.unbotD 0

/-- The leading term. -/
noncomputable def lead (P : ℤ[T;T⁻¹]) : ℤ[T;T⁻¹] := .single (top P) (P.coeff (top P))

/-- What follows the leading term. -/
noncomputable def lower (P : ℤ[T;T⁻¹]) : ℤ[T;T⁻¹] := P - lead P

theorem top_eq (hk : P.coeff k ≠ 0) (h : ∀ n, P.coeff n ≠ 0 → n ≤ k) : top P = k := by
  have hmax : P.coeff.support.max = k := by
    refine le_antisymm (Finset.sup_le fun n hn => ?_) (Finset.le_max (Finsupp.mem_support_iff.2 hk))
    exact WithBot.coe_le_coe.2 (h n (Finsupp.mem_support_iff.1 hn))
  rw [top, hmax, WithBot.unbotD_coe]

theorem exists_max (h : P ≠ 0) : ∃ k, P.coeff k ≠ 0 ∧ ∀ n, P.coeff n ≠ 0 → n ≤ k := by
  have hne : P.coeff.support.Nonempty := by
    rw [Finsupp.support_nonempty_iff]
    exact fun h' => h (AddMonoidAlgebra.coeff_eq_zero.1 h')
  refine ⟨P.coeff.support.max' hne, Finsupp.mem_support_iff.1 (Finset.max'_mem _ hne), ?_⟩
  exact fun n hn => Finset.le_max' _ n (Finsupp.mem_support_iff.2 hn)

theorem coeff_top_ne_zero (h : P ≠ 0) : P.coeff (top P) ≠ 0 := by
  obtain ⟨k, hk, hle⟩ := exists_max h
  rwa [top_eq hk hle]

theorem le_top (h : P.coeff n ≠ 0) : n ≤ top P := by
  have hP : P ≠ 0 := by
    rintro rfl
    exact h rfl
  obtain ⟨k, hk, hle⟩ := exists_max hP
  rw [top_eq hk hle]
  exact hle n h

theorem coeff_lower (P : ℤ[T;T⁻¹]) (n : ℤ) :
    (lower P).coeff n = if top P = n then 0 else P.coeff n := by
  rw [lower, lead, AddMonoidAlgebra.coeff_sub, Finsupp.sub_apply, AddMonoidAlgebra.coeff_single,
    Finsupp.single_apply]
  split_ifs with h
  · rw [h, sub_self]
  · rw [sub_zero]

theorem lt_top_of_coeff_lower_ne_zero (h : (lower P).coeff n ≠ 0) : n < top P := by
  rw [coeff_lower] at h
  split_ifs at h with hn
  · exact absurd rfl h
  · exact lt_of_le_of_ne (le_top h) (Ne.symm hn)

/-! ## One step -/

/-- The term of the quotient that cancels the leading term of `P`, where the leading coefficient of
`D` is its own inverse. -/
noncomputable def step (D P : ℤ[T;T⁻¹]) : ℤ[T;T⁻¹] :=
  .single (top P - top D) (P.coeff (top P) * D.coeff (top D))

/-- What a step leaves. -/
noncomputable def reduce (D P : ℤ[T;T⁻¹]) : ℤ[T;T⁻¹] := P - step D P * D

/-- There is something left, and `D` does not exceed it. -/
def Fits (D P : ℤ[T;T⁻¹]) : Prop := P ≠ 0 ∧ top D ≤ top P

/-- The leading terms of the two sides of a step are the same. -/
theorem step_mul_lead (hD : IsUnit (D.coeff (top D))) (P : ℤ[T;T⁻¹]) :
    step D P * lead D = lead P := by
  have hsq : D.coeff (top D) * D.coeff (top D) = 1 := Int.isUnit_mul_self hD
  rw [step, lead, AddMonoidAlgebra.single_mul_single, sub_add_cancel, mul_assoc, hsq, mul_one, lead]

/-- Both leading terms may be left aside. -/
theorem reduce_eq (hD : IsUnit (D.coeff (top D))) (P : ℤ[T;T⁻¹]) :
    reduce D P = lower P - lower D * step D P := by
  rw [reduce, lower, lower, sub_mul, ← mul_comm (step D P) (lead D), step_mul_lead hD]
  ring

theorem coeff_lower_mul_step (D P : ℤ[T;T⁻¹]) (n : ℤ) :
    (lower D * step D P).coeff n =
      (lower D).coeff (n - (top P - top D)) * (P.coeff (top P) * D.coeff (top D)) := by
  rw [step, AddMonoidAlgebra.coeff_mul_single_apply, sub_eq_add_neg n]

theorem lt_top_of_coeff_lower_mul_step_ne_zero (h : (lower D * step D P).coeff n ≠ 0) :
    n < top P := by
  rw [coeff_lower_mul_step] at h
  have := lt_top_of_coeff_lower_ne_zero (left_ne_zero_of_mul h)
  omega

/-- A step lowers the highest exponent. -/
theorem lt_top_of_coeff_reduce_ne_zero (hD : IsUnit (D.coeff (top D)))
    (h : (reduce D P).coeff n ≠ 0) : n < top P := by
  rw [reduce_eq hD, AddMonoidAlgebra.coeff_sub, Finsupp.sub_apply] at h
  by_cases h₁ : (lower P).coeff n = 0
  · rw [h₁, zero_sub, neg_ne_zero] at h
    exact lt_top_of_coeff_lower_mul_step_ne_zero h
  · exact lt_top_of_coeff_lower_ne_zero h₁

/-! ## Exact divisions -/

/-- The products and sums that a step of the division of `P` by `D` forms are at most `2 ^ 53`. -/
structure StepExact (D P : ℤ[T;T⁻¹]) : Prop where
  products : ∀ n, |(lower D * step D P).coeff n| ≤ 2 ^ 53
  sums : SumExact (lower P) (-(lower D * step D P))

/-- Every step that the division of `P` by `D` comes to is exact. -/
def DivisionExact (D P : ℤ[T;T⁻¹]) : Prop :=
  ∀ i, (∀ j ≤ i, Fits D ((reduce D)^[j] P)) → StepExact D ((reduce D)^[i] P)

theorem DivisionExact.stepExact (h : DivisionExact D P) (hf : Fits D P) : StepExact D P :=
  h 0 fun j hj => by rwa [Nat.le_zero.1 hj]

theorem DivisionExact.reduce (h : DivisionExact D P) (hf : Fits D P) :
    DivisionExact D (reduce D P) := by
  intro i hi
  refine h (i + 1) fun j hj => ?_
  cases j with
  | zero => exact hf
  | succ j => exact hi j (Nat.le_of_succ_le_succ hj)

/-! ## Uniqueness -/

theorem coeff_mul_top (P Q : ℤ[T;T⁻¹]) :
    (P * Q).coeff (top P + top Q) = P.coeff (top P) * Q.coeff (top Q) := by
  refine AddMonoidAlgebra.coeff_mul_add_of_uniqueAdd fun a b ha hb hab => ?_
  have ha := le_top (Finsupp.mem_support_iff.1 ha)
  have hb := le_top (Finsupp.mem_support_iff.1 hb)
  omega

/-- The quotient without negative exponents and the remainder below the divisor are determined. -/
theorem eq_of_division (hD : IsUnit (D.coeff (top D))) {Q' R' : ℤ[T;T⁻¹]}
    (h : Q * D + R = Q' * D + R') (hQ : ∀ n, Q.coeff n ≠ 0 → 0 ≤ n)
    (hQ' : ∀ n, Q'.coeff n ≠ 0 → 0 ≤ n) (hR : ∀ n, R.coeff n ≠ 0 → n < top D)
    (hR' : ∀ n, R'.coeff n ≠ 0 → n < top D) : Q = Q' ∧ R = R' := by
  have hdiff : (Q - Q') * D = R' - R := by linear_combination h
  have coeff_sub_ne {A B : ℤ[T;T⁻¹]} {n : ℤ} (hn : (A - B).coeff n ≠ 0) :
      A.coeff n ≠ 0 ∨ B.coeff n ≠ 0 := by
    by_contra hzero
    push Not at hzero
    rw [AddMonoidAlgebra.coeff_sub, Finsupp.sub_apply, hzero.1, hzero.2] at hn
    exact hn rfl
  have hQQ : Q = Q' := by
    by_contra hne
    have hne : Q - Q' ≠ 0 := sub_ne_zero.2 hne
    -- the product of the leading terms cannot be part of the remainders
    have hcoeff : (R' - R).coeff (top (Q - Q') + top D) ≠ 0 := by
      rw [← hdiff, coeff_mul_top]
      exact mul_ne_zero (coeff_top_ne_zero hne) hD.ne_zero
    have hlow : 0 ≤ top (Q - Q') :=
      (coeff_sub_ne (coeff_top_ne_zero hne)).elim (hQ _) (hQ' _)
    have := (coeff_sub_ne hcoeff).elim (hR' _) (hR _)
    omega
  subst hQQ
  exact ⟨rfl, add_left_cancel h⟩

end SparsePoly.Laurent
