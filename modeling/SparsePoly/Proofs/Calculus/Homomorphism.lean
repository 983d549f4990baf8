import Mathlib
import SparsePoly.Proofs.Calculus.Evaluation

/-!
# Evaluation as a ring homomorphism

The exact operations are those of the ring, and exact values are values of the readings.  So the
value of an exact sum, difference or product is the sum, difference or product of the values
(`eval_ringHom`), although the one is computed from the combined terms and the other from two
values.
-/

open Polynomial SparsePoly.Binary64 SparsePoly.Laurent
open scoped LaurentPolynomial

namespace SparsePoly

/-! ## Values -/

section

variable {f : ℤ[X]} {a : ℤ}

/-- The whole value is the last of the sums. -/
theorem EvalExact.abs_eval_le (h : EvalExact f a) : |f.eval a| ≤ 2 ^ 53 := by
  have hsum := h.sums 0
  rwa [← eval_eq_sum_filter (g := f) (fun n => by simp) a] at hsum

/-- Values are exact if the absolute values of the products have a sum of at most `2 ^ 53`. -/
theorem evalExact_of_sum_le {N : ℕ} (hdegree : f.natDegree < N)
    (h : ∑ n ∈ Finset.range N, |f.coeff n * a ^ n| ≤ 2 ^ 53) : EvalExact f a := by
  have hproduct (n : ℕ) : |f.coeff n * a ^ n| ≤ 2 ^ 53 := by
    by_cases hn : n < N
    · exact (Finset.single_le_sum (f := fun n => |f.coeff n * a ^ n|)
        (fun _ _ => abs_nonneg _) (Finset.mem_range.2 hn)).trans h
    · simp [coeff_eq_zero_of_natDegree_lt (lt_of_lt_of_le hdegree (not_lt.1 hn))]
  refine ⟨fun n hn => ?_, hproduct, fun k => ?_⟩
  · refine le_trans ?_ (hproduct n)
    rw [abs_mul]
    exact le_mul_of_one_le_left (abs_nonneg _) (Int.one_le_abs hn)
  · have hsubset : f.support.filter (k ≤ ·) ⊆ Finset.range N := fun n hn =>
      Finset.mem_range.2
        ((le_natDegree_of_mem_supp n (Finset.mem_filter.1 hn).1).trans_lt hdegree)
    calc |∑ n ∈ f.support with k ≤ n, f.coeff n * a ^ n|
        ≤ ∑ n ∈ f.support with k ≤ n, |f.coeff n * a ^ n| := Finset.abs_sum_le_sum_abs _ _
      _ ≤ ∑ n ∈ Finset.range N, |f.coeff n * a ^ n| :=
          Finset.sum_le_sum_of_subset_of_nonneg hsubset fun _ _ _ => abs_nonneg _
      _ ≤ 2 ^ 53 := h

end

/-- Doubles with the same integral value compare equal. -/
theorem Binary64.IsInt.beq {x y : Float} {n : ℤ} (hx : IsInt x n) (hy : IsInt y n) :
    (x == y) = true :=
  (beq_iff_toRat hx.finite hy.finite).2 (hx.toRat_eq.trans hy.toRat_eq.symm)

/-! ## Operations that are exact -/

theorem sumExact_toLaurent {f g : ℤ[X]} (h : ∀ n, |f.coeff n + g.coeff n| ≤ 2 ^ 53) :
    SumExact (toLaurent f) (toLaurent g) := by
  intro n hn _
  lift n to ℕ using nonneg_of_coeff_toLaurent_ne_zero hn
  rw [coeff_toLaurent, coeff_toLaurent]
  exact h n

/-- A product with a line adds two products for each coefficient. -/
theorem productExact_linear {P : ℤ[T;T⁻¹]} {m n : ℤ}
    (h : ∀ i j, |P.coeff i * m| + |P.coeff j * n| ≤ 2 ^ 53)
    (hP : ∀ i, P.coeff i ≠ 0 → -2 ^ 31 ≤ i ∧ i + 1 < 2 ^ 31) :
    ProductExact P (toLaurent (C m * X + C n)) where
  products i j := by
    have hm := h i i
    have := abs_nonneg (P.coeff i * m)
    have := abs_nonneg (P.coeff i * n)
    rw [coeff_toLaurent_linear]
    split_ifs
    · omega
    · omega
    · simp
  sums k j := by
    have hle (c : ℤ) (i : ℤ) : |(upper k P).coeff i * c| ≤ |P.coeff i * c| := by
      rw [coeff_upper]
      split_ifs
      · exact le_rfl
      · rw [zero_mul, abs_zero]
        exact abs_nonneg _
    rw [toLaurent_linear, mul_add, AddMonoidAlgebra.coeff_add, Finsupp.add_apply,
      AddMonoidAlgebra.coeff_mul_single_apply, AddMonoidAlgebra.coeff_mul_single_apply]
    exact (abs_add_le _ _).trans ((add_le_add (hle m _) (hle n _)).trans (h _ _))
  exponents i j hi hj := by
    have := hP i hi
    rw [coeff_toLaurent_linear] at hj
    split_ifs at hj <;> omega

/-! ## Values of sums, differences and products -/

namespace Poly

variable {p q : Poly} {f g : ℤ[X]} {x : Float} {a : ℤ}

theorem Reads.nonneg_of_mem (h : p.Reads (toLaurent f)) : ∀ t ∈ p.terms, 0 ≤ t.exponent :=
  fun _ ht => Int32.le_iff_toInt_le.2 (h.nonneg_exponent ht)

theorem Reads.isInt_eval_add (hp : p.Reads (toLaurent f)) (hq : q.Reads (toLaurent g))
    (h : SumExact (toLaurent f) (toLaurent g)) (hx : IsInt x a) (he : EvalExact (f + g) a) :
    IsInt ((p.add q).eval x) (f.eval a + g.eval a) := by
  have hsum := hp.add hq h
  rw [← map_add] at hsum
  rw [← eval_add]
  exact hsum.isInt_eval hx he

theorem Reads.isInt_eval_subtract (hp : p.Reads (toLaurent f)) (hq : q.Reads (toLaurent g))
    (h : SumExact (toLaurent f) (-toLaurent g)) (hx : IsInt x a) (he : EvalExact (f - g) a) :
    IsInt ((p.subtract q).eval x) (f.eval a - g.eval a) := by
  have hdiff := hp.subtract hq h
  rw [← map_sub] at hdiff
  rw [← eval_sub]
  exact hdiff.isInt_eval hx he

theorem Reads.isInt_eval_multiply (hp : p.Reads (toLaurent f)) (hq : q.Reads (toLaurent g))
    (h : ProductExact (toLaurent f) (toLaurent g)) (hx : IsInt x a) (he : EvalExact (f * g) a)
    (policy : SnapPolicy) : ∃ m, Poly.multiply policy p q = .ok m ∧
      IsInt (m.eval x) (f.eval a * g.eval a) := by
  obtain ⟨m, hm, hread⟩ := hp.multiply hq h policy
  rw [← map_mul] at hread
  rw [← eval_mul]
  exact ⟨m, hm, hread.isInt_eval hx he⟩

/-- At an integer the exact value of a polynomial is that of its reading, and the value of an exact
sum, difference or product, under every snap policy, is the sum, difference or product of the
values.  Only a product of which an exponent is out of range has no value. -/
theorem eval_ringHom (hp : p.Valid) (hq : q.Valid) (ip : p.Integral) (iq : q.Integral)
    (np : ∀ t ∈ p.terms, 0 ≤ t.exponent) (nq : ∀ t ∈ q.terms, 0 ≤ t.exponent) (hx : IsInt x a)
    (ep : EvalExact p.polynomial a) (eq : EvalExact q.polynomial a) (policy : SnapPolicy) :
    IsInt (p.eval x) (p.polynomial.eval a) ∧ IsInt (q.eval x) (q.polynomial.eval a) ∧
    (SumExact p.laurent q.laurent → EvalExact (p.polynomial + q.polynomial) a →
      IsInt ((p.add q).eval x) (p.polynomial.eval a + q.polynomial.eval a) ∧
      ((p.add q).eval x == p.eval x + q.eval x) = true) ∧
    (SumExact p.laurent (-q.laurent) → EvalExact (p.polynomial - q.polynomial) a →
      IsInt ((p.subtract q).eval x) (p.polynomial.eval a - q.polynomial.eval a) ∧
      ((p.subtract q).eval x == p.eval x - q.eval x) = true) ∧
    (ProductExact p.laurent q.laurent → EvalExact (p.polynomial * q.polynomial) a →
      ∃ m, multiply policy p q = .ok m ∧
        IsInt (m.eval x) (p.polynomial.eval a * q.polynomial.eval a) ∧
        (m.eval x == p.eval x * q.eval x) = true) ∧
    ((¬ ∀ s ∈ p.terms, ∀ t ∈ q.terms, s.Multiplies t) →
      multiply policy p q = .error (.exponentOverflow .addition)) := by
  have rp := reads_polynomial hp ip np
  have rq := reads_polynomial hq iq nq
  have vp := rp.isInt_eval hx ep
  have vq := rq.isInt_eval hx eq
  rw [rp.laurent_eq, rq.laurent_eq]
  refine ⟨vp, vq, fun hs he => ?_, fun hs he => ?_, fun hs he => ?_,
    fun h => multiply_of_not_multiplies h policy⟩
  · have hsum := rp.isInt_eval_add rq hs hx he
    have hle := he.abs_eval_le
    rw [eval_add] at hle
    exact ⟨hsum, hsum.beq (vp.add vq hle)⟩
  · have hdiff := rp.isInt_eval_subtract rq hs hx he
    have hle := he.abs_eval_le
    rw [eval_sub, sub_eq_add_neg] at hle
    refine ⟨hdiff, ?_⟩
    rw [sub_eq_add_neg_float]
    rw [sub_eq_add_neg] at hdiff
    exact hdiff.beq (vp.add vq.neg hle)
  · obtain ⟨m, hm, hprod⟩ := rp.isInt_eval_multiply rq hs hx he policy
    have hle := he.abs_eval_le
    rw [eval_mul] at hle
    exact ⟨m, hm, hprod, hprod.beq (vp.mul vq hle)⟩

/-- The sum, the difference and the product of `x + 1` and `x - 1` at `3`, with terms that cancel,
and a square that has no value. -/
theorem eval_ringHom_linear :
    let p := (Line.mk 1.0 1.0).toPoly
    let q := (Line.mk 1.0 (-1.0)).toPoly
    let r := monomial 1.0 2147483647
    IsInt (p.eval 3.0) 4 ∧ ((p.add q).eval 3.0 == p.eval 3.0 + q.eval 3.0) = true ∧
      ((p.subtract q).eval 3.0 == p.eval 3.0 - q.eval 3.0) = true ∧
      (∃ m, multiply .standard p q = .ok m ∧ (m.eval 3.0 == p.eval 3.0 * q.eval 3.0) = true) ∧
      multiply .standard r r = .error (.exponentOverflow .addition) := by
  intro p q r
  have one : IsInt 1.0 1 := isInt_of_isNat (by decide)
  have three : IsInt 3.0 3 := isInt_of_isNat (by decide)
  have rp : p.Reads (toLaurent (C 1 * X + C 1)) := Line.reads one one
  have rq : q.Reads (toLaurent (C 1 * X + C (-1))) := Line.reads one one.neg
  have hp : p.polynomial = C 1 * X + C 1 := rp.polynomial_eq
  have hq : q.polynomial = C 1 * X + C (-1) := rq.polynomial_eq
  have exact_of_degree {f : ℤ[X]} (hf : f.natDegree < 3)
      (h : |f.coeff 0| + |f.coeff 1 * 3| + |f.coeff 2 * 9| ≤ 2 ^ 53) : EvalExact f 3 := by
    refine evalExact_of_sum_le hf ?_
    simpa [Finset.sum_range_succ] using h
  have ep : EvalExact p.polynomial 3 := by
    rw [hp]
    exact exact_of_degree (by compute_degree!) (by simp [coeff_X, coeff_one])
  have eq : EvalExact q.polynomial 3 := by
    rw [hq]
    exact exact_of_degree (by compute_degree!) (by simp [coeff_X, coeff_one])
  obtain ⟨value, -, sum, difference, product, -⟩ := eval_ringHom rp.valid rq.valid rp.integral
    rq.integral rp.nonneg_of_mem rq.nonneg_of_mem three ep eq .standard
  rw [rp.laurent_eq, rq.laurent_eq, hp, hq] at sum difference product
  refine ⟨?_, (sum ?_ ?_).2, (difference ?_ ?_).2, ?_, ?_⟩
  · rw [hp] at value
    simpa using value
  · refine sumExact_toLaurent fun n => ?_
    simp only [coeff_add, coeff_C_mul, coeff_X, coeff_C]
    split_ifs <;> norm_num
  · exact exact_of_degree (by compute_degree!) (by simp [coeff_X, coeff_one])
  · rw [← map_neg]
    refine sumExact_toLaurent fun n => ?_
    simp only [coeff_add, coeff_neg, coeff_C_mul, coeff_X, coeff_C]
    split_ifs <;> norm_num
  · exact exact_of_degree (by compute_degree!) (by simp [coeff_one])
  · have hprod : ProductExact (toLaurent (C 1 * X + C 1)) (toLaurent (C 1 * X + C (-1))) := by
      refine productExact_linear (fun i j => ?_) fun i hi => ?_
      · rw [coeff_toLaurent_linear, coeff_toLaurent_linear]
        split_ifs <;> norm_num
      · rw [coeff_toLaurent_linear] at hi
        split_ifs at hi <;> omega
    obtain ⟨m, hm, -, hvalue⟩ := product hprod
      (exact_of_degree (by compute_degree!) (by simp [coeff_one, mul_add, add_mul, coeff_mul_X]))
    exact ⟨m, hm, hvalue⟩
  · have rr : r.Reads (toLaurent (Polynomial.monomial 2147483647 1)) := by
      rw [toLaurent_C_mul_T, ← LaurentPolynomial.single_eq_C_mul_T]
      exact reads_monomial one 2147483647
    have hr : r.polynomial = Polynomial.monomial 2147483647 1 := rr.polynomial_eq
    have er : EvalExact r.polynomial 1 := by
      rw [hr]
      exact evalExact_monomial (by rw [one_pow]; norm_num) (by rw [one_pow]; norm_num)
    obtain ⟨-, -, -, -, -, overflow⟩ := eval_ringHom rr.valid rr.valid rr.integral rr.integral
      rr.nonneg_of_mem rr.nonneg_of_mem one er er .standard
    refine overflow fun h => ?_
    have hterms : r.terms = [⟨1.0, 2147483647⟩] := by decide
    rw [hterms, List.forall_mem_singleton, List.forall_mem_singleton] at h
    obtain ⟨e, he⟩ := h
    have := e.toInt_lt
    have hmax : (2147483647 : Exponent).toInt = 2147483647 := by decide
    rw [hmax] at he
    omega

end Poly

end SparsePoly
