import Mathlib
import SparsePoly.Calculus
import SparsePoly.Proofs.Binary64.Power
import SparsePoly.Proofs.Calculus.Derivative

/-!
# Values and derivatives of integral polynomials

A polynomial with integral coefficients and without negative exponents reads as a polynomial over
the integers (`Poly.polynomial`).  As long as the powers, products and sums that are formed are at
most `2 ^ 53`, its value at an integer, its derivative and its tangent are those of the reading
(`Reads.isInt_eval`, `Reads.derivative`, `Reads.tangent`).
-/

open Polynomial SparsePoly.Binary64
open scoped LaurentPolynomial

namespace SparsePoly

/-! ## Polynomials as Laurent polynomials -/

namespace Laurent

variable {f g : ℤ[X]} {n : ℤ}

theorem coeff_toLaurent (f : ℤ[X]) (n : ℕ) : (toLaurent f).coeff (n : ℤ) = f.coeff n := by
  rw [LaurentPolynomial.coeff_toLaurent]
  exact Finsupp.mapDomain_apply Nat.cast_injective _ _

theorem nonneg_of_coeff_toLaurent_ne_zero (h : (toLaurent f).coeff n ≠ 0) : 0 ≤ n := by
  rw [← Finsupp.mem_support_iff, LaurentPolynomial.support_coeff_toLaurent, Finset.mem_map] at h
  obtain ⟨k, -, rfl⟩ := h
  exact Int.natCast_nonneg k

theorem toLaurent_trunc_single (h : 0 ≤ n) (c : ℤ) :
    toLaurent (LaurentPolynomial.trunc (.single n c : ℤ[T;T⁻¹])) = .single n c := by
  rw [LaurentPolynomial.single_eq_C_mul_T, LaurentPolynomial.trunc_C_mul_T, if_pos h,
    toLaurent_C_mul_T, Int.toNat_of_nonneg h]

theorem toLaurent_linear (m n : ℤ) : toLaurent (C m * X + C n) = .single 1 m + .single 0 n := by
  rw [map_add, toLaurent_C_mul_eq, toLaurent_X, toLaurent_C,
    ← LaurentPolynomial.single_eq_C_mul_T]
  rfl

theorem coeff_toLaurent_linear (m n k : ℤ) : (toLaurent (C m * X + C n)).coeff k =
    if k = 1 then m else if k = 0 then n else 0 := by
  rw [toLaurent_linear, AddMonoidAlgebra.coeff_add, Finsupp.add_apply, coeff_single, coeff_single]
  split_ifs <;> omega

theorem derivative_toLaurent (f : ℤ[X]) :
    derivative (toLaurent f) = toLaurent (Polynomial.derivative f) := by
  induction f using Polynomial.induction_on' with
  | add f g hf hg => rw [map_add, map_add, map_add, map_add, hf, hg]
  | monomial n c =>
    rw [toLaurent_C_mul_T, ← LaurentPolynomial.single_eq_C_mul_T, derivative_single,
      derivative_monomial, toLaurent_C_mul_T, ← LaurentPolynomial.single_eq_C_mul_T]
    cases n with
    | zero =>
      -- a constant has no derivative, whatever exponent it is given
      simp only [Nat.cast_zero, mul_zero, AddMonoidAlgebra.single_zero]
    | succ n => simp

/-- The value of the part with exponents from `k` on. -/
theorem eval_eq_sum_filter {k : ℕ} (h : ∀ n, g.coeff n = if k ≤ n then f.coeff n else 0) (a : ℤ) :
    g.eval a = ∑ n ∈ f.support with k ≤ n, f.coeff n * a ^ n := by
  have hsupport : g.support = f.support.filter (k ≤ ·) := by
    ext n
    simp [h, and_comm]
  rw [eval_eq_sum, Polynomial.sum_def, hsupport]
  refine Finset.sum_congr rfl fun n hn => ?_
  rw [h, if_pos (Finset.mem_filter.1 hn).2]

end Laurent

open Laurent

/-! ## Which values are exact -/

theorem derivativeExact_toLaurent {f : ℤ[X]} (h : ∀ n : ℕ, |f.coeff n * n| ≤ 2 ^ 53) :
    DerivativeExact (toLaurent f) where
  products n := by
    by_cases hn : (toLaurent f).coeff n = 0
    · rw [hn, zero_mul, abs_zero]
      positivity
    · lift n to ℕ using nonneg_of_coeff_toLaurent_ne_zero hn
      rw [coeff_toLaurent]
      exact h n
  exponents n hn := lt_of_lt_of_le (by norm_num) (nonneg_of_coeff_toLaurent_ne_zero hn)

/-- The powers, the products and the sums, the highest exponent first, that make up the value at `a`
are at most `2 ^ 53`. -/
structure EvalExact (f : ℤ[X]) (a : ℤ) : Prop where
  powers : ∀ n, f.coeff n ≠ 0 → |a ^ n| ≤ 2 ^ 53
  products : ∀ n, |f.coeff n * a ^ n| ≤ 2 ^ 53
  sums : ∀ k, |∑ n ∈ f.support with k ≤ n, f.coeff n * a ^ n| ≤ 2 ^ 53

/-- What the tangent at `a` forms is at most `2 ^ 53`. -/
structure TangentExact (f : ℤ[X]) (a : ℤ) : Prop where
  value : EvalExact f a
  coefficients : ∀ n : ℕ, |f.coeff n * n| ≤ 2 ^ 53
  slope : EvalExact f.derivative a
  rise : |f.derivative.eval a * a| ≤ 2 ^ 53
  intercept : |f.eval a - f.derivative.eval a * a| ≤ 2 ^ 53

theorem evalExact_monomial {k : ℕ} {a c : ℤ} (hpower : |a ^ k| ≤ 2 ^ 53)
    (hproduct : |c * a ^ k| ≤ 2 ^ 53) : EvalExact (Polynomial.monomial k c) a where
  powers n hn := by
    rw [coeff_monomial] at hn
    split_ifs at hn with h
    · rwa [← h]
    · exact absurd rfl hn
  products n := by
    rw [coeff_monomial]
    split_ifs with h
    · rwa [← h]
    · simp
  sums j := by
    have hsum (n : ℕ) : (Polynomial.monomial k c).coeff n * a ^ n =
        if k = n then c * a ^ k else 0 := by
      rw [coeff_monomial]
      split_ifs with h
      · rw [h]
      · rw [zero_mul]
    simp only [hsum, Finset.sum_ite_eq]
    split_ifs
    · exact hproduct
    · simp

/-! ## Lists of terms -/

namespace Term

variable {t : Term} {ts : List Term} {x : Float} {a : ℤ}

/-- The polynomial of a list of terms with integral coefficients, the negative exponents apart. -/
noncomputable def polynomial (ts : List Term) : ℤ[X] := LaurentPolynomial.trunc (laurent ts)

theorem polynomial_cons (t : Term) (ts : List Term) :
    polynomial (t :: ts) = LaurentPolynomial.trunc t.monomial + polynomial ts := by
  rw [polynomial, laurent_cons, map_add, polynomial]

theorem trunc_monomial (h : 0 ≤ t.exponent.toInt) : LaurentPolynomial.trunc t.monomial =
    Polynomial.monomial t.exponent.toInt.toNat (toInt t.coefficient) := by
  rw [monomial, LaurentPolynomial.single_eq_C_mul_T, LaurentPolynomial.trunc_C_mul_T, if_pos h]

/-- Without negative exponents the two readings are the same. -/
theorem toLaurent_polynomial (h : ∀ t ∈ ts, 0 ≤ t.exponent.toInt) :
    toLaurent (polynomial ts) = laurent ts := by
  induction ts with
  | nil => simp [polynomial]
  | cons t ts ih =>
    obtain ⟨ht, hts⟩ := List.forall_mem_cons.1 h
    have hmonomial : toLaurent (LaurentPolynomial.trunc t.monomial) = t.monomial :=
      toLaurent_trunc_single ht _
    rw [polynomial_cons, map_add, hmonomial, ih hts, laurent_cons]

/-- The exact value of a term without a negative exponent. -/
def valueAt (a : ℤ) (t : Term) : ℤ := toInt t.coefficient * a ^ t.exponent.toInt.toNat

theorem sum_valueAt (h : ∀ t ∈ ts, 0 ≤ t.exponent.toInt) :
    (ts.map (valueAt a)).sum = (polynomial ts).eval a := by
  induction ts with
  | nil => simp [polynomial]
  | cons t ts ih =>
    obtain ⟨ht, hts⟩ := List.forall_mem_cons.1 h
    rw [List.map_cons, List.sum_cons, ih hts, polynomial_cons, eval_add, trunc_monomial ht,
      eval_monomial, valueAt]

theorem isInt_eval (hx : IsInt x a) (hc : IsInt t.coefficient (toInt t.coefficient))
    (ht : 0 ≤ t.exponent.toInt) (hpower : |a ^ t.exponent.toInt.toNat| ≤ 2 ^ 53)
    (hproduct : |t.valueAt a| ≤ 2 ^ 53) : IsInt (t.eval x) (t.valueAt a) := by
  have hpow := hx.pow hpower
  rw [Int.toNat_of_nonneg ht] at hpow
  exact hc.mul hpow hproduct

/-- The sum of exact values. -/
theorem isInt_evalTerms (hvalue : ∀ t ∈ ts, IsInt (t.eval x) (t.valueAt a))
    (hsums : ∀ us, us <+: ts → us ≠ [] → |(us.map (valueAt a)).sum| ≤ 2 ^ 53) :
    IsInt (Poly.evalTerms ts x) (ts.map (valueAt a)).sum := by
  have hzero : IsInt (-0.0) 0 := isInt_zero_of_beq (by decide)
  have htoInt : (ts.map (·.eval x)).map toInt = ts.map (valueAt a) := by
    rw [List.map_map]
    exact List.map_congr_left fun t ht => (hvalue t ht).toInt_eq
  rw [← zero_add (ts.map (valueAt a)).sum, ← htoInt]
  refine isInt_foldl hzero (fun c hc => ?_) fun ns hns hne => ?_
  · obtain ⟨t, ht, rfl⟩ := List.mem_map.1 hc
    have := hvalue t ht
    rwa [this.toInt_eq]
  · rw [htoInt] at hns
    obtain ⟨us, hus, rfl⟩ := List.prefix_map_iff.1 hns
    rw [zero_add]
    exact hsums us hus fun h => hne (by rw [h, List.map_nil])

end Term

open Term

/-! ## Polynomials -/

namespace Poly

variable {p : Poly} {f : ℤ[X]} {t : Term} {x : Float} {a : ℤ}

/-- The polynomial over the integers that a polynomial with integral coefficients and without
negative exponents reads as. -/
noncomputable def polynomial (p : Poly) : ℤ[X] := Term.polynomial p.terms

theorem reads_polynomial (hp : p.Valid) (hi : p.Integral) (h : ∀ t ∈ p.terms, 0 ≤ t.exponent) :
    p.Reads (toLaurent p.polynomial) :=
  ⟨hp, hi, (toLaurent_polynomial fun t ht => Int32.le_iff_toInt_le.1 (h t ht)).symm⟩

theorem Reads.polynomial_eq (h : p.Reads (toLaurent f)) : Term.polynomial p.terms = f := by
  rw [Term.polynomial, h.laurent_terms, trunc_toLaurent]

theorem Reads.nonneg_exponent (h : p.Reads (toLaurent f)) (ht : t ∈ p.terms) :
    0 ≤ t.exponent.toInt :=
  nonneg_of_coeff_toLaurent_ne_zero (h.coeff_ne_zero ht)

/-- The term as one of the reading. -/
theorem Reads.coeff_toNat (h : p.Reads (toLaurent f)) (ht : t ∈ p.terms) :
    f.coeff t.exponent.toInt.toNat = toInt t.coefficient := by
  rw [← coeff_toLaurent, Int.toNat_of_nonneg (h.nonneg_exponent ht), h.coeff_eq ht]

/-- The value of the leading terms. -/
theorem Reads.sum_prefix (h : p.Reads (toLaurent f)) {l : List Term}
    (hl : l ++ [t] <+: p.terms) (a : ℤ) : ((l ++ [t]).map (valueAt a)).sum =
      ∑ n ∈ f.support with t.exponent.toInt.toNat ≤ n, f.coeff n * a ^ n := by
  have hmem : t ∈ p.terms := hl.subset (by simp)
  have hnonneg : ∀ u ∈ l ++ [t], 0 ≤ u.exponent.toInt := fun u hu =>
    h.nonneg_exponent (hl.subset hu)
  rw [sum_valueAt hnonneg]
  refine eval_eq_sum_filter (fun n => ?_) a
  rw [← coeff_toLaurent, toLaurent_polynomial hnonneg,
    laurent_eq_upper h.valid.strictlyDescending hl, h.laurent_terms, coeff_upper, coeff_toLaurent]
  simp only [Int.toNat_le]

/-- An exact value is the value of the reading. -/
theorem Reads.isInt_eval (h : p.Reads (toLaurent f)) (hx : IsInt x a) (he : EvalExact f a) :
    IsInt (p.eval x) (f.eval a) := by
  have hvalue : ∀ t ∈ p.terms, IsInt (t.eval x) (t.valueAt a) := fun t ht => by
    have hcoeff := h.coeff_toNat ht
    refine Term.isInt_eval hx (h.integral t ht) (h.nonneg_exponent ht) (he.powers _ ?_) ?_
    · rw [hcoeff]
      exact toInt_ne_zero (h.integral t ht) (h.valid.isZero_eq_false t ht)
    · rw [valueAt, ← hcoeff]
      exact he.products _
  rw [← h.polynomial_eq, ← sum_valueAt fun t ht => h.nonneg_exponent ht]
  refine isInt_evalTerms hvalue fun us hus hne => ?_
  obtain rfl | ⟨l, t, rfl⟩ := List.eq_nil_or_concat' us
  · exact absurd rfl hne
  · rw [h.sum_prefix hus]
    exact he.sums _

/-- An exact derivative is the derivative of the reading. -/
theorem Reads.derivative_polynomial (h : p.Reads (toLaurent f))
    (hc : ∀ n : ℕ, |f.coeff n * n| ≤ 2 ^ 53) :
    ∃ q, p.derivative = .ok q ∧ q.Reads (toLaurent (Polynomial.derivative f)) := by
  rw [← Laurent.derivative_toLaurent]
  exact h.derivative (derivativeExact_toLaurent hc)

end Poly

/-! ## Lines -/

theorem Line.reads {l : Line} {m n : ℤ} (hs : IsInt l.slope m) (hi : IsInt l.intercept n) :
    l.toPoly.Reads (toLaurent (C m * X + C n)) := by
  have hdescending : StrictlyDescending [⟨l.slope, 1⟩, ⟨l.intercept, 0⟩] := by
    simp [StrictlyDescending]
  have hintegral : Term.Integral [⟨l.slope, 1⟩, ⟨l.intercept, 0⟩] := by
    simp only [Term.Integral, List.forall_mem_cons, hs.toInt_eq, hi.toInt_eq]
    exact ⟨hs, hi, by simp⟩
  have hlaurent : Term.laurent [⟨l.slope, 1⟩, ⟨l.intercept, 0⟩] =
      toLaurent (C m * X + C n) := by
    rw [laurent_cons, laurent_cons, laurent_nil, add_zero, Term.monomial, Term.monomial,
      hs.toInt_eq, hi.toInt_eq, toLaurent_linear]
    rfl
  rw [← hlaurent]
  exact Poly.reads_ofTerms_of_descending hdescending hintegral

/-- An exact tangent is the tangent of the reading. -/
theorem Poly.Reads.tangent {p : Poly} {f : ℤ[X]} {x : Float} {a : ℤ} (h : p.Reads (toLaurent f))
    (hx : IsInt x a) (ht : TangentExact f a) : ∃ l, p.tangent x = .ok l ∧
      l.toPoly.Reads (toLaurent
        (C (f.derivative.eval a) * X + C (f.eval a - f.derivative.eval a * a))) := by
  obtain ⟨q, hq, hqr⟩ := h.derivative_polynomial ht.coefficients
  have hvalue := h.isInt_eval hx ht.value
  have hslope := hqr.isInt_eval hx ht.slope
  have hintercept : IsInt (p.eval x - q.eval x * x)
      (f.eval a - f.derivative.eval a * a) :=
    hvalue.sub (hslope.mul hx ht.rise) ht.intercept
  refine ⟨Line.through x (p.eval x) (q.eval x), ?_, Line.reads hslope hintercept⟩
  rw [Poly.tangent, slopeAt, hq]
  rfl

end SparsePoly
