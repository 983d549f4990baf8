import Mathlib
import SparsePoly.Calculus
import SparsePoly.Proofs.Binary64.Overflow
import SparsePoly.Proofs.Poly.Ring

/-!
# Derivatives

A derivative fails only if the least exponent is a term's (`derivative_eq_ok`).  Whatever the
coefficients are, infinities and NaN included, the derivative of a polynomial of a degree above zero
has the degree below (`degree_derivative`), because a positive exponent never turns a coefficient
into zero.  Where the coefficients are integers and the products with the exponents are exact, the
derivative is that of the Laurent polynomial (`Reads.derivative`).
-/

open SparsePoly.Binary64
open scoped LaurentPolynomial

namespace SparsePoly

/-! ## Laurent polynomials -/

namespace Laurent

/-- The derivative of Laurent polynomials. -/
noncomputable def derivative : ℤ[T;T⁻¹] →+ ℤ[T;T⁻¹] :=
  (Finsupp.liftAddHom fun n : ℤ =>
    (AddMonoidAlgebra.singleAddHom (n - 1)).comp (AddMonoidHom.mulRight n)).comp
      AddMonoidAlgebra.coeffAddEquiv.toAddMonoidHom

theorem derivative_single (n c : ℤ) : derivative (.single n c) = .single (n - 1) (c * n) :=
  Finsupp.liftAddHom_apply_single _ n c

end Laurent

/-- The products of the coefficients and the exponents are at most `2 ^ 53`, and the least exponent
has no coefficient. -/
structure DerivativeExact (P : ℤ[T;T⁻¹]) : Prop where
  products : ∀ n, |P.coeff n * n| ≤ 2 ^ 53
  exponents : ∀ n, P.coeff n ≠ 0 → -2 ^ 31 < n

/-! ## Terms -/

theorem isInt_toDouble (e : Exponent) : IsInt e.toDouble e.toInt := by
  have hlow := e.le_toInt
  have hhigh := e.toInt_lt
  have hle : |e.toInt| ≤ 2 ^ 53 := abs_le.2 ⟨by omega, by omega⟩
  obtain ⟨hf, hv⟩ := toRat_ofInt (abs_intCast_lt hle)
  exact ⟨hf, hv.trans (rounded_intCast hle)⟩

namespace Term

/-- The derivative of a term, where its exponent can be lowered. -/
def derived (t : Term) : Term :=
  ⟨t.coefficient * t.exponent.toDouble, Int32.ofInt (t.exponent.toInt - 1)⟩

/-- The exponent is not the least one. -/
def Lowers (t : Term) : Prop := -2 ^ 31 < t.exponent.toInt

variable {t : Term} {ts : List Term}

theorem Lowers.toInt_derived (h : t.Lowers) :
    t.derived.exponent.toInt = t.exponent.toInt - 1 := by
  have hlow : -2 ^ 31 < t.exponent.toInt := h
  have hhigh := t.exponent.toInt_lt
  exact toInt_ofInt (exists_exponent ⟨by omega, by omega⟩)

theorem Lowers.derivative_eq (h : t.Lowers) : t.derivative = .ok t.derived := by
  have hminus : t.exponent.minus 1 = .ok t.derived.exponent :=
    Exponent.minus_eq_ok_iff.2 h.toInt_derived
  rw [derivative, hminus]
  rfl

/-- The derivative of a term with the least exponent overflows. -/
theorem derivative_of_not_lowers (h : ¬ t.Lowers) :
    t.derivative = .error (.exponentOverflow .subtraction) := by
  have hminus : ¬ ∃ e : Exponent, e.toInt = t.exponent.toInt - (1 : Exponent).toInt := by
    rintro ⟨e, he⟩
    have hlow := e.le_toInt
    have hone : (1 : Exponent).toInt = 1 := rfl
    exact h (by unfold Lowers; omega)
  rw [derivative, Exponent.minus_eq_error hminus]
  rfl

theorem mapM_derivative_of_not_lowers (h : ¬ ∀ t ∈ ts, t.Lowers) :
    ts.mapM Term.derivative = .error (.exponentOverflow .subtraction) := by
  push Not at h
  obtain ⟨t, ht, hlowers⟩ := h
  refine Poly.mapM_error (fun u _ => ?_) ⟨t, ht, derivative_of_not_lowers hlowers⟩
  by_cases hu : u.Lowers
  · exact Or.inl ⟨u.derived, hu.derivative_eq⟩
  · exact Or.inr (derivative_of_not_lowers hu)

theorem monomial_derived (h : t.Lowers)
    (hi : IsInt t.derived.coefficient (toInt t.coefficient * t.exponent.toInt)) :
    t.derived.monomial = Laurent.derivative t.monomial := by
  rw [monomial, monomial, Laurent.derivative_single, hi.toInt_eq, h.toInt_derived]

theorem laurent_map_derived (h : ∀ t ∈ ts, t.Lowers)
    (hi : ∀ t ∈ ts, IsInt t.derived.coefficient (toInt t.coefficient * t.exponent.toInt)) :
    laurent (ts.map derived) = Laurent.derivative (laurent ts) := by
  induction ts with
  | nil => rw [List.map_nil, laurent_nil, map_zero]
  | cons t ts ih =>
    obtain ⟨ht, hts⟩ := List.forall_mem_cons.1 h
    obtain ⟨hit, hits⟩ := List.forall_mem_cons.1 hi
    rw [List.map_cons, laurent_cons, laurent_cons, map_add, monomial_derived ht hit, ih hts hits]

theorem strictlyDescending_map_derived (hs : StrictlyDescending ts) (h : ∀ t ∈ ts, t.Lowers) :
    StrictlyDescending (ts.map derived) := by
  refine List.pairwise_map.2 (List.Pairwise.imp_of_mem (fun {a b} ha hb hab => ?_) hs)
  rw [Int32.lt_iff_toInt_lt, (h a ha).toInt_derived, (h b hb).toInt_derived]
  rw [Int32.lt_iff_toInt_lt] at hab
  omega

/-- A coefficient times a positive exponent is not zero, even where it is not a number. -/
theorem isZero_derived (hz : t.isZero = false) (he : 1 ≤ t.exponent.toInt) :
    t.derived.isZero = false := by
  have hint := isInt_toDouble t.exponent
  refine mul_beq_zero_of_one_le hz hint.finite ?_
  rw [hint.toRat_eq, abs_of_nonneg (by exact_mod_cast (by omega : 0 ≤ t.exponent.toInt))]
  exact_mod_cast he

end Term

open Term

namespace Poly

variable {p : Poly} {P : ℤ[T;T⁻¹]}

theorem derivative_eq_ok (h : ∀ t ∈ p.terms, t.Lowers) :
    p.derivative = .ok (ofTerms (p.terms.map derived)) := by
  rw [derivative, mapM_ok fun t ht => (h t ht).derivative_eq]
  rfl

/-- A derivative that exists is taken term by term. -/
theorem derivative_cases (p : Poly) :
    (∀ t ∈ p.terms, t.Lowers) ∧ p.derivative = .ok (ofTerms (p.terms.map derived)) ∨
      p.derivative = .error (.exponentOverflow .subtraction) := by
  by_cases h : ∀ t ∈ p.terms, t.Lowers
  · exact Or.inl ⟨h, derivative_eq_ok h⟩
  · right
    rw [derivative, mapM_derivative_of_not_lowers h]
    rfl

/-- The terms of a derivative are the derivatives of the terms that are not zero. -/
theorem terms_derivative (hp : p.Valid) (h : ∀ t ∈ p.terms, t.Lowers) :
    (ofTerms (p.terms.map derived)).terms = Term.nonzero (p.terms.map derived) :=
  terms_ofTerms (strictlyDescending_map_derived hp.strictlyDescending h)

theorem exists_of_mem_derivative (hp : p.Valid) (h : ∀ t ∈ p.terms, t.Lowers) {u : Term}
    (hu : u ∈ (ofTerms (p.terms.map derived)).terms) :
    ∃ t ∈ p.terms, u.exponent.toInt = t.exponent.toInt - 1 := by
  rw [terms_derivative hp h, mem_nonzero, List.mem_map] at hu
  obtain ⟨⟨t, ht, rfl⟩, -⟩ := hu
  exact ⟨t, ht, (h t ht).toInt_derived⟩

/-- The derivative has the degree below. -/
theorem degree_derivative (hp : p.Valid) (h : ∀ t ∈ p.terms, t.Lowers)
    (hd : 1 ≤ p.degree.toInt) :
    (ofTerms (p.terms.map derived)).degree.toInt = p.degree.toInt - 1 := by
  have hterms := terms_derivative hp h
  unfold degree leadingTerm? at hd ⊢
  rw [hterms]
  cases hts : p.terms with
  | nil =>
    rw [hts] at hd
    exact absurd hd (by decide)
  | cons t ts =>
    have ht : t ∈ p.terms := by simp [hts]
    rw [hts, List.head?_cons, Option.elim_some] at hd
    have hz := isZero_derived (hp.isZero_eq_false t ht) hd
    simp [Term.nonzero, hz, (h t ht).toInt_derived]

theorem Reads.lowers (h : p.Reads P) (hd : DerivativeExact P) : ∀ t ∈ p.terms, t.Lowers :=
  fun _ ht => hd.exponents _ (h.coeff_ne_zero ht)

/-- An exact derivative is the derivative of the reading. -/
theorem Reads.derivative (h : p.Reads P) (hd : DerivativeExact P) :
    ∃ q, p.derivative = .ok q ∧ q.Reads (Laurent.derivative P) := by
  have hlowers := h.lowers hd
  have hint : ∀ t ∈ p.terms,
      IsInt t.derived.coefficient (toInt t.coefficient * t.exponent.toInt) := fun t ht => by
    have := hd.products t.exponent.toInt
    rw [h.coeff_eq ht] at this
    exact (h.integral t ht).mul (isInt_toDouble t.exponent) this
  refine ⟨_, derivative_eq_ok hlowers, ?_⟩
  rw [← h.laurent_terms, ← laurent_map_derived hlowers hint]
  refine reads_ofTerms_of_descending
    (strictlyDescending_map_derived h.valid.strictlyDescending hlowers) fun u hu => ?_
  obtain ⟨t, ht, rfl⟩ := List.mem_map.1 hu
  have := hint t ht
  rwa [this.toInt_eq]

end Poly

end SparsePoly
