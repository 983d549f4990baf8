import Mathlib
import SparsePoly.Calculus
import SparsePoly.Proofs.Binary64.Status
import SparsePoly.Proofs.Calculus.Dense
import SparsePoly.Proofs.Calculus.Derivative

/-!
# Lines as polynomials

A line has a value of its own and a value as a polynomial, which leaves a zero slope or a zero
intercept out and begins its sum with `-0`.  Up to the sign of zero both values are the same at
every finite point, whatever doubles the slope and the intercept are, because nothing but zeros is
left out.  Elsewhere they part only for a level line (`Line.agree_eval_toPoly_iff`): zero times an
infinity is not a number, but the polynomial does not form that product.
-/

open SparsePoly.Binary64

namespace SparsePoly

/-! ## Lines -/

namespace Line

variable {l : Line} {y : Float}

theorem terms_toPoly (l : Line) :
    l.toPoly.terms = Term.nonzero [⟨l.slope, 1⟩, ⟨l.intercept, 0⟩] :=
  Poly.terms_ofTerms (by simp [Term.StrictlyDescending])

/-- Nothing is rounded on the way but the product and the sum of the line. -/
theorem evalTerms_eq (l : Line) (y : Float) :
    Poly.evalTerms [⟨l.slope, 1⟩, ⟨l.intercept, 0⟩] y = l.eval y := by
  show -0.0 + l.slope * pow y 1 + l.intercept * pow y 0 = l.slope * y + l.intercept
  rw [neg_zero_add_float, pow_one_float, pow_zero_float, mul_one_float]

/-- The constant term is its coefficient at every point. -/
theorem eval_constant (c y : Float) : Term.eval ⟨c, 0⟩ y = c := by
  show c * pow y 0 = c
  rw [pow_zero_float, mul_one_float]

/-- The terms that are left out have the value zero. -/
theorem agree_eval_toPoly (h : (l.slope == 0.0) = true → y.isFinite = true) :
    Agree (l.toPoly.eval y) (l.eval y) := by
  rw [Poly.eval, terms_toPoly, ← evalTerms_eq]
  refine Poly.agree_evalTerms_nonzero fun t ht hz => ?_
  simp only [List.mem_cons, List.not_mem_nil, or_false] at ht
  rcases ht with rfl | rfl
  · show (l.slope * pow y 1 == 0.0) = true
    have hslope := isInt_zero_of_beq hz
    rw [pow_one_float]
    exact mul_beq_zero hslope.finite (h hz) (by rw [hslope.toRat_eq, Int.cast_zero, zero_mul])
  · rw [eval_constant]
    exact hz

/-- A level line is a constant polynomial. -/
theorem agree_eval_toPoly_of_level (h : (l.slope == 0.0) = true) (y : Float) :
    Agree (l.toPoly.eval y) l.intercept := by
  have hterms : l.toPoly.terms = Term.nonzero [⟨l.intercept, 0⟩] := by
    rw [terms_toPoly, Term.nonzero, Term.nonzero,
      List.filter_cons_of_neg (by simpa [Term.isZero] using h)]
  have hvalue : Poly.evalTerms [⟨l.intercept, 0⟩] y = l.intercept := by
    show -0.0 + Term.eval ⟨l.intercept, 0⟩ y = l.intercept
    rw [neg_zero_add_float, eval_constant]
  rw [Poly.eval, hterms]
  refine (Poly.agree_evalTerms_nonzero fun t ht hz => ?_).trans (.inl hvalue)
  obtain rfl := List.mem_singleton.1 ht
  rw [eval_constant]
  exact hz

/-- A level line has no value where its argument is not finite. -/
theorem isNaN_eval_of_level (h : (l.slope == 0.0) = true) (hy : y.isFinite = false) :
    (l.eval y).isNaN = true := by
  refine isNaN_add_left (isNaN_mul_iff.2 ?_) l.intercept
  rcases finite_or_isInf_or_isNaN y with hf | hinf | hnan
  · rw [hy] at hf
    cases hf
  · exact Or.inr (Or.inr (Or.inr ⟨h, hinf⟩))
  · exact Or.inr (Or.inl hnan)

/-- The two values of a line part only where a level line has none. -/
theorem agree_eval_toPoly_iff : Agree (l.toPoly.eval y) (l.eval y) ↔
    ((l.slope == 0.0) = true → y.isFinite = true ∨ l.intercept.isNaN = true) := by
  constructor
  · intro h hz
    rw [or_iff_not_imp_left, Bool.not_eq_true]
    intro hy
    rw [← isNaN_eval_of_level hz hy]
    exact ((agree_eval_toPoly_of_level hz y).symm.trans h).isNaN
  · intro h
    by_cases hy : (l.slope == 0.0) = true → y.isFinite = true
    · exact agree_eval_toPoly hy
    · obtain ⟨hz, hy⟩ := Classical.not_imp.1 hy
      have hnan := (h hz).resolve_left hy
      rw [Bool.not_eq_true] at hy
      refine (agree_eval_toPoly_of_level hz y).trans (.inl ?_)
      rw [eq_nan hnan, eq_nan (isNaN_eval_of_level hz hy)]

end Line

/-! ## Tangents and secants -/

namespace Poly

/-- A tangent and a secant have the same values as polynomials and as functions, up to the sign of
zero and without any difference in rounding.  The tangent exists if the derivative does. -/
theorem agree_eval_tangent_secant (p : Poly) (x x₁ x₂ : Float) {y : Float}
    (hy : y.isFinite = true) :
    ((∀ t ∈ p.terms, t.Lowers) →
      ∃ l, p.tangent x = .ok l ∧ Agree (l.toPoly.eval y) (l.eval y)) ∧
    Agree ((p.secant x₁ x₂).toPoly.eval y) ((p.secant x₁ x₂).eval y) := by
  have hline (l : Line) : Agree (l.toPoly.eval y) (l.eval y) :=
    Line.agree_eval_toPoly_iff.2 fun _ => .inl hy
  refine ⟨fun h => ?_, hline _⟩
  refine ⟨Line.through x (p.eval x) ((ofTerms (p.terms.map Term.derived)).eval x), ?_, hline _⟩
  rw [tangent, slopeAt, derivative_eq_ok h]
  rfl

/-- The reciprocal, which has no finite tangent at its pole and a secant through the origin. -/
theorem agree_eval_tangent_secant_reciprocal :
    let p := ofTerms [⟨1.0, -1⟩]
    let tangent : Line := ⟨-infinity, nan⟩
    let secant : Line := ⟨1.0, 0.0⟩
    p.tangent 0.0 = .ok tangent ∧ Agree (tangent.toPoly.eval 3.0) (tangent.eval 3.0) ∧
      p.secant (-1.0) 1.0 = secant ∧ Agree (secant.toPoly.eval 3.0) (secant.eval 3.0) := by
  intro p tangent secant
  have hlowers : ∀ t ∈ p.terms, t.Lowers := by
    have hterms : p.terms = [⟨1.0, -1⟩] := by decide
    intro t ht
    rw [hterms, List.mem_singleton] at ht
    subst ht
    show -2 ^ 31 < (-1 : Exponent).toInt
    decide
  have htangent : p.tangent 0.0 = .ok tangent := by decide
  have hsecant : p.secant (-1.0) 1.0 = secant := by decide +kernel
  obtain ⟨hline, hvalue⟩ :=
    agree_eval_tangent_secant p 0.0 (-1.0) 1.0 (y := 3.0) (by decide)
  obtain ⟨l, hl, hagree⟩ := hline hlowers
  obtain rfl : l = tangent := Except.ok.inj (hl.symm.trans htangent)
  exact ⟨htangent, hagree, hsecant, hsecant ▸ hvalue⟩

end Poly

end SparsePoly
