import SparsePoly.Poly.Basic
import SparsePoly.SnapPolicy

/-!
# Arithmetic

Each operation reads its operands in normal form and appends the resulting terms, so like terms are
added when the result is looked at.  A product of coefficients is snapped before it is appended.

Each step of a long division divides the leading term of what remains by the leading term of the
divisor.  Both leading terms are left aside, and the snapped product of the step and the rest of the
divisor is subtracted from the rest of the remainder.  The steps end when the divisor has the higher
degree.
-/

namespace SparsePoly

/-! ## Sums and products -/

/-- The product of two terms, its coefficient snapped. -/
def Term.multiply (policy : SnapPolicy) (a b : Term) : Except Error Term := do
  return ⟨policy.snap (a.coefficient * b.coefficient), ← a.exponent.plus b.exponent⟩

namespace Poly

/-- The sum of two polynomials. -/
def add (p q : Poly) : Poly := p.extend q.terms

/-- The difference of two polynomials. -/
def subtract (p q : Poly) : Poly := p.extend (q.terms.map Term.negate)

/-- The polynomial with the opposite coefficients. -/
def negate (p : Poly) : Poly := ofTerms (p.terms.map Term.negate)

/-- The polynomial with its coefficients multiplied by `k`. -/
def scale (p : Poly) (k : Float) : Poly := ofTerms (p.terms.map (·.scale k))

/-- The product of two polynomials under a snap policy: each pair of terms adds one term. -/
def multiply (policy : SnapPolicy) (p q : Poly) : Except Error Poly := do
  let rows ← p.terms.mapM fun a => q.terms.mapM fun b => a.multiply policy b
  return ofTerms rows.flatten

/-- The factor `x - root`. -/
def rootFactor (root : Float) : Poly := ofTerms [⟨1.0, 1⟩, ⟨-root, 0⟩]

/-- The product of `x - root` over a list of roots under a snap policy. -/
def fromRoots (policy : SnapPolicy) (roots : List Float) : Except Error Poly :=
  roots.foldlM (fun p root => multiply policy p (rootFactor root)) one

end Poly

/-! ## Long division -/

/-- The result of a long division. -/
structure Division where
  /-- The quotient. -/
  quotient : Poly
  /-- What is left when the divisor no longer fits. -/
  remainder : Poly
  deriving DecidableEq

/-- The quotient of two terms. -/
def Term.divide (a b : Term) : Except Error Term := do
  return ⟨a.coefficient / b.coefficient, ← a.exponent.minus b.exponent⟩

namespace Poly

/-- The polynomial without its leading term. -/
def tail (p : Poly) : Poly := ofTerms p.terms.tail

/-- The remaining steps of a division by `lead + tail`, of which there are at most `steps`. -/
def divideFrom (policy : SnapPolicy) (lead : Term) (tail : Poly) :
    (steps : Nat) → Division → Except Error Division
  | 0, d => .ok d
  | steps + 1, d =>
    match d.remainder.leadingTerm? with
    | none => .ok d
    | some top =>
      if top.exponent < lead.exponent then .ok d
      else do
        let step ← top.divide lead
        let product ← multiply policy tail (ofTerms [step])
        divideFrom policy lead tail steps
          ⟨d.quotient.append step, d.remainder.tail.subtract product⟩

/-- Long division under a snap policy.  Every step lowers the degree of the remainder, so the
difference of the degrees bounds the number of steps. -/
def divide (policy : SnapPolicy) (p d : Poly) : Except Error Division :=
  match d.leadingTerm? with
  | none => .error .divideByZero
  | some lead =>
    divideFrom policy lead d.tail (p.degree.toInt - lead.exponent.toInt + 1).toNat ⟨zero, p⟩

end Poly

end SparsePoly
