import SparsePoly.Operand
import SparsePoly.Roots.Finder

/-!
# Operations under the policy in effect

The operations that snap their results, with the policy of the process.  On polynomials each of them
puts a policy in effect before it computes, so one is in effect even where the computation fails.
Operands are read first, and an operand that does not read as a polynomial leaves the policy open.
-/

namespace SparsePoly

namespace InEffect

/-! ## Products and quotients -/

/-- The product of two polynomials. -/
def multiply (p q : Poly) : Run Poly := do p.multiply (← SnapPolicy.current) q

/-- Long division. -/
def divide (p d : Poly) : Run Division := do p.divide (← SnapPolicy.current) d

/-- The product of `x - root` over a list of roots.  The empty product needs no policy. -/
def fromRoots (roots : List Float) : Run Poly := do
  if roots.isEmpty then return Poly.one
  Poly.fromRoots (← SnapPolicy.current) roots

/-! ## Roots -/

/-- The root of a linear polynomial. -/
def linearRoots (p : Poly) : Run (List Float) := do p.linearRoots (← SnapPolicy.current)

/-- The roots of a quadratic polynomial. -/
def quadraticRoots (p : Poly) : Run (List Float) := do p.quadraticRoots (← SnapPolicy.current)

/-- The roots of a cubic polynomial. -/
def cubicRoots (p : Poly) : Run (List Float) := do p.cubicRoots .system (← SnapPolicy.current)

/-- The roots of a quartic polynomial. -/
def quarticRoots (p : Poly) : Run (List Float) := do p.quarticRoots .system (← SnapPolicy.current)

/-- A root finder around a refiner. -/
def rootFinder (refine : Refiner) : Run RootFinder := do
  return ⟨refine, ← SnapPolicy.current, .system⟩

/-- The root finder that serves unless another one is asked for. -/
def standardFinder : Run RootFinder := rootFinder Newton.standard.refine

end InEffect

namespace Operand

/-! ## Products and quotients of operands -/

/-- The product. -/
def multiply (p q : Operand) : Run Poly := do
  InEffect.multiply (← p.resolve) (← q.resolve)

/-- Quotient and remainder. -/
def divRem (p q : Operand) : Run Division := do
  InEffect.divide (← p.resolve) (← q.resolve)

/-- The quotient. -/
def divide (p q : Operand) : Run Poly := return (← p.divRem q).quotient

/-- The remainder. -/
def modulo (p q : Operand) : Run Poly := return (← p.divRem q).remainder

/-! ## Roots of operands -/

/-- The real roots. -/
def roots (p : Operand) : Run (List Float) := do
  let p ← p.resolve
  (← InEffect.standardFinder).roots p

/-- The real roots, refined from the guesses from degree five on. -/
def rootsFrom (p : Operand) (guesses : List Float) : Run (List Float) := do
  let p ← p.resolve
  (← InEffect.standardFinder).rootsFrom p guesses

/-- The roots of the derivative. -/
def criticalPoints (p : Operand) : Run (List Float) := do
  let p ← p.resolve
  (← InEffect.standardFinder).criticalPoints p

/-- The points at which a polynomial is highest among its neighbours. -/
def localMaxima (p : Operand) (lower upper : Option Float) : Run (List Float) := do
  let slope ← (← p.resolve).derivative
  (← InEffect.standardFinder).maxima slope lower upper

/-- The points at which a polynomial is lowest among its neighbours. -/
def localMinima (p : Operand) (lower upper : Option Float) : Run (List Float) := do
  let slope ← (← p.resolve).derivative
  (← InEffect.standardFinder).minima slope lower upper

/-- The points at which the graph changes its bend. -/
def inflectionPoints (p : Operand) : Run (List Float) := do
  let bend ← (← p.resolve).nthDerivative 2
  (← InEffect.standardFinder).inflections bend

end Operand

end SparsePoly
