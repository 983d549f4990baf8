import SparsePoly.Calculus
import SparsePoly.Poly.Arithmetic
import SparsePoly.Poly.Text

/-!
# Operands

An operand is anything that reads as a polynomial: a polynomial, a text, or a number.  Each operand
of an operation is read as a polynomial, the first one before the second, and the operation is
applied to the polynomials.  No snap policy enters the operations here.
-/

namespace SparsePoly

/-- Something that reads as a polynomial. -/
inductive Operand
  /-- A text, which reads as a polynomial whatever it holds. -/
  | text (s : String)
  /-- A number, which reads as a constant if it is finite. -/
  | number (c : Float)
  /-- A polynomial. -/
  | poly (p : Poly)
  deriving DecidableEq

namespace Operand

/-- The polynomial that an operand reads as. -/
def resolve : Operand → Except Error Poly
  | text s => .ok (Poly.parse s)
  | number c => if c.isFinite then .ok (Poly.constant c) else .error (.malformedParameter c)
  | poly p => .ok p

/-! ## Structure and text -/

/-- The canonical text. -/
def render (p : Operand) (spaces : Bool) : Except Error String := return (← p.resolve).render spaces

/-- The number of terms. -/
def size (p : Operand) : Except Error Nat := return (← p.resolve).size

/-- The term at position `n`, or the zero term. -/
def term (p : Operand) (n : Nat) : Except Error Term := return (← p.resolve).term n

/-- The degree. -/
def degree (p : Operand) : Except Error Exponent := return (← p.resolve).degree

/-- The name of the degree. -/
def degreeName (p : Operand) : Except Error DegreeName := return (← p.resolve).degreeName

/-- Whether there are no terms. -/
def isZero (p : Operand) : Except Error Bool := return (← p.resolve).isZero

/-- Whether there is no term in `x`. -/
def isConstant (p : Operand) : Except Error Bool := return (← p.resolve).isConstant

/-- Whether both have the same text. -/
def equals (p q : Operand) : Except Error Bool := return (← p.resolve).equals (← q.resolve)

/-! ## Sums -/

/-- The sum. -/
def add (p q : Operand) : Except Error Poly := return (← p.resolve).add (← q.resolve)

/-- The difference. -/
def subtract (p q : Operand) : Except Error Poly := return (← p.resolve).subtract (← q.resolve)

/-! ## Calculus -/

/-- The value at `x`. -/
def eval (p : Operand) (x : Float) : Except Error Float := return (← p.resolve).eval x

/-- The derivative of order `n`. -/
def nthDerivative (p : Operand) (n : Nat) : Except Error Poly := do (← p.resolve).nthDerivative n

/-- The antiderivative of order `n` with the constant `c`. -/
def nthAntiderivative (p : Operand) (n : Nat) (c : Float) : Except Error Poly := do
  (← p.resolve).nthAntiderivative n c

/-- The tangent at `x`. -/
def tangent (p : Operand) (x : Float) : Except Error Poly :=
  return (← (← p.resolve).tangent x).toPoly

/-- The secant through the points at `x₁` and `x₂`. -/
def secant (p : Operand) (x₁ x₂ : Float) : Except Error Poly :=
  return ((← p.resolve).secant x₁ x₂).toPoly

/-- The slope at `x`. -/
def slopeAt (p : Operand) (x : Float) : Except Error Float := do (← p.resolve).slopeAt x

/-- The slope between the points at `x₁` and `x₂`. -/
def secantSlope (p : Operand) (x₁ x₂ : Float) : Except Error Float :=
  return (← p.resolve).secantSlope x₁ x₂

/-- The ends of the graph. -/
def endBehavior (p : Operand) : Except Error EndBehavior := return (← p.resolve).endBehavior

end Operand

end SparsePoly
