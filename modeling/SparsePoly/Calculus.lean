import SparsePoly.Poly.Basic

/-!
# Calculus

The value of a polynomial at a point is the sum of the values of its terms, the highest exponent
first.  Derivatives follow the power rule, for negative exponents too, and antiderivatives follow it
backwards.  There a term in `x ^ -1` is no exception and becomes a constant term that is not finite.

A tangent touches the graph of a polynomial at a point, and a secant meets it at two.  The shape of
a graph is where its ends go, whether it is symmetric, and how it runs and bends at a point.
-/

namespace SparsePoly

/-! ## Values -/

namespace Poly

/-- The value of a list of terms at `x`. -/
def evalTerms (ts : List Term) (x : Float) : Float := Binary64.sum (ts.map (·.eval x))

/-- The value of a polynomial at `x`. -/
def eval (p : Poly) (x : Float) : Float := evalTerms p.terms x

/-- The function of a polynomial, which keeps the normal form at hand. -/
def toFunction (p : Poly) : Float → Float :=
  let ts := p.terms
  fun x => evalTerms ts x

end Poly

/-! ## Derivatives -/

/-- The derivative of a term. -/
def Term.derivative (t : Term) : Except Error Term := do
  return ⟨t.coefficient * t.exponent.toDouble, ← t.exponent.minus 1⟩

namespace Poly

/-- The derivative of a polynomial. -/
def derivative (p : Poly) : Except Error Poly := do
  return ofTerms (← p.terms.mapM Term.derivative)

/-- The derivative of order `n`.  A derivative that is zero is the last one to be computed. -/
def nthDerivative (p : Poly) : Nat → Except Error Poly
  | 0 => .ok p
  | n + 1 => if p.isZero then .ok p else do (← p.derivative).nthDerivative n

end Poly

/-! ## Antiderivatives and integrals -/

/-- The antiderivative of a term. -/
def Term.antiderivative (t : Term) : Except Error Term := do
  let exponent ← t.exponent.plus 1
  return ⟨t.coefficient / exponent.toDouble, exponent⟩

namespace Poly

/-- The antiderivative with the constant zero. -/
def antiderivative (p : Poly) : Except Error Poly := do
  return ofTerms (← p.terms.mapM Term.antiderivative)

/-- The antiderivative taken `n` times, each time with the constant zero. -/
def iteratedAntiderivative (p : Poly) : Nat → Except Error Poly
  | 0 => .ok p
  | n + 1 => do (← p.antiderivative).iteratedAntiderivative n

/-- The antiderivative of order `n` with the constant `c`; of order zero, the polynomial itself. -/
def nthAntiderivative (p : Poly) (n : Nat) (c : Float) : Except Error Poly :=
  if n = 0 then .ok p
  else do return (← p.iteratedAntiderivative n).append ⟨c, 0⟩

/-- The integral from `a` to `b`. -/
def definiteIntegral (p : Poly) (a b : Float) : Except Error Float := do
  let primitive ← p.antiderivative
  return primitive.eval b - primitive.eval a

end Poly

/-! ## Tangents and secants -/

/-- The line `slope * x + intercept`. -/
structure Line where
  /-- How much the line rises from `x` to `x + 1`. -/
  slope : Float
  /-- The value at zero. -/
  intercept : Float
  deriving DecidableEq

namespace Line

/-- The value of a line at `x`. -/
def eval (l : Line) (x : Float) : Float := l.slope * x + l.intercept

/-- The line as a polynomial. -/
def toPoly (l : Line) : Poly := Poly.ofTerms [⟨l.slope, 1⟩, ⟨l.intercept, 0⟩]

/-- The line through the point `(x, y)` with a given slope. -/
def through (x y slope : Float) : Line := ⟨slope, y - slope * x⟩

end Line

namespace Poly

/-- The slope of a polynomial at `x`. -/
def slopeAt (p : Poly) (x : Float) : Except Error Float := do
  return (← p.derivative).eval x

/-- The tangent at `x`. -/
def tangent (p : Poly) (x : Float) : Except Error Line := do
  return Line.through x (p.eval x) (← p.slopeAt x)

/-- The slope between the points of the graph at `x₁` and `x₂`. -/
def secantSlope (p : Poly) (x₁ x₂ : Float) : Float := (p.eval x₂ - p.eval x₁) / (x₂ - x₁)

/-- The secant through the points of the graph at `x₁` and `x₂`. -/
def secant (p : Poly) (x₁ x₂ : Float) : Line := Line.through x₁ (p.eval x₁) (p.secantSlope x₁ x₂)

end Poly

/-! ## The shape of a graph -/

/-- A quadrant of the plane, counted from the upper right against the clock. -/
inductive Quadrant
  | I | II | III | IV
  deriving DecidableEq

/-- The quadrants in which a graph ends. -/
structure EndBehavior where
  /-- The quadrant on the far left. -/
  left : Quadrant
  /-- The quadrant on the far right. -/
  right : Quadrant
  deriving DecidableEq

/-- How a graph runs at a point. -/
inductive Monotonicity
  | increasing | decreasing | stationary
  deriving DecidableEq

/-- How a graph bends at a point. -/
inductive Concavity
  | up | down | flat
  deriving DecidableEq

namespace Poly

/-- The ends of the graph, by the sign of the leading coefficient and the parity of the degree.  A
leading coefficient that is not positive counts as negative. -/
def endBehavior (p : Poly) : EndBehavior :=
  match decide (0.0 < p.leadingCoefficient), p.degree.toInt % 2 == 0 with
  | true, false => ⟨.III, .I⟩
  | true, true => ⟨.II, .I⟩
  | false, false => ⟨.II, .IV⟩
  | false, true => ⟨.III, .IV⟩

/-- Whether all exponents are even. -/
def isEven (p : Poly) : Bool := p.terms.all fun t => t.exponent.toInt % 2 == 0

/-- Whether all exponents are odd. -/
def isOdd (p : Poly) : Bool := p.terms.all fun t => t.exponent.toInt % 2 != 0

/-- How the graph runs at `x`, by the sign of the derivative. -/
def monotonicityAt (p : Poly) (x : Float) : Except Error Monotonicity := do
  let slope := (← p.derivative).eval x
  return if 0.0 < slope then .increasing else if slope < 0.0 then .decreasing else .stationary

/-- How the graph bends at `x`, by the sign of the second derivative. -/
def concavityAt (p : Poly) (x : Float) : Except Error Concavity := do
  let bend := (← p.nthDerivative 2).eval x
  return if 0.0 < bend then .up else if bend < 0.0 then .down else .flat

end Poly

end SparsePoly
