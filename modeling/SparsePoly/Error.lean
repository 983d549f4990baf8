import SparsePoly.Decimal

/-!
# Errors

Each way in which an operation can fail, with the values that the failure is about, and its wording.
-/

namespace SparsePoly

/-- The exponent computation that left the range. -/
inductive Overflow
  /-- A sum of exponents. -/
  | addition
  /-- A difference of exponents. -/
  | subtraction
  deriving DecidableEq

/-- Why an operation has no result. -/
inductive Error
  /-- The divisor of a long division is the zero polynomial. -/
  | divideByZero
  /-- The number was to be read as a polynomial but is not finite. -/
  | malformedParameter (value : Float)
  /-- The snapping distance is negative or not finite. -/
  | invalidEpsilon (epsilon : Float)
  /-- The process already has a snap policy. -/
  | policyInEffect
  /-- A closed form was asked for the roots of a polynomial of another degree. -/
  | invalidDegree (expected found : Int)
  /-- Newton's method met the point where the derivative is zero. -/
  | zeroDerivative (point : Float)
  /-- Newton's method did not settle within its iterations. -/
  | noConvergence (guess : Float) (iterations : Nat)
  /-- An exponent left the range of 32-bit integers. -/
  | exponentOverflow (operation : Overflow)
  deriving DecidableEq

namespace Error

open Decimal in
/-- The wording of an error. -/
def message : Error → String
  | divideByZero => "division by the zero polynomial"
  | malformedParameter value =>
    "malformed parameter: " ++ display value ++ " is not a finite number"
  | invalidEpsilon epsilon =>
    "invalid snap policy: epsilon must be finite and non-negative, got " ++ display epsilon
  | policyInEffect => "invalid snap policy: a snap policy is already in effect"
  | invalidDegree expected found =>
    "expected a polynomial of degree " ++ toString expected ++ ", found degree " ++ toString found
  | zeroDerivative point => "derivative vanishes at x = " ++ display point
  | noConvergence guess iterations =>
    "no convergence from initial guess " ++ display guess ++ " after " ++ toString iterations
      ++ " iterations"
  | exponentOverflow .addition => "attempt to add with overflow"
  | exponentOverflow .subtraction => "attempt to subtract with overflow"

end Error

end SparsePoly
