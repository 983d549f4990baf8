import SparsePoly.Poly.Basic
import SparsePoly.SnapPolicy

/-!
# Roots in closed form

The formulas for the degrees one to four.  Every root is snapped.  The formulas keep their order and
the multiplicity of the roots; only real numbers are computed with, so a quadratic polynomial
without real roots has two that are NaN.
-/

namespace SparsePoly

/-- The functions of the formulas that are not basic operations on doubles. -/
structure Elementary where
  /-- The cube root. -/
  cbrt : Float → Float
  /-- The inverse of the cosine. -/
  acos : Float → Float
  /-- The cosine. -/
  cos : Float → Float
  /-- The sine. -/
  sin : Float → Float

/-- The functions that the system provides. -/
def Elementary.system : Elementary := ⟨Float.cbrt, Float.acos, Float.cos, Float.sin⟩

namespace ClosedForm

open Binary64 (pow clampUnit)

/-- The roots of `a * x ^ 3 + b * x ^ 2 + c * x + d`: one of them if the others are complex, else
three by the trigonometric formula. -/
def solveCubic (fn : Elementary) (a b c d : Float) : List Float :=
  let f := (3.0 * c / a - b * b / (a * a)) / 3.0
  let g := (2.0 * pow b 3 / pow a 3 - 9.0 * b * c / (a * a) + 27.0 * d / a) / 27.0
  let h := g * g / 4.0 + pow f 3 / 27.0
  let shift := b / (3.0 * a)
  if 0.0 < h then
    let s := fn.cbrt (-(g / 2.0) + h.sqrt)
    let u := fn.cbrt (-(g / 2.0) - h.sqrt)
    [s + u - shift]
  else if f == 0.0 && g == 0.0 && h == 0.0 then
    List.replicate 3 (-fn.cbrt (d / a))
  else
    let i := (g * g / 4.0 - h).sqrt
    let j := fn.cbrt i
    let k := fn.acos (clampUnit (-(g / (2.0 * i))))
    let m := fn.cos (k / 3.0)
    let n := (3.0 : Float).sqrt * fn.sin (k / 3.0)
    [2.0 * j * m - shift, -j * (m + n) - shift, -j * (m - n) - shift]

/-- The roots of `a * x + b`. -/
def solveLinear (a b : Float) : List Float := [-b / a]

/-- The roots of `a * x ^ 2 + b * x + c`, the one with the positive square root first. -/
def solveQuadratic (a b c : Float) : List Float :=
  let root := (b * b - 4.0 * a * c).sqrt
  [(-b + root) / (2.0 * a), (-b - root) / (2.0 * a)]

/-- The roots of `x ^ 4 + b * x ^ 3 + c * x ^ 2 + d * x + e` by its resolvent cubic polynomial, of
which the roots are snapped.  Without two resolvent roots other than zero there are none. -/
def solveQuartic (fn : Elementary) (policy : SnapPolicy) (b c d e : Float) : List Float :=
  let f := c - 3.0 * b * b / 8.0
  let g := d + pow b 3 / 8.0 - b * c / 2.0
  let h := e - 3.0 * pow b 4 / 256.0 + b * b * (c / 16.0) - b * d / 4.0
  let resolvent :=
    policy.snapAll (solveCubic fn 1.0 (f / 2.0) ((f * f - 4.0 * h) / 16.0) (-(g * g) / 64.0))
  match (resolvent.filter fun y => y != 0.0).map Float.sqrt with
  | p :: q :: _ =>
    let r := -g / (8.0 * p * q)
    let s := b / 4.0
    [p + q + r - s, p - q - r - s, -p + q - r - s, -p - q + r - s]
  | _ => []

/-- Refuses a polynomial of another degree. -/
def checkDegree (p : Poly) (expected : Int) : Except Error Unit :=
  if p.degree.toInt = expected then .ok () else .error (.invalidDegree expected p.degree.toInt)

end ClosedForm

namespace Poly

open ClosedForm

/-- The root of a linear polynomial. -/
def linearRoots (policy : SnapPolicy) (p : Poly) : Except Error (List Float) := do
  checkDegree p 1
  return policy.snapAll (solveLinear (p.coefficient 1) (p.coefficient 0))

/-- The roots of a quadratic polynomial. -/
def quadraticRoots (policy : SnapPolicy) (p : Poly) : Except Error (List Float) := do
  checkDegree p 2
  return policy.snapAll (solveQuadratic (p.coefficient 2) (p.coefficient 1) (p.coefficient 0))

/-- The roots of a cubic polynomial. -/
def cubicRoots (fn : Elementary) (policy : SnapPolicy) (p : Poly) : Except Error (List Float) := do
  checkDegree p 3
  return policy.snapAll <|
    solveCubic fn (p.coefficient 3) (p.coefficient 2) (p.coefficient 1) (p.coefficient 0)

/-- The roots of a quartic polynomial. -/
def quarticRoots (fn : Elementary) (policy : SnapPolicy) (p : Poly) :
    Except Error (List Float) := do
  checkDegree p 4
  let lead := p.leadingCoefficient
  return policy.snapAll <|
    solveQuartic fn policy (p.coefficient 3 / lead) (p.coefficient 2 / lead)
      (p.coefficient 1 / lead) (p.coefficient 0 / lead)

end Poly

end SparsePoly
