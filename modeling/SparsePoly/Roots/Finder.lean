import SparsePoly.Calculus
import SparsePoly.Roots.ClosedForm

/-!
# Finding real roots

Polynomials up to degree four are solved in closed form.  For a higher degree the roots of the
derivative divide the line into pieces; a guess in each piece is refined, and the roots that differ
by more than the policy's distance are kept.  A refiner turns a guess into a root of a function with
a known derivative.  Newton's method follows the tangent to its zero until a step is short.

A critical point is an extremum if the derivative changes its sign there, and a root of the second
derivative is an inflection point if the second derivative does.  Signs are taken a short distance
to either side.
-/

namespace SparsePoly

/-! ## Newton's method -/

/-- Turns a guess into a root of the function `f` with the derivative `df`, or fails. -/
abbrev Refiner := (f df : Float → Float) → (guess : Float) → Except Error Float

/-- When Newton's method stops. -/
structure Newton where
  /-- A step shorter than this is the last one, relative to `max 1 |x|`. -/
  tolerance : Float
  /-- The number of steps after which the method gives up. -/
  maxIterations : Nat
  deriving DecidableEq

namespace Newton

/-- The stopping rule that serves unless another one is asked for. -/
def standard : Newton := ⟨1e-12, 100⟩

/-- The steps that are left from `x` on.  A zero of `f` is the root, a zero of `df` is an error, and
the next point is the zero of the tangent. -/
def iterate (n : Newton) (f df : Float → Float) (guess : Float) :
    (left : Nat) → (x : Float) → Except Error Float
  | 0, _ => .error (.noConvergence guess n.maxIterations)
  | left + 1, x =>
    let fx := f x
    if fx == 0.0 then .ok x
    else
      let dfx := df x
      if dfx == 0.0 then .error (.zeroDerivative x)
      else
        let next := x - fx / dfx
        if !next.isFinite then .error (.noConvergence guess n.maxIterations)
        else if (next - x).abs < n.tolerance * Binary64.scaleOf x then .ok next
        else iterate n f df guess left next

/-- Newton's method from a guess. -/
def refine (n : Newton) : Refiner := fun f df guess => n.iterate f df guess n.maxIterations guess

end Newton

/-! ## The search -/

/-- What the search for roots depends on. -/
structure RootFinder where
  /-- How a guess is refined. -/
  refine : Refiner
  /-- How results are snapped, and how far apart two roots must be. -/
  policy : SnapPolicy
  /-- The functions of the closed forms. -/
  functions : Elementary

namespace RootFinder

/-- The distance of the outer guesses from the outer critical points. -/
def guessOffset : Float := 0.1

/-- The points half way between neighbours. -/
def midpoints : List Float → List Float
  | a :: b :: rest => (a + b) / 2.0 :: midpoints (b :: rest)
  | _ => []

/-- One guess to the left of the critical points, one between each pair of neighbours and one to the
right; without finite critical points, zero alone. -/
def bracketGuesses (critical : List Float) : List Float :=
  let points := Binary64.sorted (critical.filter Float.isFinite)
  match points.head?, points.getLast? with
  | some first, some last =>
    (first - guessOffset) :: (midpoints points ++ [last + guessOffset])
  | _, _ => [0.0]

/-- The list with a root at its end, if the root is farther than `epsilon` from all others. -/
def addDistinct (epsilon : Float) (found : List Float) (root : Float) : List Float :=
  if found.all fun r => epsilon < (r - root).abs then found ++ [root] else found

/-- The distinct roots that the guesses lead to, in the order of the guesses. -/
def refineAll (finder : RootFinder) (p slope : Poly) (guesses : List Float) : List Float :=
  let refine := finder.refine p.toFunction slope.toFunction
  guesses.foldl
    (fun found guess =>
      match refine guess with
      | .ok root => addDistinct finder.policy.epsilon found (finder.policy.snap root)
      | .error _ => found)
    []

/-- The roots of a polynomial of degree `d`.  The derivative has the degree below. -/
def rootsOfDegree (finder : RootFinder) : (d : Nat) → Poly → Except Error (List Float)
  | 0, _ => .ok []
  | 1, p => p.linearRoots finder.policy
  | 2, p => p.quadraticRoots finder.policy
  | 3, p => p.cubicRoots finder.functions finder.policy
  | 4, p => p.quarticRoots finder.functions finder.policy
  | d + 5, p => do
    let slope ← p.derivative
    let critical ← finder.rootsOfDegree (d + 4) slope
    return finder.refineAll p slope (bracketGuesses critical)

/-- The roots of a polynomial; there are none below degree one. -/
def roots (finder : RootFinder) (p : Poly) : Except Error (List Float) :=
  finder.rootsOfDegree p.degree.toInt.toNat p

/-- The roots of a polynomial.  From degree five on they are refined from the given guesses, if
there are any. -/
def rootsFrom (finder : RootFinder) (p : Poly) (guesses : List Float) :
    Except Error (List Float) :=
  if guesses.isEmpty || p.degree.toInt < 5 then finder.roots p
  else do return finder.refineAll p (← p.derivative) guesses

/-- The roots of the derivative. -/
def criticalPoints (finder : RootFinder) (p : Poly) : Except Error (List Float) := do
  finder.roots (← p.derivative)

end RootFinder

/-! ## Extrema and inflection points -/

namespace RootFinder

/-- The distance at which a sign is taken. -/
def probeDistance : Float := 0.1

/-- The roots of `p` at which the values of `p` on the left and on the right are as asked. -/
def rootsWhere (finder : RootFinder) (p : Poly) (asked : (left right : Float) → Bool) :
    Except Error (List Float) := do
  let candidates ← finder.roots p
  return candidates.filter fun x => asked (p.eval (x - probeDistance)) (p.eval (x + probeDistance))

/-- The points of a list that respect the bounds that are given. -/
def within (lower upper : Option Float) (xs : List Float) : List Float :=
  xs.filter fun x => lower.all (· ≤ x) && upper.all (x ≤ ·)

/-- The points within the bounds at which a polynomial with the derivative `slope` is highest among
its neighbours. -/
def maxima (finder : RootFinder) (slope : Poly) (lower upper : Option Float) :
    Except Error (List Float) :=
  within lower upper <$> finder.rootsWhere slope fun left right => 0.0 < left && right < 0.0

/-- The points within the bounds at which a polynomial with the derivative `slope` is lowest among
its neighbours. -/
def minima (finder : RootFinder) (slope : Poly) (lower upper : Option Float) :
    Except Error (List Float) :=
  within lower upper <$> finder.rootsWhere slope fun left right => left < 0.0 && 0.0 < right

/-- The points at which a polynomial with the second derivative `bend` changes its bend. -/
def inflections (finder : RootFinder) (bend : Poly) : Except Error (List Float) :=
  finder.rootsWhere bend fun left right => left * right < 0.0

end RootFinder

end SparsePoly
