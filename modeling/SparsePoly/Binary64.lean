/-!
# Doubles

A finite double is a sign and a natural number times a power of two.  Everything here that needs
exact arithmetic (decimal text, rounding to integers) starts from that reading.  Of the operations,
those are defined that are not single instructions: rounding to the nearest integer, integral powers
by repeated squaring, sums from the left, and the total order of the finite doubles.
-/

namespace SparsePoly

/-! ## Magnitudes -/

/-- The number `mantissa * 2 ^ exponent`. -/
structure Magnitude where
  /-- The integral factor. -/
  mantissa : Nat
  /-- The power of two. -/
  exponent : Int
  deriving DecidableEq

namespace Magnitude

/-- Two natural numbers whose quotient is the magnitude times `10 ^ places`. -/
def scaled (v : Magnitude) (places : Int) : Nat × Nat :=
  ((v.mantissa <<< v.exponent.toNat) * Nat.pow 10 places.toNat,
    (1 <<< (-v.exponent).toNat) * Nat.pow 10 (-places).toNat)

/-- The integral part of the magnitude. -/
def floor (v : Magnitude) : Nat :=
  (v.mantissa <<< v.exponent.toNat) >>> (-v.exponent).toNat

end Magnitude

namespace Binary64

open Float.Model

/-! ## Signs, sizes and special values -/

/-- The sign bit; a NaN counts as positive. -/
def isNegative (x : Float) : Bool :=
  match x.toModel.unpack with
  | .notANumber => false
  | .infinity s | .zero s | .finite s _ _ _ => s == .negative

/-- The exact size of a finite double; an infinity or a NaN has size zero. -/
def magnitude (x : Float) : Magnitude :=
  match x.toModel.unpack with
  | .finite _ m e _ => ⟨m, e⟩
  | _ => ⟨0, 0⟩

/-- The double of size `x` with the given sign. -/
def withSign (negative : Bool) (x : Float) : Float := if negative then -x else x

/-- Positive infinity. -/
def infinity : Float := 1.0 / 0.0

/-- The value that is not a number. -/
def nan : Float := 0.0 / 0.0

/-! ## Operations -/

/-- The integer nearest to `x`, a half going away from zero; infinities and NaN stay as they are. -/
def roundHalfAway (x : Float) : Float :=
  match x.toModel.unpack with
  | .finite s m e _ =>
    if 0 ≤ e then x
    else
      let unit := 1 <<< (-e).toNat
      withSign (s == .negative) (Float.ofNat ((m + unit / 2) / unit))
  | _ => x

/-- Repeated squaring: `result * base ^ k`, the lowest bit of `k` first, where `bits` is the
position of the highest one. -/
def powBits : (bits : Nat) → (result base : Float) → (k : Nat) → Float
  | 0, result, base, k => if k % 2 = 1 then result * base else result
  | bits + 1, result, base, k =>
    powBits bits (if k % 2 = 1 then result * base else result) (base * base) (k / 2)

/-- The power `x ^ n`, the reciprocal of the power by `-n` when `n` is negative. -/
def pow (x : Float) (n : Int) : Float :=
  let power := powBits n.natAbs.log2 1.0 x n.natAbs
  if n < 0 then 1.0 / power else power

/-- The sum from left to right.  The empty sum is the neutral element `-0`. -/
def sum (xs : List Float) : Float := xs.foldl (· + ·) (-0.0)

/-- The larger of `|x|` and `1`. -/
def scaleOf (x : Float) : Float := if 1.0 < x.abs then x.abs else 1.0

/-- `x` moved into `[-1, 1]`; a NaN stays a NaN. -/
def clampUnit (x : Float) : Float :=
  if x < -1.0 then -1.0 else if 1.0 < x then 1.0 else x

/-- The position of a double in the total order of bit patterns, where `-0` lies below `0`. -/
def orderKey (x : Float) : Int :=
  let size : Int := x.abs.toBits.toNat
  if isNegative x then -1 - size else size

/-- The list in non-decreasing order. -/
def sorted (xs : List Float) : List Float := xs.mergeSort fun a b => orderKey a ≤ orderKey b

end Binary64

end SparsePoly
