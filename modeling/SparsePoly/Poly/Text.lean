import SparsePoly.Poly.Basic

/-!
# The text of a polynomial

The terms are written by descending exponent, joined by their signs, with or without a space on
either side of a sign.  A coefficient has at most twelve significant digits, unless it has more in
front of the point, and never an exponent.  A coefficient that reads `1` is left out before the
unknown, and so are the powers `0` and `1`.  Two polynomials with the same text count as equal.

To be read, a text is cut into chunks at its signs and each chunk is read as a term.  Two minus
signs make a plus, and the minus sign of an exponent does not cut.  The forms of a term are `x`,
`C`, `Cx`, `x^E` and `Cx^E` for finite numerals `C` and `E`, with one minus sign in front of it or
none.  Blanks do not count and neither does the case of a letter.  Reading never fails: a chunk
without the form of a term reads as the zero term, which adds nothing.
-/

namespace SparsePoly

/-! ## Writing a term -/

namespace Term

/-- How many significant digits a coefficient keeps. -/
def significantDigits : Nat := 12

/-- How many decimal places a coefficient of the size `v` keeps. -/
def decimalPlaces (v : Magnitude) : Nat :=
  (significantDigits - 1 - Decimal.leadingExponent v).toNat

/-- The text of a positive size: the nearest number with twelve significant digits, or the nearest
integer if it has more, without the zeros that end its fraction. -/
def sizeText (v : Magnitude) : List Char :=
  Decimal.trimmed (Decimal.nearest v (decimalPlaces v)) (decimalPlaces v)

/-- The text of a coefficient with its sign; a zero has none. -/
def coefficientText (x : Float) : List Char :=
  if !x.isFinite then (Decimal.display x).toList
  else if x == 0.0 then ['0']
  else if Binary64.isNegative x then '-' :: sizeText (Binary64.magnitude x)
  else sizeText (Binary64.magnitude x)

/-- The text of the unknown to a power, for a power that is not zero. -/
def powerText (e : Exponent) : List Char :=
  if e = 1 then ['x'] else 'x' :: '^' :: (toString e.toInt).toList

/-- The text of the term `size * x ^ e` for a coefficient that is not negative. -/
def monomialText (size : Float) (e : Exponent) : List Char :=
  let text := coefficientText size
  if e = 0 then text
  else (if text = ['1'] then [] else text) ++ powerText e

/-- The text of a term without its sign. -/
def unsignedText (t : Term) : List Char := monomialText t.coefficient.abs t.exponent

/-- Whether the term is written with a minus sign. -/
def isNegative (t : Term) : Bool := Binary64.isNegative t.coefficient

/-- The text of a term. -/
def text (t : Term) : String :=
  String.ofList <|
    if t.isZero then ['0']
    else if t.isNegative then '-' :: t.unsignedText
    else t.unsignedText

end Term

/-! ## Writing a polynomial -/

namespace Poly

/-- The sign that joins a term to the ones before it. -/
def joint (negative spaces : Bool) : List Char :=
  let sign := if negative then '-' else '+'
  if spaces then [' ', sign, ' '] else [sign]

/-- The text of the terms that follow the first one. -/
def tailText (spaces : Bool) (ts : List Term) : List Char :=
  ts.flatMap fun t => joint t.isNegative spaces ++ t.unsignedText

/-- The text of a list of terms. -/
def termsText (spaces : Bool) : List Term → List Char
  | [] => ['0']
  | t :: ts => (if t.isNegative then ['-'] else []) ++ t.unsignedText ++ tailText spaces ts

/-- The text of a polynomial. -/
def render (p : Poly) (spaces : Bool) : String := String.ofList (termsText spaces p.terms)

/-- The text with spaces. -/
def text (p : Poly) : String := p.render true

/-- The text without spaces. -/
def compactText (p : Poly) : String := p.render false

/-- The text that marks a polynomial as one. -/
def debugText (p : Poly) : String := "Polynomial(" ++ p.text ++ ")"

/-- Whether two polynomials have the same text. -/
def equals (p q : Poly) : Bool := p.text == q.text

end Poly

/-! ## Reading a term -/

namespace Term

/-- The text without blanks and in lower case.  Letters beyond ASCII keep their case: no form of a
term has one. -/
def clean (cs : List Char) : List Char :=
  (cs.filter fun c => !Text.isBlank c).map Char.toLower

/-- What stands before and after the first `x^`. -/
def splitAtPower? : List Char → Option (List Char × List Char)
  | [] => none
  | c :: cs =>
    match c, cs with
    | 'x', '^' :: rest => some ([], rest)
    | _, _ => (splitAtPower? cs).map fun (before, after) => (c :: before, after)

/-- The coefficient before the unknown, which is one when nothing is written. -/
def readCoefficient? (cs : List Char) : Option Float :=
  if cs = [] then some 1.0 else Decimal.readFinite? cs

/-- The term that a clean text without a sign writes. -/
def ofBody? (body : List Char) : Option Term :=
  match splitAtPower? body with
  | some (coefficient, exponent) => do
    return truncated (← readCoefficient? coefficient) (← Decimal.readFinite? exponent)
  | none =>
    if body.getLast? = some 'x' then (readCoefficient? body.dropLast).map (⟨·, 1⟩)
    else (Decimal.readFinite? body).map (⟨·, 0⟩)

/-- The term that a clean text writes; the zero term if it has no form of a term. -/
def ofChunk : List Char → Term
  | '-' :: body => ((ofBody? body).getD zero).negate
  | body => (ofBody? body).getD zero

/-- The term that a text writes. -/
def parse (s : String) : Term := ofChunk (clean s.toList)

end Term

/-! ## Reading a polynomial -/

namespace Poly

/-- Writes a plus for each pair of minus signs, from left to right. -/
def mergeSigns : List Char → List Char
  | '-' :: '-' :: cs => '+' :: mergeSigns cs
  | c :: cs => c :: mergeSigns cs
  | [] => []

/-- Puts a plus before each minus sign that does not follow a `^`. -/
def separate (previous : Option Char) : List Char → List Char
  | [] => []
  | c :: cs =>
    if c = '-' ∧ previous ≠ some '^' then '+' :: c :: separate (some c) cs
    else c :: separate (some c) cs

/-- The chunks of a clean text, each with its minus sign. -/
def chunks (cs : List Char) : List (List Char) := (separate none (mergeSigns cs)).splitOn '+'

/-- The polynomial that a text writes. -/
def parse (s : String) : Poly := ofTerms ((chunks (Term.clean s.toList)).map Term.ofChunk)

end Poly

end SparsePoly
