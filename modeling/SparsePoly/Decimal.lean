import SparsePoly.Binary64

/-!
# Decimal text

A natural number `n` with `places` decimal places stands for `n / 10 ^ places`.  It is written in
full or without the zeros that end its fraction, and every magnitude has a nearest such number.

Every double is the nearest one to all the reals of an interval around it.  Its shortest text has
the fewest digits that name a real of this interval, and among those the digits of the nearest real.

A numeral is read as an optional sign followed by digits with at most one point among or beside them
and an optional exponent, or by one of the words `inf`, `infinity` and `nan` in any case.  Its value
is the double nearest to the number it writes.  Blanks are the characters that Unicode gives the
property `White_Space`.
-/

namespace SparsePoly.Decimal

/-! ## Positional text -/

/-- The decimal digits of `n`, the highest first. -/
def digits (n : Nat) : List Char := Nat.toDigits 10 n

/-- The digits of `n`, with zeros in front up to `width` digits. -/
def padded (width n : Nat) : List Char :=
  List.replicate (width - (digits n).length) '0' ++ digits n

/-- `n / 10 ^ places` with all its decimal places. -/
def positional (n places : Nat) : List Char :=
  if places = 0 then digits n
  else
    let unit := Nat.pow 10 places
    digits (n / unit) ++ '.' :: padded places (n % unit)

/-- `n / 10 ^ places` without the zeros that would end the fraction. -/
def trimmed (n : Nat) : Nat → List Char
  | 0 => digits n
  | places + 1 =>
    if n % 10 = 0 then trimmed (n / 10) places else positional n (places + 1)

/-- The natural number nearest to `num / den`, the even one of two. -/
def roundHalfEven (num den : Nat) : Nat :=
  let quotient := num / den
  let rest := num % den
  if 2 * rest < den ∨ 2 * rest = den ∧ quotient % 2 = 0 then quotient else quotient + 1

/-- The natural number nearest to `v * 10 ^ places`. -/
def nearest (v : Magnitude) (places : Int) : Nat :=
  let (num, den) := v.scaled places
  roundHalfEven num den

/-- The exponent of the highest power of ten that is at most `v`, for a positive `v`. -/
def leadingExponent (v : Magnitude) : Int :=
  let (num, den) := v.scaled 0
  if den ≤ num then (digits (num / den)).length - 1
  else -(digits ((den - 1) / num)).length

/-! ## The shortest text of a double -/

/-- A positive double in quarters of its last place, with the ends of the interval it stands for. -/
structure Neighborhood where
  /-- The lower end. -/
  lower : Nat
  /-- The double. -/
  center : Nat
  /-- The upper end. -/
  upper : Nat
  /-- Whether the ends belong to the interval, which holds when the mantissa is even. -/
  closed : Bool
  /-- The power of two that a quarter of the last place is. -/
  exponent : Int

namespace Neighborhood

/-- The neighborhood of a positive double.  Below a power of two the doubles lie twice as close,
except below the least normal one. -/
def of (v : Magnitude) : Neighborhood where
  lower := 4 * v.mantissa - if v.mantissa = 1 <<< 52 ∧ -1074 < v.exponent then 1 else 2
  center := 4 * v.mantissa
  upper := 4 * v.mantissa + 2
  closed := v.mantissa % 2 = 0
  exponent := v.exponent - 2

/-- The quotient of `quarters` and `10 ^ place` as two natural numbers. -/
def ratio (b : Neighborhood) (quarters : Nat) (place : Int) : Nat × Nat :=
  Magnitude.scaled ⟨quarters, b.exponent⟩ (-place)

/-- Whether `n * 10 ^ place` lies in the interval. -/
def holds (b : Neighborhood) (n : Nat) (place : Int) : Bool :=
  let (lower, den) := b.ratio b.lower place
  let (upper, _) := b.ratio b.upper place
  if b.closed then lower ≤ n * den ∧ n * den ≤ upper else lower < n * den ∧ n * den < upper

/-- The multiple of `10 ^ place` in the interval that is nearest to the double, the upper of two. -/
def onGrid? (b : Neighborhood) (place : Int) : Option Nat :=
  let (num, den) := b.ratio b.center place
  let n := num / den
  match b.holds n place, b.holds (n + 1) place with
  | true, true => some (if 2 * (num % den) < den then n else n + 1)
  | true, false => some n
  | false, true => some (n + 1)
  | false, false => none

end Neighborhood

/-- The fewest digits for `v`: a number and the power of ten that it counts.  Seventeen digits
always suffice. -/
def shortest (v : Magnitude) : Nat × Int :=
  let b := Neighborhood.of v
  let top := leadingExponent v
  let found := (List.range 17).findSome? fun (k : Nat) =>
    (b.onGrid? (top - k)).map fun n => (n, top - k)
  found.getD (nearest v (16 - top), top - 16)

/-- The text of a double without an exponent: the fewest digits that read back as the double. -/
def display (x : Float) : String :=
  if x.isNaN then "NaN"
  else
    let sign := if Binary64.isNegative x then ['-'] else []
    let size :=
      if x.isInf then ['i', 'n', 'f']
      else if x == 0.0 then ['0']
      else
        let (n, place) := shortest (Binary64.magnitude x)
        trimmed (n * Nat.pow 10 place.toNat) (-place).toNat
    String.ofList (sign ++ size)

/-! ## Reading numerals -/

/-- The natural number that a list of digits writes. -/
def ofDigits (cs : List Char) : Nat := Nat.ofDigitChars 10 cs 0

/-- The double nearest to `n * 10 ^ place`. -/
def ofScaled (n : Nat) (place : Int) : Float :=
  if 0 ≤ place then Float.ofScientific n false place.toNat
  else Float.ofScientific n true (-place).toNat

/-- Digits and nothing else, at least one of them. -/
def readDigits? (cs : List Char) : Option Nat :=
  if cs ≠ [] ∧ cs.all Char.isDigit then some (ofDigits cs) else none

/-- What may follow the digits of a numeral: nothing, or an exponent with an optional sign. -/
def readExponent? : List Char → Option Int
  | [] => some 0
  | c :: cs =>
    if c = 'e' ∨ c = 'E' then
      match cs with
      | '-' :: ds => (readDigits? ds).map fun n => -(n : Int)
      | '+' :: ds => (readDigits? ds).map Int.ofNat
      | ds => (readDigits? ds).map Int.ofNat
    else none

/-- Digits, a point and an exponent, without a sign in front. -/
def readDecimal? (cs : List Char) : Option Float :=
  let whole := cs.takeWhile Char.isDigit
  let (fraction, rest) :=
    match cs.dropWhile Char.isDigit with
    | '.' :: ds => (ds.takeWhile Char.isDigit, ds.dropWhile Char.isDigit)
    | ds => ([], ds)
  if whole = [] ∧ fraction = [] then none
  else (readExponent? rest).map fun place =>
    ofScaled (ofDigits (whole ++ fraction)) (place - fraction.length)

/-- A numeral without a sign. -/
def readUnsigned? (cs : List Char) : Option Float :=
  match cs.map Char.toLower with
  | ['i', 'n', 'f'] | ['i', 'n', 'f', 'i', 'n', 'i', 't', 'y'] => some Binary64.infinity
  | ['n', 'a', 'n'] => some Binary64.nan
  | _ => readDecimal? cs

/-- The double that a numeral writes, and nothing for any other text. -/
def readNumeral? : List Char → Option Float
  | '-' :: cs => (readUnsigned? cs).map (- ·)
  | '+' :: cs => readUnsigned? cs
  | cs => readUnsigned? cs

/-- As `readNumeral?`, for numerals of finite doubles only. -/
def readFinite? (cs : List Char) : Option Float := (readNumeral? cs).filter Float.isFinite

end SparsePoly.Decimal

/-! ## Blank characters -/

namespace SparsePoly.Text

/-- Unicode's property `White_Space`. -/
def isBlank (c : Char) : Bool :=
  let n := c.toNat
  (9 ≤ n && n ≤ 13) || n == 0x20 || n == 0x85 || n == 0xA0 || n == 0x1680
    || (0x2000 ≤ n && n ≤ 0x200A) || n == 0x2028 || n == 0x2029 || n == 0x202F || n == 0x205F
    || n == 0x3000

/-- The text without blanks at either end. -/
def trim (cs : List Char) : List Char :=
  ((cs.dropWhile isBlank).reverse.dropWhile isBlank).reverse

end SparsePoly.Text
