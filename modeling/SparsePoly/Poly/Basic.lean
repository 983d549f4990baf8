import SparsePoly.Term

/-!
# Polynomials

A polynomial collects terms in any order and brings them into normal form when it is looked at.
Beside the terms it keeps what is known about their order, so that terms that arrive by descending
exponent are never sorted.

The normal form lists the exponents in strictly descending order.  Like terms are added from left to
right in the order in which they were appended, and a sum that is zero is dropped.
-/

namespace SparsePoly

/-! ## Lists of terms -/

namespace Term

/-- The terms by descending exponent; like terms keep their order. -/
def sortDescending (ts : List Term) : List Term :=
  ts.mergeSort fun a b => b.exponent ≤ a.exponent

/-- A term in front of a list, unless its coefficient is zero. -/
def keep (t : Term) (ts : List Term) : List Term := if t.isZero then ts else t :: ts

/-- Adds the terms that follow `run` with its exponent to `run`, and combines the others. -/
def combineRun (run : Term) : List Term → List Term
  | [] => keep run []
  | t :: ts =>
    if t.exponent = run.exponent then
      combineRun { run with coefficient := run.coefficient + t.coefficient } ts
    else keep run (combineRun t ts)

/-- Adds neighbouring like terms from left to right and drops the sums that are zero. -/
def combine : List Term → List Term
  | [] => []
  | t :: ts => combineRun t ts

end Term

/-! ## The type -/

/-- What is known about the exponents of the stored terms. -/
inductive Order
  /-- They may come in any order. -/
  | arbitrary
  /-- They do not ascend; like terms stand together. -/
  | descending
  /-- They descend strictly. -/
  | strict
  deriving DecidableEq

/-- What is known after a term with exponent `e` has been appended to terms of which `last` is the
last exponent. -/
def Order.after (known : Order) (last : Option Exponent) (e : Exponent) : Order :=
  match last with
  | none => .strict
  | some last =>
    if known = .strict ∧ e < last then .strict
    else if known ≠ .arbitrary ∧ e ≤ last then .descending
    else .arbitrary

/-- A polynomial in one unknown with integer exponents. -/
structure Poly where
  /-- The terms as they were appended. -/
  stored : Array Term
  /-- What is known about their order. -/
  order : Order
  deriving DecidableEq

namespace Poly

/-- The zero polynomial. -/
def zero : Poly := ⟨#[], .strict⟩

/-- Appends a term; a zero term leaves the polynomial as it is. -/
def append (p : Poly) (t : Term) : Poly :=
  if t.isZero then p
  else
    let order := p.order.after (p.stored.back?.map Term.exponent) t.exponent
    ⟨p.stored.push t, order⟩

/-- Appends the terms of a list one after the other. -/
def extend (p : Poly) (ts : List Term) : Poly := ts.foldl append p

/-- The polynomial with the given terms. -/
def ofTerms (ts : List Term) : Poly := zero.extend ts

/-- The polynomial with one term. -/
def monomial (c : Float) (e : Exponent) : Poly := ofTerms [⟨c, e⟩]

/-- The constant polynomial. -/
def constant (c : Float) : Poly := monomial c 0

/-- The constant polynomial `1`. -/
def one : Poly := constant 1.0

/-- The polynomial `x`. -/
def x : Poly := monomial 1.0 1

/-- A zero term is not stored. -/
theorem append_of_isZero {p : Poly} {t : Term} (h : t.isZero) : p.append t = p := by
  simp [append, h]

/-- Any other term is stored behind the others. -/
theorem toList_stored_append {p : Poly} {t : Term} (h : t.isZero = false) :
    (p.append t).stored.toList = p.stored.toList ++ [t] := by
  simp [append, h]

@[simp] theorem extend_nil (p : Poly) : p.extend [] = p := rfl

@[simp] theorem extend_cons (p : Poly) (t : Term) (ts : List Term) :
    p.extend (t :: ts) = (p.append t).extend ts := rfl

theorem extend_append (p : Poly) (ts us : List Term) :
    p.extend (ts ++ us) = (p.extend ts).extend us := List.foldl_append

/-! ## Looking at a polynomial -/

/-- The terms in normal form, the highest exponent first. -/
def terms (p : Poly) : List Term :=
  match p.order with
  | .strict => p.stored.toList
  | .descending => Term.combine p.stored.toList
  | .arbitrary => Term.combine (Term.sortDescending p.stored.toList)

/-- The polynomial as it is stored once it has been looked at. -/
def settle (p : Poly) : Poly := ⟨p.terms.toArray, .strict⟩

/-- Looking at a polynomial does not change what is seen. -/
@[simp] theorem terms_settle (p : Poly) : p.settle.terms = p.terms := by
  simp [settle, terms]

/-- The number of terms. -/
def size (p : Poly) : Nat := p.terms.length

/-- The term at position `n`, if there is one. -/
def term? (p : Poly) (n : Nat) : Option Term := p.terms[n]?

/-- The term at position `n`, or the zero term behind the last one. -/
def term (p : Poly) (n : Nat) : Term := (p.term? n).getD .zero

/-- The term with the highest exponent, if there is one. -/
def leadingTerm? (p : Poly) : Option Term := p.terms.head?

/-- The coefficient of the highest exponent; zero for the zero polynomial. -/
def leadingCoefficient (p : Poly) : Float := p.leadingTerm?.elim 0.0 Term.coefficient

/-- The highest exponent; zero for the zero polynomial. -/
def degree (p : Poly) : Exponent := p.leadingTerm?.elim 0 Term.exponent

theorem leadingCoefficient_eq_of_leadingTerm {p : Poly} {t : Term} (h : p.leadingTerm? = some t) :
    p.leadingCoefficient = t.coefficient := by
  rw [leadingCoefficient, h, Option.elim_some]

theorem degree_eq_of_leadingTerm {p : Poly} {t : Term} (h : p.leadingTerm? = some t) :
    p.degree = t.exponent := by
  rw [degree, h, Option.elim_some]

/-- The coefficient of `x ^ e`; zero if there is no such term. -/
def coefficient (p : Poly) (e : Exponent) : Float :=
  (p.terms.find? (·.exponent = e)).elim 0.0 Term.coefficient

/-- The coefficient of `x ^ 0`. -/
def constantTerm (p : Poly) : Float := p.coefficient 0

/-- Whether there are no terms. -/
def isZero (p : Poly) : Bool := p.terms.isEmpty

/-- Whether there is no term in `x`. -/
def isConstant (p : Poly) : Bool :=
  match p.terms with
  | [] => true
  | [t] => t.exponent = 0
  | _ => false

end Poly

/-! ## The name of a degree -/

/-- The usual name of a degree. -/
inductive DegreeName
  | constant | linear | quadratic | cubic | quartic
  /-- Any other degree, a negative one included. -/
  | unknown
  deriving DecidableEq

namespace DegreeName

/-- The name of a degree. -/
def ofDegree (d : Exponent) : DegreeName :=
  match d.toInt with
  | 0 => constant
  | 1 => linear
  | 2 => quadratic
  | 3 => cubic
  | 4 => quartic
  | _ => unknown

/-- The word for a degree. -/
def word : DegreeName → String
  | constant => "constant"
  | linear => "linear"
  | quadratic => "quadratic"
  | cubic => "cubic"
  | quartic => "quartic"
  | unknown => "unknown"

end DegreeName

/-- The name of the degree of a polynomial. -/
def Poly.degreeName (p : Poly) : DegreeName := DegreeName.ofDegree p.degree

end SparsePoly
