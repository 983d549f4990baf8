import SparsePoly.Error

/-!
# Terms

A term is a coefficient times a power of the unknown.  Exponents are 32-bit signed integers.  Sums
and differences that leave their range are errors, and a real exponent becomes the nearest one
toward zero that the range has.
-/

namespace SparsePoly

/-! ## Exponents -/

/-- The exponent of a term. -/
abbrev Exponent := Int32

namespace Exponent

open Float.Model

/-- The exponent with the value `n`, if it is in range. -/
def ofInt? (n : Int) : Option Exponent :=
  if Int32.minValue.toInt ≤ n ∧ n ≤ Int32.maxValue.toInt then some (Int32.ofInt n) else none

/-- The sum of two exponents. -/
def plus (a b : Exponent) : Except Error Exponent :=
  match ofInt? (a.toInt + b.toInt) with
  | some e => .ok e
  | none => .error (.exponentOverflow .addition)

/-- The difference of two exponents. -/
def minus (a b : Exponent) : Except Error Exponent :=
  match ofInt? (a.toInt - b.toInt) with
  | some e => .ok e
  | none => .error (.exponentOverflow .subtraction)

/-- The real exponent `x` without its fraction, moved into range; a NaN becomes zero. -/
def truncated (x : Float) : Exponent :=
  match x.toModel.unpack with
  | .notANumber | .zero _ => 0
  | .infinity .positive => Int32.maxValue
  | .infinity .negative => Int32.minValue
  | .finite s m e _ => Int32.ofIntClamp (s.apply (Magnitude.floor ⟨m, e⟩))

/-- The double with the value of the exponent. -/
def toDouble (e : Exponent) : Float := Float.ofInt e.toInt

/-! ## When a sum or a difference is in range -/

/-- Every exponent is the one with its own value, and no integer out of range has one. -/
theorem ofInt?_eq_some_iff {n : Int} {e : Exponent} : ofInt? n = some e ↔ e.toInt = n := by
  unfold ofInt?
  split
  · next h =>
    have h₁ : -2147483648 ≤ n := h.1
    have h₂ : n ≤ 2147483647 := h.2
    rw [Option.some.injEq, ← Int32.toInt_inj, Int32.toInt_ofInt_of_le (by omega) (by omega),
      eq_comm]
  · next h =>
    have h₁ := e.minValue_le_toInt
    have h₂ := e.toInt_le
    simp only [reduceCtorEq, false_iff]
    rintro rfl
    exact h ⟨h₁, h₂⟩

/-- A sum succeeds exactly when an exponent has the value of the sum. -/
theorem plus_eq_ok_iff {a b e : Exponent} : plus a b = .ok e ↔ e.toInt = a.toInt + b.toInt := by
  rw [← ofInt?_eq_some_iff]
  unfold plus
  split <;> simp_all

/-- A difference succeeds exactly when an exponent has the value of the difference. -/
theorem minus_eq_ok_iff {a b e : Exponent} : minus a b = .ok e ↔ e.toInt = a.toInt - b.toInt := by
  rw [← ofInt?_eq_some_iff]
  unfold minus
  split <;> simp_all

/-- A sum that no exponent has as its value is out of range. -/
theorem plus_eq_error {a b : Exponent} (h : ¬ ∃ e : Exponent, e.toInt = a.toInt + b.toInt) :
    plus a b = .error (.exponentOverflow .addition) := by
  unfold plus
  split
  · next e he => exact absurd ⟨e, ofInt?_eq_some_iff.1 he⟩ h
  · rfl

/-- A difference that no exponent has as its value is out of range. -/
theorem minus_eq_error {a b : Exponent} (h : ¬ ∃ e : Exponent, e.toInt = a.toInt - b.toInt) :
    minus a b = .error (.exponentOverflow .subtraction) := by
  unfold minus
  split
  · next e he => exact absurd ⟨e, ofInt?_eq_some_iff.1 he⟩ h
  · rfl

end Exponent

/-! ## Terms -/

/-- The term `coefficient * x ^ exponent`. -/
structure Term where
  /-- The factor in front of the power. -/
  coefficient : Float
  /-- The power of the unknown. -/
  exponent : Exponent
  deriving DecidableEq

namespace Term

/-- The term `0 * x ^ 0`, which stands for a term that is not there. -/
def zero : Term := ⟨0.0, 0⟩

/-- The term with a real exponent, of which the fraction is dropped. -/
def truncated (coefficient exponent : Float) : Term :=
  ⟨coefficient, Exponent.truncated exponent⟩

/-- Whether the coefficient is a zero of either sign. -/
def isZero (t : Term) : Bool := t.coefficient == 0.0

/-- The term with the opposite coefficient. -/
def negate (t : Term) : Term := { t with coefficient := -t.coefficient }

/-- The term with its coefficient multiplied by `k`. -/
def scale (t : Term) (k : Float) : Term := { t with coefficient := t.coefficient * k }

/-- The value of the term at `x`. -/
def eval (t : Term) (x : Float) : Float := t.coefficient * Binary64.pow x t.exponent.toInt

end Term

end SparsePoly
