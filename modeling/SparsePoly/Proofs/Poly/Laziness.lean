import Mathlib
import SparsePoly.Poly.Text
import SparsePoly.Proofs.Poly.Valid

/-!
# Looking between the appends

A polynomial is brought into normal form whenever it is looked at, so what is stored depends on who
looked and when.  What is seen does not: after any run of appends and observations the terms are the
normal form of all the terms that were appended (`terms_run`).
-/

open SparsePoly.Term

namespace SparsePoly.Poly

/-! ## Observers -/

/-- A way of looking at a polynomial. -/
inductive Observer
  | terms | size | degree
  | term (n : Nat)
  | render (spaces : Bool)
  | equals (q : Poly)
  /-- The copy is looked at in place of the polynomial, which stays as it is. -/
  | clone

/-- What an observer sees. -/
inductive Answer
  | terms (ts : List Term)
  | size (n : Nat)
  | degree (e : Exponent)
  | term (t : Term)
  | text (s : String)
  | truth (b : Bool)

/-- What an observer sees, and the polynomial as it leaves it. -/
def Observer.look (p : Poly) : Observer → Answer × Poly
  | .terms => (.terms p.terms, p.settle)
  | .size => (.size p.size, p.settle)
  | .degree => (.degree p.degree, p.settle)
  | .term n => (.term (p.term n), p.settle)
  | .render spaces => (.text (p.render spaces), p.settle)
  | .equals q => (.truth (p.equals q), p.settle)
  | .clone => (.terms p.terms, p)

/-- What an observer sees depends on the terms only. -/
theorem Observer.look_congr {p q : Poly} (h : p.terms = q.terms) (o : Observer) :
    (o.look p).1 = (o.look q).1 := by
  cases o <;> simp [look, Poly.size, Poly.degree, leadingTerm?, Poly.term, term?, Poly.render,
    Poly.equals, text, h]

theorem Represents.look {p : Poly} {ts : List Term} (h : p.Represents ts) (o : Observer) :
    (o.look p).2.Represents ts := by
  cases o
  case clone => exact h
  all_goals exact h.settle

/-! ## Runs -/

/-- One action on a polynomial. -/
inductive Action
  | append (t : Term)
  | extend (ts : List Term)
  | observe (o : Observer)

/-- The terms that an action appends. -/
def Action.appended : Action → List Term
  | .append t => [t]
  | .extend ts => ts
  | .observe _ => []

/-- The polynomial after an action. -/
def Action.step (p : Poly) : Action → Poly
  | .append t => p.append t
  | .extend ts => p.extend ts
  | .observe o => (o.look p).2

/-- The polynomial after a list of actions. -/
def run (p : Poly) (actions : List Action) : Poly := actions.foldl Action.step p

/-- The terms that a list of actions appends. -/
def appended (actions : List Action) : List Term := actions.flatMap Action.appended

theorem Represents.step {p : Poly} {ts : List Term} (h : p.Represents ts) (a : Action) :
    (a.step p).Represents (ts ++ a.appended) := by
  cases a with
  | append t => exact h.append t
  | extend us => exact h.extend
  | observe o =>
    rw [Action.appended, List.append_nil]
    exact h.look o

theorem Represents.run {p : Poly} {ts : List Term} (h : p.Represents ts) (actions : List Action) :
    (p.run actions).Represents (ts ++ appended actions) := by
  induction actions generalizing p ts with
  | nil => simpa [appended, Poly.run] using h
  | cons a actions ih => simpa [appended, Poly.run] using ih (h.step a)

/-- However appends and observations are interleaved, the terms that are seen are the normal form of
the terms that were appended, and every observer sees what it would see had nobody looked before. -/
theorem terms_run (start : List Term) (actions : List Action) :
    ((ofTerms start).run actions).terms = normalForm (start ++ appended actions) ∧
      ∀ o : Observer, (o.look ((ofTerms start).run actions)).1 =
        (o.look (ofTerms (start ++ appended actions))).1 := by
  have h : ((ofTerms start).run actions).terms = normalForm (start ++ appended actions) :=
    ((represents_ofTerms start).run actions).terms_eq
  refine ⟨h, Observer.look_congr ?_⟩
  rw [h, (represents_ofTerms _).terms_eq]

end SparsePoly.Poly
