import Mathlib
import SparsePoly.Operand
import SparsePoly.Proofs.Poly.Descent
import SparsePoly.Proofs.Poly.Reachable
import SparsePoly.Proofs.Roots.Count
import SparsePoly.Proofs.SnapPolicy.WriteOnce

/-!
# The errors of operations on operands

A request applies an operation of the library to operands.  What it answers depends on the process
by the policy in effect alone (`Request.answer_eq`).  Operands are read from left to right, so that
the first one that does not read as a polynomial is reported; then a division by zero is refused;
and all that can still go wrong is the overflow of an exponent (`Completes`), in the search for
roots of any degree too.  `Contract` says so of one answer, and holds of all of them
(`Request.answer_contract`).
-/

namespace SparsePoly

variable {α β : Type}

/-! ## Computations that overflow at most -/

/-- There is a result unless an exponent overflows. -/
def Completes (x : Except Error α) : Prop := ¬ Overflows x → ∃ a, x = .ok a

namespace Completes

variable {x : Except Error α}

theorem ok (a : α) : Completes (.ok a : Except Error α) := fun _ => ⟨a, rfl⟩

theorem overflow (operation : Overflow) :
    Completes (.error (.exponentOverflow operation) : Except Error α) :=
  fun h => absurd ⟨operation, rfl⟩ h

theorem bind {f : α → Except Error β} (h : Completes x) (hf : ∀ a, x = .ok a → Completes (f a)) :
    Completes (x >>= f) := by
  cases x with
  | ok a => exact hf a rfl
  | error e =>
    intro hx
    obtain ⟨a, ha⟩ := h fun ⟨operation, ho⟩ => hx ⟨operation, by rw [ho]; rfl⟩
    cases ha

theorem map (h : Completes x) (f : α → β) : Completes (f <$> x) := by
  cases x with
  | ok a => exact ok (f a)
  | error e => exact h.bind (f := fun a => .ok (f a)) fun a _ => ok (f a)

theorem mapM {f : α → Except Error β} {l : List α} (h : ∀ a ∈ l, Completes (f a)) :
    Completes (l.mapM f) := by
  induction l with
  | nil => exact ok []
  | cons a l ih =>
    obtain ⟨ha, hl⟩ := List.forall_mem_cons.1 h
    rw [List.mapM_cons]
    exact ha.bind fun b _ => (ih hl).bind fun bs _ => ok (b :: bs)

end Completes

theorem AtMost.completes {n : ℤ} {x : Except Error (List Float)} (h : AtMost n x) :
    Completes x := fun hx =>
  let ⟨xs, hxs, _⟩ := h hx
  ⟨xs, hxs⟩

/-! ## Polynomials -/

theorem Exponent.completes_plus (a b : Exponent) : Completes (a.plus b) := by
  by_cases h : ∃ e : Exponent, e.toInt = a.toInt + b.toInt
  · obtain ⟨e, he⟩ := h
    rw [plus_eq_ok_iff.2 he]
    exact .ok e
  · rw [plus_eq_error h]
    exact .overflow _

namespace Poly

variable {p q : Poly}

theorem completes_multiply (policy : SnapPolicy) (p q : Poly) :
    Completes (p.multiply policy q) := by
  refine Completes.bind (.mapM fun a _ => .mapM fun b _ => ?_) fun _ _ => .ok _
  exact (Exponent.completes_plus _ _).bind fun _ _ => .ok _

theorem completes_derivative (p : Poly) : Completes p.derivative := by
  rcases p.derivative_cases with ⟨-, h⟩ | h
  · rw [h]
    exact .ok _
  · rw [h]
    exact .overflow _

theorem valid_derivative (h : p.derivative = .ok q) : q.Valid := (truthful_derivative h).valid

theorem completes_nthDerivative : ∀ (n : ℕ) (p : Poly), Completes (p.nthDerivative n)
  | 0, p => .ok p
  | n + 1, p => by
    rw [nthDerivative]
    split_ifs
    · exact .ok p
    · exact p.completes_derivative.bind fun q _ => completes_nthDerivative n q

theorem Valid.nthDerivative (hp : p.Valid) {n : ℕ} (h : p.nthDerivative n = .ok q) : q.Valid :=
  of_nthDerivative (fun _ _ => valid_derivative) hp h

theorem completes_slopeAt (p : Poly) (x : Float) : Completes (p.slopeAt x) :=
  p.completes_derivative.bind fun _ _ => .ok _

theorem completes_tangent (p : Poly) (x : Float) : Completes (p.tangent x) :=
  (p.completes_slopeAt x).bind fun _ _ => .ok _

theorem completes_antiderivative (p : Poly) : Completes p.antiderivative := by
  refine Completes.bind (.mapM fun t _ => ?_) fun _ _ => .ok _
  exact (Exponent.completes_plus _ _).bind fun _ _ => .ok _

theorem completes_iteratedAntiderivative : ∀ (n : ℕ) (p : Poly),
    Completes (p.iteratedAntiderivative n)
  | 0, p => .ok p
  | n + 1, p => p.completes_antiderivative.bind fun q _ => completes_iteratedAntiderivative n q

theorem completes_nthAntiderivative (n : ℕ) (c : Float) (p : Poly) :
    Completes (p.nthAntiderivative n c) := by
  rw [nthAntiderivative]
  split_ifs
  · exact .ok p
  · exact (completes_iteratedAntiderivative n p).bind fun _ _ => .ok _

end Poly

namespace RootFinder

variable {p : Poly}

theorem completes_roots (finder : RootFinder) (hp : p.Valid) : Completes (finder.roots p) :=
  (atMost_roots hp finder).completes

theorem completes_rootsFrom (finder : RootFinder) (hp : p.Valid) (guesses : List Float) :
    Completes (finder.rootsFrom p guesses) := by
  rw [rootsFrom]
  split_ifs
  · exact finder.completes_roots hp
  · exact p.completes_derivative.bind fun _ _ => .ok _

theorem completes_criticalPoints (finder : RootFinder) (p : Poly) :
    Completes (finder.criticalPoints p) :=
  p.completes_derivative.bind fun _ h => finder.completes_roots (Poly.valid_derivative h)

theorem completes_rootsWhere (finder : RootFinder) (hp : p.Valid)
    (asked : Float → Float → Bool) : Completes (finder.rootsWhere p asked) :=
  (finder.completes_roots hp).bind fun _ _ => .ok _

end RootFinder

/-! ## Operands -/

namespace Operand

/-- A polynomial among the operands is valid. -/
def Valid : Operand → Prop
  | poly p => p.Valid
  | text _ | number _ => True

/-- The number that does not read as a polynomial, if the operand is one. -/
def malformed? : Operand → Option Float
  | number c => if c.isFinite then none else some c
  | text _ | poly _ => none

/-- The operand reads as the zero polynomial. -/
def ReadsZero (o : Operand) : Prop := ∃ p, o.resolve = .ok p ∧ p.isZero = true

theorem Valid.resolve_cases {o : Operand} (h : o.Valid) :
    (∃ p, o.resolve = .ok p ∧ p.Valid ∧ o.malformed? = none) ∨
      ∃ c, o.resolve = .error (.malformedParameter c) ∧ o.malformed? = some c := by
  cases o with
  | text s => exact Or.inl ⟨Poly.parse s, rfl, Poly.valid_ofTerms _, rfl⟩
  | poly p => exact Or.inl ⟨p, rfl, h, rfl⟩
  | number c =>
    rw [resolve, malformed?]
    split_ifs
    · exact Or.inl ⟨Poly.constant c, rfl, Poly.valid_ofTerms _, rfl⟩
    · exact Or.inr ⟨c, rfl, rfl⟩

end Operand

/-! ## Requests -/

/-- An operation on operands, by the type of its answer. -/
inductive Request : Type → Type
  | render (p : Operand) (spaces : Bool) : Request String
  | size (p : Operand) : Request ℕ
  | term (p : Operand) (n : ℕ) : Request Term
  | degree (p : Operand) : Request Exponent
  | degreeName (p : Operand) : Request DegreeName
  | isZero (p : Operand) : Request Bool
  | isConstant (p : Operand) : Request Bool
  | equals (p q : Operand) : Request Bool
  | add (p q : Operand) : Request Poly
  | subtract (p q : Operand) : Request Poly
  | multiply (p q : Operand) : Request Poly
  | divRem (p q : Operand) : Request Division
  | divide (p q : Operand) : Request Poly
  | modulo (p q : Operand) : Request Poly
  | eval (p : Operand) (x : Float) : Request Float
  | nthDerivative (p : Operand) (n : ℕ) : Request Poly
  | nthAntiderivative (p : Operand) (n : ℕ) (c : Float) : Request Poly
  | tangent (p : Operand) (x : Float) : Request Poly
  | secant (p : Operand) (x₁ x₂ : Float) : Request Poly
  | slopeAt (p : Operand) (x : Float) : Request Float
  | secantSlope (p : Operand) (x₁ x₂ : Float) : Request Float
  | endBehavior (p : Operand) : Request EndBehavior
  | roots (p : Operand) : Request (List Float)
  | rootsFrom (p : Operand) (guesses : List Float) : Request (List Float)
  | criticalPoints (p : Operand) : Request (List Float)
  | localMaxima (p : Operand) (lower upper : Option Float) : Request (List Float)
  | localMinima (p : Operand) (lower upper : Option Float) : Request (List Float)
  | inflectionPoints (p : Operand) : Request (List Float)

namespace Request

/-- The call that a request is. -/
def call : Request α → Call α
  | render p spaces => .other (p.render spaces)
  | size p => .other p.size
  | term p n => .other (p.term n)
  | degree p => .other p.degree
  | degreeName p => .other p.degreeName
  | isZero p => .other p.isZero
  | isConstant p => .other p.isConstant
  | equals p q => .other (p.equals q)
  | add p q => .other (p.add q)
  | subtract p q => .other (p.subtract q)
  | multiply p q => .productOf p q
  | divRem p q => .divisionOf p q
  | divide p q => .quotientOf p q
  | modulo p q => .remainderOf p q
  | eval p x => .other (p.eval x)
  | nthDerivative p n => .other (p.nthDerivative n)
  | nthAntiderivative p n c => .other (p.nthAntiderivative n c)
  | tangent p x => .other (p.tangent x)
  | secant p x₁ x₂ => .other (p.secant x₁ x₂)
  | slopeAt p x => .other (p.slopeAt x)
  | secantSlope p x₁ x₂ => .other (p.secantSlope x₁ x₂)
  | endBehavior p => .other p.endBehavior
  | roots p => .rootsOf p
  | rootsFrom p guesses => .rootsFrom p guesses
  | criticalPoints p => .criticalPoints p
  | localMaxima p lower upper => .localMaxima p lower upper
  | localMinima p lower upper => .localMinima p lower upper
  | inflectionPoints p => .inflectionPoints p

/-- The answer of a request in a process. -/
def answer (r : Request α) (s : PolicyState) : Except Error α := (r.call.perform s).1

/-- The operands from left to right. -/
def operands : Request α → List Operand
  | equals p q | add p q | subtract p q | multiply p q | divRem p q | divide p q | modulo p q =>
    [p, q]
  | render p _ | size p | term p _ | degree p | degreeName p | isZero p | isConstant p | eval p _
  | nthDerivative p _ | nthAntiderivative p _ _ | tangent p _ | secant p _ _ | slopeAt p _
  | secantSlope p _ _ | endBehavior p | roots p | rootsFrom p _ | criticalPoints p
  | localMaxima p _ _ | localMinima p _ _ | inflectionPoints p => [p]

/-- The operand that another one is divided by. -/
def divisor? : Request α → Option Operand
  | divRem _ q | divide _ q | modulo _ q => some q
  | _ => none

open Call (standardFinder) in
/-- The answer of a request under a policy. -/
def under (policy : SnapPolicy) : Request α → Except Error α
  | render p spaces => p.render spaces
  | size p => p.size
  | term p n => p.term n
  | degree p => p.degree
  | degreeName p => p.degreeName
  | isZero p => p.isZero
  | isConstant p => p.isConstant
  | equals p q => p.equals q
  | add p q => p.add q
  | subtract p q => p.subtract q
  | multiply p q => do (← p.resolve).multiply policy (← q.resolve)
  | divRem p q => do (← p.resolve).divide policy (← q.resolve)
  | divide p q => Division.quotient <$> do (← p.resolve).divide policy (← q.resolve)
  | modulo p q => Division.remainder <$> do (← p.resolve).divide policy (← q.resolve)
  | eval p x => p.eval x
  | nthDerivative p n => p.nthDerivative n
  | nthAntiderivative p n c => p.nthAntiderivative n c
  | tangent p x => p.tangent x
  | secant p x₁ x₂ => p.secant x₁ x₂
  | slopeAt p x => p.slopeAt x
  | secantSlope p x₁ x₂ => p.secantSlope x₁ x₂
  | endBehavior p => p.endBehavior
  | roots p => do (standardFinder policy).roots (← p.resolve)
  | rootsFrom p guesses => do (standardFinder policy).rootsFrom (← p.resolve) guesses
  | criticalPoints p => do (standardFinder policy).criticalPoints (← p.resolve)
  | localMaxima p lower upper => do
    (standardFinder policy).maxima (← (← p.resolve).derivative) lower upper
  | localMinima p lower upper => do
    (standardFinder policy).minima (← (← p.resolve).derivative) lower upper
  | inflectionPoints p => do (standardFinder policy).inflections (← (← p.resolve).nthDerivative 2)

end Request

/-! ## The policy -/

/-- The answer is a function of the policy in effect, which stays as it is. -/
def Effect.Keeps (e : Effect α) (f : SnapPolicy → Except Error α) : Prop :=
  ∀ s, (e.run s).1 = f s.policy ∧ (e.run s).2.policy = s.policy

theorem Effect.run_map (f : β → α) (e : Effect β) (s : PolicyState) :
    (e.map f).run s = (f <$> (e.run s).1, (e.run s).2) := by
  cases e with
  | installs policy answer =>
    simp only [map, run]
    split_ifs <;> rfl
  | _ => rfl

namespace Effect.Keeps

theorem ignores (x : Except Error α) : Keeps (.ignores fun _ => x) fun _ => x :=
  fun _ => ⟨rfl, rfl⟩

theorem reads (f : SnapPolicy → Except Error α) : Keeps (.reads f) f := fun _ => ⟨rfl, rfl⟩

theorem after {x : Except Error β} {e : β → Effect α} {f : β → SnapPolicy → Except Error α}
    (h : ∀ b, (e b).Keeps (f b)) :
    (Effect.after x e).Keeps fun policy => x >>= fun b => f b policy := by
  cases x with
  | ok b => exact h b
  | error e => exact ignores (.error e)

theorem map {e : Effect β} {g : SnapPolicy → Except Error β} (h : e.Keeps g) (f : β → α) :
    (e.map f).Keeps fun policy => f <$> g policy := by
  intro s
  obtain ⟨hanswer, hpolicy⟩ := h s
  rw [run_map]
  exact ⟨congrArg (f <$> ·) hanswer, hpolicy⟩

end Effect.Keeps

namespace Request

theorem keeps (r : Request α) : r.call.effect.Keeps fun policy => r.under policy := by
  cases r with
  | multiply | divRem | localMaxima | localMinima | inflectionPoints =>
    exact .after fun _ => .after fun _ => .reads _
  | divide | modulo => exact .map (.after fun _ => .after fun _ => .reads _) _
  | roots | rootsFrom | criticalPoints => exact .after fun _ => .reads _
  | _ => exact .ignores _

/-- A request depends on the process by the policy in effect alone. -/
theorem answer_eq (r : Request α) (s : PolicyState) : r.answer s = r.under s.policy := by
  rw [answer, Call.perform_eq, (r.keeps s).1]

end Request

/-! ## The contract -/

/-- What an operation on operands answers: a number that does not read as a polynomial is reported
before anything else, then a division by zero is refused, and otherwise there is a result unless an
exponent overflows. -/
structure Contract (malformed? : Option Float) (zeroDivisor : Prop) (x : Except Error α) :
    Prop where
  malformed : ∀ c, x = .error (.malformedParameter c) ↔ malformed? = some c
  message : ∀ c e, malformed? = some c → x = .error e →
    e.message = "malformed parameter: " ++ Decimal.display c ++ " is not a finite number"
  divideByZero : x = .error .divideByZero ↔ malformed? = none ∧ zeroDivisor
  ok : ¬ Overflows x → ((∃ a, x = .ok a) ↔ malformed? = none ∧ ¬ zeroDivisor)
  /-- No other error is possible. -/
  error : ∀ e, x = .error e → (∃ c, e = .malformedParameter c) ∨ e = .divideByZero ∨
    ∃ operation, e = .exponentOverflow operation

namespace Contract

variable {x : Except Error α} {malformed? : Option Float} {zeroDivisor : Prop}

/-- Once the operands have been read, a computation that completes is as it should be. -/
theorem of_completes (h : Completes x) (hd : ¬ zeroDivisor) : Contract none zeroDivisor x := by
  by_cases hx : Overflows x
  · obtain ⟨operation, rfl⟩ := hx
    exact ⟨by simp, by simp, by simp [hd], fun hx => absurd ⟨operation, rfl⟩ hx, by simp⟩
  · obtain ⟨a, rfl⟩ := h hx
    exact ⟨by simp, by simp, by simp [hd], by simp [hd], by simp⟩

theorem of_divideByZero (hd : zeroDivisor) :
    Contract none zeroDivisor (.error .divideByZero : Except Error α) :=
  ⟨by simp, by simp, by simp [hd], by simp [hd], by simp⟩

theorem of_malformed (c : Float) :
    Contract (some c) zeroDivisor (.error (.malformedParameter c) : Except Error α) where
  malformed := by simp
  message := by
    rintro c' e hc he
    obtain rfl := Option.some.inj hc
    obtain rfl := Except.error.inj he
    rfl
  divideByZero := by simp
  ok := by simp
  error := by simp

/-- Operands are read from left to right. -/
theorem resolve {o : Operand} {os : List Operand} {f : Poly → Except Error α} (ho : o.Valid)
    (h : ∀ p, p.Valid → o.resolve = .ok p →
      Contract (os.findSome? Operand.malformed?) zeroDivisor (f p)) :
    Contract ((o :: os).findSome? Operand.malformed?) zeroDivisor (o.resolve >>= f) := by
  rw [List.findSome?_cons]
  obtain ⟨p, hp, hvalid, hm⟩ | ⟨c, hc, hm⟩ := ho.resolve_cases
  · rw [hp, hm]
    exact h p hvalid hp
  · rw [hc, hm]
    exact of_malformed c

/-- An operation on one operand that divides by none. -/
theorem unary {p : Operand} {f : Poly → Except Error α} (hd : ¬ zeroDivisor) (hp : p.Valid)
    (h : ∀ p : Poly, p.Valid → Completes (f p)) :
    Contract ([p].findSome? Operand.malformed?) zeroDivisor (p.resolve >>= f) :=
  resolve hp fun p hp _ => of_completes (h p hp) hd

/-- An operation on two operands that divides by none. -/
theorem binary {p q : Operand} {f : Poly → Poly → Except Error α} (hd : ¬ zeroDivisor)
    (hp : p.Valid) (hq : q.Valid) (h : ∀ p q : Poly, Completes (f p q)) :
    Contract ([p, q].findSome? Operand.malformed?) zeroDivisor
      (p.resolve >>= fun p => q.resolve >>= fun q => f p q) :=
  resolve hp fun p _ _ => resolve hq fun q _ _ => of_completes (h p q) hd

theorem map (h : Contract malformed? zeroDivisor x) (f : α → β) :
    Contract malformed? zeroDivisor (f <$> x) := by
  have herror (e : Error) : f <$> x = .error e ↔ x = .error e := by
    cases x <;> simp [Functor.map, Except.map]
  have hok : (∃ b, f <$> x = .ok b) ↔ ∃ a, x = .ok a := by
    cases x <;> simp [Functor.map, Except.map]
  constructor
  · exact fun c => (herror _).trans (h.malformed c)
  · exact fun c e hc he => h.message c e hc ((herror e).1 he)
  · exact (herror _).trans h.divideByZero
  · refine fun hx => hok.trans (h.ok fun ⟨operation, ho⟩ => hx ⟨operation, (herror _).2 ho⟩)
  · exact fun e he => h.error e ((herror e).1 he)

/-- A division with its divisor. -/
theorem division {p q : Operand} (hp : p.Valid) (hq : q.Valid) (policy : SnapPolicy) :
    Contract ([p, q].findSome? Operand.malformed?) (∃ d ∈ some q, d.ReadsZero)
      (do (← p.resolve).divide policy (← q.resolve)) := by
  refine resolve hp fun p hp _ => resolve hq fun d hd hread => ?_
  have hzero : (∃ d ∈ some q, d.ReadsZero) ↔ d.isZero = true := by
    simp [Operand.ReadsZero, hread]
  cases hz : d.isZero with
  | true =>
    show Contract none _ (p.divide policy d)
    rw [Poly.divide_of_isZero hz]
    exact of_divideByZero (hzero.2 hz)
  | false =>
    refine of_completes ?_ (by rw [hzero, hz]; exact Bool.false_ne_true)
    rcases Poly.divide_cases hp hd hz policy with ⟨-, h⟩ | ⟨-, -, e, -, h, -⟩
    · rw [h]
      exact .overflow _
    · rw [h]
      exact .ok e

end Contract

namespace Request

/-- The number that is reported, if one of the operands does not read as a polynomial. -/
def malformed? (r : Request α) : Option Float := r.operands.findSome? Operand.malformed?

/-- The request asks for a division by an operand that reads as zero. -/
def DividesByZero (r : Request α) : Prop := ∃ d ∈ r.divisor?, d.ReadsZero

/-- The requests differ in what is computed once the operands have been read, and only a division
can fail there in another way than by an overflow. -/
theorem contract_under (r : Request α) (hr : ∀ o ∈ r.operands, o.Valid) (policy : SnapPolicy) :
    Contract r.malformed? r.DividesByZero (r.under policy) := by
  have nothing : ¬ ∃ d ∈ (none : Option Operand), d.ReadsZero := by simp
  have head {p : Operand} {os : List Operand} : p ∈ p :: os := List.mem_cons_self
  have second {p q : Operand} : q ∈ [p, q] := List.mem_cons_of_mem _ head
  cases r with
  | render p | size p | term p | degree p | degreeName p | isZero p | isConstant p | eval p
  | secant p | secantSlope p | endBehavior p =>
    exact .unary nothing (hr p head) fun _ _ => .ok _
  | equals p q | add p q | subtract p q =>
    exact .binary nothing (hr p head) (hr q second) fun _ _ => .ok _
  | multiply p q => exact .binary nothing (hr p head) (hr q second) (Poly.completes_multiply policy)
  | divRem p q => exact .division (hr p head) (hr q second) policy
  | divide p q | modulo p q => exact (Contract.division (hr p head) (hr q second) policy).map _
  | nthDerivative p n => exact .unary nothing (hr p head) fun p _ => p.completes_nthDerivative n
  | nthAntiderivative p n c =>
    exact .unary nothing (hr p head) fun p _ => p.completes_nthAntiderivative n c
  | tangent p x =>
    exact .unary nothing (hr p head) fun p _ => (p.completes_tangent x).bind fun _ _ => .ok _
  | slopeAt p x => exact .unary nothing (hr p head) fun p _ => p.completes_slopeAt x
  | roots p => exact .unary nothing (hr p head) fun _ hp => RootFinder.completes_roots _ hp
  | rootsFrom p guesses =>
    exact .unary nothing (hr p head) fun _ hp => RootFinder.completes_rootsFrom _ hp guesses
  | criticalPoints p =>
    exact .unary nothing (hr p head) fun p _ => RootFinder.completes_criticalPoints _ p
  | localMaxima p | localMinima p =>
    exact .unary nothing (hr p head) fun p _ => p.completes_derivative.bind fun _ h =>
      (RootFinder.completes_rootsWhere _ (Poly.valid_derivative h) _).map _
  | inflectionPoints p =>
    exact .unary nothing (hr p head) fun p hp => (p.completes_nthDerivative 2).bind fun _ h =>
      RootFinder.completes_rootsWhere _ (hp.nthDerivative h) _

/-- Every request keeps the contract in any process and leaves the policy in effect as it is, and
under one policy quotient and remainder are those of the division with remainder. -/
theorem answer_contract :
    (∀ {α : Type} (r : Request α) (s : PolicyState), (∀ o ∈ r.operands, o.Valid) →
      Contract r.malformed? r.DividesByZero (r.answer s)) ∧
    (∀ {α : Type} (r : Request α) (s : PolicyState), (r.call.perform s).2.policy = s.policy) ∧
    ∀ (p q : Operand) (s t : PolicyState), s.policy = t.policy →
      (divide p q).answer t = Division.quotient <$> (divRem p q).answer s ∧
      (modulo p q).answer t = Division.remainder <$> (divRem p q).answer s := by
  refine ⟨fun r s hr => ?_, fun r s => ?_, fun p q s t h => ?_⟩
  · rw [answer_eq]
    exact r.contract_under hr s.policy
  · rw [Call.perform_eq]
    exact (r.keeps s).2
  · rw [answer_eq, answer_eq, answer_eq, h]
    exact ⟨rfl, rfl⟩

/-- Infinity is reported before NaN, also where the divisor is zero; a text that cancels is a zero
divisor; and `x ^ 2 - 1` by `x - 1` has a quotient and a remainder. -/
theorem answer_contract_cancelling :
    let s := PolicyState.fresh none
    let p := Operand.text "x^2 - 1"
    let q := Operand.text "x - 1"
    (add (.number Binary64.infinity) (.number Binary64.nan)).answer s =
      .error (.malformedParameter Binary64.infinity) ∧
    (divide (.number Binary64.nan) (.text "x - x")).answer s =
      .error (.malformedParameter Binary64.nan) ∧
    (divRem p (.text "x - x")).answer s = .error .divideByZero ∧
    (∃ a, (divide p q).answer s = .ok a) ∧
    (modulo p q).answer ((divRem p q).call.perform s).2 =
      Division.remainder <$> (divRem p q).answer s := by
  intro s p q
  obtain ⟨contract, keeps, division⟩ := answer_contract
  have valid : ∀ o ∈ [p, q], o.Valid := by simp [p, q, Operand.Valid]
  have completes : ¬ Overflows ((divide p q).answer s) := by
    obtain ⟨⟨-, h⟩, -⟩ | ⟨-, -, d, -, h, -⟩ := Poly.divide_cases (Poly.valid_ofTerms _)
      (Poly.valid_ofTerms _) (p := Poly.parse "x^2 - 1") (d := Poly.parse "x - 1")
      (by decide +kernel) s.policy
    · have hp : (Poly.parse "x^2 - 1").degree.toInt = 2 := by decide +kernel
      have hq : (Poly.parse "x - 1").degree.toInt = 1 := by decide +kernel
      omega
    · rintro ⟨operation, ho⟩
      have hp : p.resolve = .ok (Poly.parse "x^2 - 1") := rfl
      have hq : q.resolve = .ok (Poly.parse "x - 1") := rfl
      rw [answer_eq, under, hp, hq] at ho
      simp only [bind, Except.bind, h] at ho
      cases ho
  refine ⟨?_, ?_, ?_, ?_, ?_⟩
  · refine ((contract _ s ?_).malformed _).2 rfl
    simp [operands, Operand.Valid]
  · refine ((contract _ s ?_).malformed _).2 rfl
    simp [operands, Operand.Valid]
  · refine (contract _ s ?_).divideByZero.2 ⟨rfl, _, rfl, _, rfl, by decide +kernel⟩
    simp [operands, Operand.Valid, p]
  · refine ((contract (divide p q) s valid).ok completes).2 ⟨rfl, ?_⟩
    rintro ⟨d, hd, r, hr, hz⟩
    obtain rfl := Option.some.inj hd
    obtain rfl := Except.ok.inj hr
    exact absurd hz (by decide +kernel)
  · exact (division p q s _ (keeps (divRem p q) s).symm).2

end Request

end SparsePoly
