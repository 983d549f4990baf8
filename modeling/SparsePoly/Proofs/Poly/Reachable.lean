import Mathlib
import SparsePoly.Calculus
import SparsePoly.Poly.Arithmetic
import SparsePoly.Poly.Text
import SparsePoly.Proofs.Poly.Laziness

/-!
# What is known about the order is true

A polynomial that comes out of any sequence of operations is `Reachable`.  Each operation maintains
`Truthful`: no stored term is zero, what is known about the order is true, and a polynomial without
terms is known to be strictly descending.  Looking brings the stored terms into normal form in at
most two steps (`advance`), and what is known is true after each of them (`Reachable.order_true`).
-/

open SparsePoly.Term

namespace SparsePoly

theorem bind_eq_ok {α β : Type} {x : Except Error α} {f : α → Except Error β} {b : β} :
    (x >>= f) = .ok b ↔ ∃ a, x = .ok a ∧ f a = .ok b := by
  cases x with
  | error e => simp [bind, Except.bind]
  | ok a => simp [bind, Except.bind]

namespace Poly

variable {p q r : Poly} {t : Term} {ts : List Term}

/-! ## The way to the normal form -/

/-- One step on the way to the normal form: terms in any order are sorted, and sorted terms are
combined. -/
def advance (p : Poly) : Poly :=
  match p.order with
  | .arbitrary => ⟨(sortDescending p.stored.toList).toArray, .descending⟩
  | .descending => ⟨(combine p.stored.toList).toArray, .strict⟩
  | .strict => p

/-- What is computed from the terms by looking at a polynomial, and the polynomial afterwards. -/
def observe {α : Type} (p : Poly) (compute : List Term → α) : α × Poly :=
  (compute p.terms, p.advance.advance)

/-- Two steps suffice. -/
theorem advance_advance (p : Poly) : p.advance.advance = p.settle := by
  obtain ⟨stored, order⟩ := p
  cases order <;> simp [advance, settle, terms]

/-- Whoever looks leaves the same polynomial behind. -/
theorem Observer.look_snd (p : Poly) {o : Observer} (h : o ≠ .clone) :
    (o.look p).2 = p.settle := by
  cases o
  case clone => exact absurd rfl h
  all_goals rfl

/-! ## What each operation maintains -/

/-- No stored term is zero, what is known about the order is true, and no terms are known to be
strictly descending. -/
structure Truthful (p : Poly) : Prop where
  valid : p.Valid
  empty : p.stored.toList = [] → p.order = .strict

theorem truthful_zero : zero.Truthful := ⟨valid_zero, fun _ => rfl⟩

theorem Truthful.append (h : p.Truthful) (t : Term) : (p.append t).Truthful where
  valid := h.valid.append t
  empty := by
    cases ht : t.isZero with
    | true =>
      rw [append_of_isZero ht]
      exact h.empty
    | false =>
      rw [toList_stored_append ht]
      intro hnil
      exact absurd hnil (by simp)

theorem Truthful.extend (h : p.Truthful) (ts : List Term) : (p.extend ts).Truthful := by
  induction ts generalizing p with
  | nil => exact h
  | cons t ts ih => exact ih (h.append t)

theorem truthful_ofTerms (ts : List Term) : (ofTerms ts).Truthful := truthful_zero.extend ts

theorem Truthful.advance (h : p.Truthful) : p.advance.Truthful := by
  have horder := h.valid.order
  obtain ⟨stored, order⟩ := p
  cases order with
  | strict => exact h
  | descending =>
    have hlists := lists_combine horder
    exact ⟨⟨fun t ht => ((hlists.mem_iff t).1 ht).1, hlists.descending⟩, fun _ => rfl⟩
  | arbitrary =>
    have hperm : (sortDescending stored.toList).Perm stored.toList := List.mergeSort_perm _ _
    refine ⟨⟨fun t ht => h.valid.nonzero t (hperm.mem_iff.1 ht),
      descending_sortDescending stored.toList⟩, fun hnil => ?_⟩
    have hnil : sortDescending stored.toList = [] := hnil
    rw [hnil] at hperm
    have hstrict : Order.arbitrary = .strict := h.empty hperm.symm.eq_nil
    cases hstrict

/-- The terms of a new polynomial may be computed first. -/
theorem truthful_of_bind {α : Type} {x : Except Error α} {f : α → List Term}
    (h : (do return ofTerms (f (← x))) = .ok r) : r.Truthful := by
  obtain ⟨a, -, hr⟩ := bind_eq_ok.1 h
  obtain rfl := Except.ok.inj hr
  exact truthful_ofTerms (f a)

theorem truthful_multiply {policy : SnapPolicy} (h : p.multiply policy q = .ok r) :
    r.Truthful := truthful_of_bind h

theorem truthful_fromRoots {policy : SnapPolicy} {roots : List Float}
    (h : fromRoots policy roots = .ok r) : r.Truthful := by
  unfold fromRoots at h
  have hone : one.Truthful := truthful_ofTerms _
  generalize one = p at h hone
  induction roots generalizing p with
  | nil =>
    obtain rfl := Except.ok.inj h
    exact hone
  | cons root roots ih =>
    rw [List.foldlM_cons] at h
    obtain ⟨q, hq, h⟩ := bind_eq_ok.1 h
    exact ih q h (truthful_multiply hq)

/-- Each step of a division appends to the quotient and subtracts from the rest of the remainder. -/
theorem truthful_divideFrom {policy : SnapPolicy} {lead : Term} {tail : Poly} :
    ∀ {steps : ℕ} {d e : Division}, d.quotient.Truthful → d.remainder.Truthful →
      divideFrom policy lead tail steps d = .ok e → e.quotient.Truthful ∧ e.remainder.Truthful
  | 0, d, e, hq, hr, h => by
    obtain rfl := Except.ok.inj h
    exact ⟨hq, hr⟩
  | steps + 1, d, e, hq, hr, h => by
    rw [divideFrom] at h
    split at h
    · obtain rfl := Except.ok.inj h
      exact ⟨hq, hr⟩
    · split_ifs at h with hlow
      · obtain rfl := Except.ok.inj h
        exact ⟨hq, hr⟩
      · obtain ⟨step, -, h⟩ := bind_eq_ok.1 h
        obtain ⟨product, -, h⟩ := bind_eq_ok.1 h
        exact truthful_divideFrom (hq.append step) ((truthful_ofTerms _).extend _) h

theorem Truthful.divide {policy : SnapPolicy} {d : Division} (hp : p.Truthful)
    (h : p.divide policy q = .ok d) : d.quotient.Truthful ∧ d.remainder.Truthful := by
  unfold Poly.divide at h
  split at h
  · cases h
  · exact truthful_divideFrom truthful_zero hp h

theorem truthful_derivative (h : p.derivative = .ok r) : r.Truthful := truthful_of_bind h

/-- What every derivative has, a repeated derivative has too. -/
theorem of_nthDerivative {P : Poly → Prop} (hstep : ∀ p q : Poly, p.derivative = .ok q → P q)
    (hp : P p) {n : ℕ} (h : p.nthDerivative n = .ok r) : P r := by
  induction n generalizing p with
  | zero =>
    obtain rfl := Except.ok.inj h
    exact hp
  | succ n ih =>
    rw [Poly.nthDerivative] at h
    split_ifs at h with hz
    · obtain rfl := Except.ok.inj h
      exact hp
    · obtain ⟨slope, hslope, h⟩ := bind_eq_ok.1 h
      exact ih (hstep p slope hslope) h

theorem Truthful.nthDerivative (hp : p.Truthful) {n : ℕ} (h : p.nthDerivative n = .ok r) :
    r.Truthful := of_nthDerivative (fun _ _ => truthful_derivative) hp h

theorem truthful_antiderivative (h : p.antiderivative = .ok r) : r.Truthful := truthful_of_bind h

theorem Truthful.iteratedAntiderivative (hp : p.Truthful) {n : ℕ}
    (h : p.iteratedAntiderivative n = .ok r) : r.Truthful := by
  induction n generalizing p with
  | zero =>
    obtain rfl := Except.ok.inj h
    exact hp
  | succ n ih =>
    obtain ⟨primitive, hprimitive, h⟩ := bind_eq_ok.1 h
    exact ih (truthful_antiderivative hprimitive) h

theorem Truthful.nthAntiderivative (hp : p.Truthful) {n : ℕ} {c : Float}
    (h : p.nthAntiderivative n c = .ok r) : r.Truthful := by
  unfold Poly.nthAntiderivative at h
  split_ifs at h with hn
  · obtain rfl := Except.ok.inj h
    exact hp
  · obtain ⟨primitive, hprimitive, hr⟩ := bind_eq_ok.1 h
    obtain rfl := Except.ok.inj hr
    exact (hp.iteratedAntiderivative hprimitive).append _

/-! ## Every sequence of operations -/

/-- The polynomial can be built with the operations on polynomials.  A copy is the polynomial
itself, and looking at a polynomial replaces it by what is left of it. -/
inductive Reachable : Poly → Prop
  | zero : Reachable zero
  | one : Reachable one
  | x : Reachable x
  | constant (c : Float) : Reachable (constant c)
  | monomial (c : Float) (e : Exponent) : Reachable (monomial c e)
  | ofTerms (ts : List Term) : Reachable (ofTerms ts)
  | parse (s : String) : Reachable (parse s)
  | append {p : Poly} (hp : Reachable p) (t : Term) : Reachable (p.append t)
  | extend {p : Poly} (hp : Reachable p) (ts : List Term) : Reachable (p.extend ts)
  | observe {α : Type} {p : Poly} (hp : Reachable p) (compute : List Term → α) :
      Reachable (p.observe compute).2
  | add {p q : Poly} (hp : Reachable p) (hq : Reachable q) : Reachable (p.add q)
  | subtract {p q : Poly} (hp : Reachable p) (hq : Reachable q) : Reachable (p.subtract q)
  | negate {p : Poly} (hp : Reachable p) : Reachable p.negate
  | scale {p : Poly} (hp : Reachable p) (k : Float) : Reachable (p.scale k)
  | multiply {p q r : Poly} {policy : SnapPolicy} (hp : Reachable p) (hq : Reachable q)
      (h : p.multiply policy q = .ok r) : Reachable r
  | quotient {p q : Poly} {policy : SnapPolicy} {d : Division} (hp : Reachable p)
      (hq : Reachable q) (h : p.divide policy q = .ok d) : Reachable d.quotient
  | remainder {p q : Poly} {policy : SnapPolicy} {d : Division} (hp : Reachable p)
      (hq : Reachable q) (h : p.divide policy q = .ok d) : Reachable d.remainder
  | fromRoots {policy : SnapPolicy} {roots : List Float} {r : Poly}
      (h : fromRoots policy roots = .ok r) : Reachable r
  | derivative {p r : Poly} (hp : Reachable p) (h : p.derivative = .ok r) : Reachable r
  | antiderivative {p r : Poly} (hp : Reachable p) (h : p.antiderivative = .ok r) : Reachable r
  | nthDerivative {p r : Poly} {n : ℕ} (hp : Reachable p) (h : p.nthDerivative n = .ok r) :
      Reachable r
  | nthAntiderivative {p r : Poly} {n : ℕ} {c : Float} (hp : Reachable p)
      (h : p.nthAntiderivative n c = .ok r) : Reachable r
  | tangent {p : Poly} {x : Float} {l : Line} (hp : Reachable p) (h : p.tangent x = .ok l) :
      Reachable l.toPoly
  | secant {p : Poly} (hp : Reachable p) (x₁ x₂ : Float) : Reachable (p.secant x₁ x₂).toPoly

theorem Reachable.truthful (h : Reachable p) : p.Truthful := by
  induction h with
  | zero => exact truthful_zero
  | one | x | constant | monomial | ofTerms | parse => exact truthful_ofTerms _
  | append _ t ih => exact ih.append t
  | extend _ ts ih => exact ih.extend ts
  | observe _ _ ih => exact ih.advance.advance
  | add _ _ ih => exact ih.extend _
  | subtract _ _ ih => exact ih.extend _
  | negate | scale => exact truthful_ofTerms _
  | multiply _ _ h => exact truthful_multiply h
  | quotient _ _ h ih => exact (ih.divide h).1
  | remainder _ _ h ih => exact (ih.divide h).2
  | fromRoots h => exact truthful_fromRoots h
  | derivative _ h => exact truthful_derivative h
  | antiderivative _ h => exact truthful_antiderivative h
  | nthDerivative _ h ih => exact ih.nthDerivative h
  | nthAntiderivative _ h ih => exact ih.nthAntiderivative h
  | tangent | secant => exact truthful_ofTerms _

theorem Truthful.settle_eq (h : p.Truthful) :
    p.settle = ⟨(normalForm p.stored.toList).toArray, .strict⟩ := by
  have hterms : p.terms = normalForm p.stored.toList :=
    h.valid.lists_terms.unique (by
      have := lists_normalForm p.stored.toList
      rwa [nonzero_eq_self h.valid.nonzero] at this)
  rw [settle, hterms]

/-- However a polynomial was built, none of its stored terms is zero, what is known about their
order is true, also half way to the normal form, and no terms are known to be strictly descending.
Whoever looks at it sees the normal form of the stored terms and leaves it behind. -/
theorem Reachable.order_true (h : Reachable p) :
    (∀ q ∈ [p, p.advance, p.advance.advance],
      (∀ t ∈ q.stored.toList, t.isZero = false) ∧
      (q.order = .strict → StrictlyDescending q.stored.toList) ∧
      (q.order = .descending → Descending q.stored.toList) ∧
      (q.stored.toList = [] → q.order = .strict)) ∧
    (∀ {α : Type} (compute : List Term → α), p.observe compute =
      (compute (normalForm p.stored.toList), ⟨(normalForm p.stored.toList).toArray, .strict⟩)) ∧
    ∀ o : Observer, o ≠ .clone →
      (o.look p).2 = ⟨(normalForm p.stored.toList).toArray, .strict⟩ := by
  have ht := h.truthful
  have hsettle := ht.settle_eq
  refine ⟨fun q hq => ?_, fun compute => ?_, fun o ho => ?_⟩
  · have hq : q.Truthful := by
      simp only [List.mem_cons, List.not_mem_nil, or_false] at hq
      rcases hq with rfl | rfl | rfl
      · exact ht
      · exact ht.advance
      · exact ht.advance.advance
    have horder := hq.valid.order
    refine ⟨hq.valid.nonzero, fun hs => ?_, fun hd => ?_, hq.empty⟩
    · rwa [hs] at horder
    · rwa [hd] at horder
  · have hterms := congrArg (fun q : Poly => q.stored.toList) hsettle
    rw [Poly.observe, advance_advance, hsettle]
    exact congrArg (fun ts => (compute ts, _)) hterms
  · rw [Observer.look_snd p ho, hsettle]

/-- Terms that cancel are stored in any order until somebody looks. -/
theorem Reachable.order_true_cancelling :
    let ts : List Term := [⟨3.0, 2⟩, ⟨1.0, 5⟩, ⟨-3.0, 2⟩]
    let p := Poly.ofTerms ts
    Reachable p ∧ p.order = .arbitrary ∧ p.advance.order = .descending ∧
      Descending p.advance.stored.toList ∧ p.observe List.length = (1, ⟨#[⟨1.0, 5⟩], .strict⟩) := by
  intro ts p
  have hp : Reachable p := .ofTerms _
  obtain ⟨hsteps, hobserve, -⟩ := hp.order_true
  have hadvance : p.advance.order = .descending := by decide +kernel
  have hnormal : normalForm p.stored.toList = [⟨1.0, 5⟩] := by
    have hstored : p.stored.toList = ts := by decide +kernel
    have hnonzero : Term.nonzero ts = ts := by decide +kernel
    have hexponents : exponents ts = [5, 2] := by simp [exponents, ts, List.mergeSort]
    rw [normalForm, hstored, hnonzero, hexponents]
    decide +kernel
  refine ⟨hp, by decide +kernel, hadvance, (hsteps p.advance (by simp)).2.2.1 hadvance, ?_⟩
  rw [hobserve, hnormal]
  rfl

end Poly

end SparsePoly
