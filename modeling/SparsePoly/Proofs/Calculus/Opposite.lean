import Mathlib
import SparsePoly.Calculus
import SparsePoly.Proofs.Binary64.Status
import SparsePoly.Proofs.Calculus.Derivative

/-!
# Opposite polynomials

A polynomial and its negation have opposite terms (`Opposite`), and so have their derivatives
(`Opposite.derivative`).  Their values are opposite even at the two zeros (`Opposite.agree_eval`),
although repeated differentiation may leave terms with negative exponents, whose powers tell the
zeros apart: such a term comes from an infinite or undefined coefficient, and its coefficient is not
a number.
-/

open SparsePoly.Binary64

namespace SparsePoly

/-! ## Sums -/

namespace Binary64

/-- Sums of opposite numbers are opposite. -/
theorem agree_neg_sum {xs ys : List Float} (h : List.Forall₂ (fun y x => Agree y (-x)) ys xs) :
    Agree (sum ys) (-sum xs) := by
  refine List.rel_foldl (P := fun s t : Float => Agree s (-t)) ?_ (Or.inr ⟨by decide, by decide⟩) h
  intro s t hst y x hyx
  exact (hst.add hyx).trans (agree_neg_add t x)

end Binary64

namespace Term

variable {t : Term} {ts : List Term} {x y : Float}

theorem derived_negate (t : Term) : t.negate.derived = t.derived.negate := by
  rw [derived, derived, negate, negate, neg_mul]

/-- A negative exponent belongs to a coefficient that is not a number. -/
def Tame (t : Term) : Prop := 0 ≤ t.exponent.toInt ∨ t.coefficient.isNaN = true

theorem Tame.derived (h : t.Tame) (hl : t.Lowers) (hz : t.derived.isZero = false) :
    t.derived.Tame := by
  rcases h with h | h
  · rcases h.eq_or_lt with h₀ | h₁
    · right
      refine isNaN_mul_of_beq_zero ?_ hz
      rw [Exponent.toDouble, ← h₀]
      decide
    · left
      rw [hl.toInt_derived]
      omega
  · right
    show (t.coefficient * t.exponent.toDouble).isNaN = true
    rwa [mul_eq_left_of_isNaN h]

theorem Tame.agree_eval (h : t.Tame) (hyx : Agree y x) : Agree (t.negate.eval y) (-t.eval x) := by
  show Agree (-t.coefficient * pow y t.exponent.toInt) (-(t.coefficient * pow x t.exponent.toInt))
  rw [neg_mul]
  rcases h with h | h
  · exact ((Agree.refl _).mul (hyx.pow h)).neg
  · rw [mul_eq_left_of_isNaN h, mul_eq_left_of_isNaN h]
    exact .refl _

end Term

open Term

namespace Poly

/-- The terms of `q` are those of `p` with the opposite coefficients. -/
structure Opposite (p q : Poly) : Prop where
  left : p.Valid
  right : q.Valid
  terms_eq : q.terms = p.terms.map Term.negate
  tame : ∀ t ∈ p.terms, t.Tame

variable {p q p' : Poly} {x y : Float}

theorem opposite_negate (hp : p.Valid) (h : ∀ t ∈ p.terms, 0 ≤ t.exponent.toInt) :
    p.Opposite p.negate where
  left := hp
  right := valid_ofTerms _
  terms_eq := by
    have hdescending : StrictlyDescending (p.terms.map Term.negate) :=
      List.pairwise_map.2 hp.strictlyDescending
    rw [negate, terms_ofTerms hdescending, nonzero_map_negate,
      nonzero_eq_self hp.isZero_eq_false]
  tame t ht := Or.inl (h t ht)

theorem Opposite.degree_eq (h : p.Opposite q) : q.degree = p.degree := by
  rw [degree, degree, leadingTerm?, leadingTerm?, h.terms_eq, List.head?_map]
  cases p.terms.head? <;> rfl

/-- A coefficient that is not there is `0` in both. -/
theorem Opposite.agree_coefficient (h : p.Opposite q) (e : Exponent) :
    Agree (q.coefficient e) (-p.coefficient e) := by
  have hfind : q.terms.find? (·.exponent = e) =
      (p.terms.find? (·.exponent = e)).map Term.negate := by
    rw [h.terms_eq, List.find?_map]
    rfl
  rw [coefficient, coefficient, hfind]
  cases p.terms.find? (·.exponent = e) with
  | none => exact Or.inr ⟨by decide, by decide⟩
  | some t => exact .refl _

theorem coefficient_degree (hd : 1 ≤ p.degree.toInt) :
    p.coefficient p.degree = p.leadingCoefficient := by
  unfold coefficient leadingCoefficient degree leadingTerm? at *
  cases hts : p.terms with
  | nil =>
    rw [hts] at hd
    exact absurd hd (by decide)
  | cons t ts => simp

theorem Opposite.leadingCoefficient_eq (h : p.Opposite q) (hd : 1 ≤ p.degree.toInt) :
    q.leadingCoefficient = -p.leadingCoefficient := by
  unfold leadingCoefficient degree leadingTerm? at *
  rw [h.terms_eq]
  cases hts : p.terms with
  | nil =>
    rw [hts] at hd
    exact absurd hd (by decide)
  | cons t ts => rfl

theorem Opposite.coefficient_degree_eq (h : p.Opposite q) (hd : 1 ≤ p.degree.toInt) :
    q.coefficient p.degree = -p.coefficient p.degree := by
  have hd' : 1 ≤ q.degree.toInt := by rwa [h.degree_eq]
  rw [coefficient_degree hd, ← h.degree_eq, coefficient_degree hd', h.leadingCoefficient_eq hd]

/-- The values are opposite at both zeros too. -/
theorem Opposite.agree_eval (h : p.Opposite q) (hyx : Agree y x) :
    Agree (q.eval y) (-p.eval x) := by
  rw [eval, eval, evalTerms, evalTerms, h.terms_eq, List.map_map]
  refine agree_neg_sum ?_
  rw [List.forall₂_map_left_iff, List.forall₂_map_right_iff]
  exact List.forall₂_same.2 fun t ht => (h.tame t ht).agree_eval hyx

/-- The derivatives of opposite polynomials are opposite. -/
theorem Opposite.derivative (h : p.Opposite q) (hp' : p.derivative = .ok p') :
    ∃ q', q.derivative = .ok q' ∧ p'.Opposite q' := by
  rcases p.derivative_cases with ⟨hlowers, hok⟩ | herror
  · obtain rfl := Except.ok.inj (hp'.symm.trans hok)
    have hlowers' : ∀ t ∈ q.terms, t.Lowers := by
      rw [h.terms_eq]
      intro t ht
      obtain ⟨u, hu, rfl⟩ := List.mem_map.1 ht
      exact hlowers u hu
    have hmap : q.terms.map derived = (p.terms.map derived).map Term.negate := by
      rw [h.terms_eq, List.map_map, List.map_map]
      exact List.map_congr_left fun t _ => derived_negate t
    refine ⟨_, derivative_eq_ok hlowers', valid_ofTerms _, valid_ofTerms _, ?_, fun u hu => ?_⟩
    · rw [terms_derivative h.right hlowers', terms_derivative h.left hlowers, hmap,
        nonzero_map_negate]
    · rw [terms_derivative h.left hlowers, mem_nonzero, List.mem_map] at hu
      obtain ⟨⟨t, ht, rfl⟩, hz⟩ := hu
      exact (h.tame t ht).derived (hlowers t ht) hz
  · rw [hp'] at herror
    cases herror

end Poly

end SparsePoly
