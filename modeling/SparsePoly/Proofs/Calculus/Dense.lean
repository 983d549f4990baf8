import Mathlib
import SparsePoly.Calculus
import SparsePoly.Proofs.Binary64.Integral
import SparsePoly.Proofs.Binary64.Overflow
import SparsePoly.Proofs.Binary64.Power
import SparsePoly.Proofs.Poly.Valid

/-!
# Values from the coefficients

Where the exponents that can occur are known, the terms of a polynomial are its coefficients at
these exponents, without those that are zero (`Valid.terms_eq_nonzero`).  A value does not depend on
whether they are left out, up to the sign of zero (`Valid.agree_eval`).
-/

open Float.Model Float.Model.UnpackedFloat

namespace SparsePoly

open Binary64

/-- A zero of either sign is neutral behind any number. -/
theorem Binary64.agree_add_zero (x : Float) {z : Float} (hz : (z == 0.0) = true) :
    Agree (x + z) x := by
  obtain ⟨s, hs⟩ := beq_zero_iff.1 hz
  have hadd : Akin (UnpackedFloat.add .binary64 x.toModel.unpack z.toModel.unpack)
      x.toModel.unpack := by
    rw [hs]
    cases x.toModel.unpack with
    | zero t => cases s <;> cases t <;> exact .zero _ _
    | _ => exact .refl _
  exact hadd.agree rfl (pack_unpack x.toModel).symm

/-- Of the two zeros `-0` is neutral before the other one as well. -/
theorem Binary64.neg_zero_add_float (x : Float) : -0.0 + x = x := by
  cases hx : x == 0.0 with
  | true =>
    obtain ⟨s, hs⟩ := beq_zero_iff.1 hx
    apply eq_of_unpack_eq
    rw [unpack_add, hs]
    cases s <;> rfl
  | false => exact zero_add_of_ne (by decide) hx

open Term

namespace Poly

variable {p : Poly} {t : Term} {ts : List Term} {x : Float}

/-- The coefficients at given exponents, as terms. -/
def denseTerms (p : Poly) (es : List Exponent) : List Term := es.map fun e => ⟨p.coefficient e, e⟩

theorem Valid.terms_eq_nonzero (hp : p.Valid) {es : List Exponent} (hes : es.Pairwise (· > ·))
    (h : ∀ t ∈ p.terms, t.exponent ∈ es) : p.terms = Term.nonzero (p.denseTerms es) := by
  have hdense : StrictlyDescending (p.denseTerms es) := List.pairwise_map.2 hes
  refine hp.strictlyDescending.eq_of_mem_iff hdense.nonzero fun t => ?_
  rw [mem_nonzero, denseTerms, List.mem_map]
  constructor
  · intro ht
    refine ⟨⟨t.exponent, h t ht, ?_⟩, hp.isZero_eq_false t ht⟩
    rw [hp.coefficient_of_mem ht]
  · rintro ⟨⟨e, -, rfl⟩, hz⟩
    exact mem_of_coefficient hz

/-- Terms with the value zero can be left out of a sum. -/
theorem agree_evalTerms_nonzero (h : ∀ t ∈ ts, t.isZero = true → (t.eval x == 0.0) = true) :
    Agree (evalTerms (Term.nonzero ts) x) (evalTerms ts x) := by
  unfold evalTerms Binary64.sum
  suffices ∀ {r s : Float}, Agree r s → Agree (((Term.nonzero ts).map (·.eval x)).foldl (· + ·) r)
      ((ts.map (·.eval x)).foldl (· + ·) s) from this (.refl _)
  induction ts with
  | nil => exact fun hrs => hrs
  | cons t ts ih =>
    intro r s hrs
    obtain ⟨ht, hts⟩ := List.forall_mem_cons.1 h
    cases hz : t.isZero with
    | true =>
      have hskip : Term.nonzero (t :: ts) = Term.nonzero ts := by simp [Term.nonzero, hz]
      rw [hskip, List.map_cons, List.foldl_cons]
      exact ih hts (hrs.trans (agree_add_zero s (ht hz)).symm)
    | false =>
      have hkeep : Term.nonzero (t :: ts) = t :: Term.nonzero ts := by simp [Term.nonzero, hz]
      rw [hkeep, List.map_cons, List.map_cons, List.foldl_cons, List.foldl_cons]
      exact ih hts (hrs.add (.refl _))

/-- The value from the coefficients, at a point where the powers are finite. -/
theorem Valid.agree_eval (hp : p.Valid) {es : List Exponent} (hes : es.Pairwise (· > ·))
    (h : ∀ t ∈ p.terms, t.exponent ∈ es) (hx : ∀ e ∈ es, (pow x e.toInt).isFinite = true) :
    Agree (p.eval x) (evalTerms (p.denseTerms es) x) := by
  rw [eval, hp.terms_eq_nonzero hes h]
  refine agree_evalTerms_nonzero fun t ht hz => ?_
  obtain ⟨e, he, rfl⟩ := List.mem_map.1 ht
  have hint := isInt_zero_of_beq hz
  refine mul_beq_zero hint.finite (hx e he) ?_
  rw [hint.toRat_eq, Int.cast_zero, zero_mul]

end Poly

end SparsePoly
