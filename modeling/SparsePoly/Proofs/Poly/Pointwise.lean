import Mathlib
import SparsePoly.Poly.Arithmetic
import SparsePoly.Proofs.Binary64.Bounds
import SparsePoly.Proofs.Calculus.Dense
import SparsePoly.Proofs.Poly.Laurent

/-!
# Sums by exponent

The left operand of a sum keeps its terms as they were appended, the right one is read in normal
form.  Still each coefficient of the sum is one sum of two coefficients in normal form: the terms of
the left operand stand before the one term of the right operand and are added first
(`agree_sumAt_append`).  So sums and differences list the sums and differences of the coefficients
(`lists_add_subtract`), whatever the doubles are.
-/

namespace SparsePoly

open Binary64

/-! ## Lists -/

namespace Term

variable {ts us ns : List Term} {f : Exponent → Float}

/-- A term behind others is added to their sum. -/
theorem agree_sumAt_append (hu : StrictlyDescending us) (hz : ∀ u ∈ us, u.isZero = false)
    (ts : List Term) (e : Exponent) : Agree (sumAt (ts ++ us) e) (sumAt ts e + sumAt us e) := by
  have hlen := hu.length_coefficientsAt_le e
  have hcoefficients : ∀ c ∈ coefficientsAt us e, (c == 0.0) = false := by
    intro c hc
    obtain ⟨u, hmem, rfl⟩ := List.mem_map.1 hc
    exact hz u (List.mem_filter.1 hmem).1
  unfold sumAt
  rw [coefficientsAt_append]
  match coefficientsAt us e, hlen, hcoefficients with
  | [], _, _ =>
    rw [List.append_nil]
    exact (agree_add_zero _ (by decide)).symm
  | [c], _, hc =>
    cases coefficientsAt ts e with
    | nil => exact Or.inl (zero_add_of_ne (x := 0.0) rfl (hc c (by simp))).symm
    | cons d ds =>
      simp only [leftSum, List.cons_append, List.foldl_append]
      exact .refl _

/-- Nothing is listed if all sums are zero. -/
theorem Lists.eq_nil (h : Lists ns f) (hf : ∀ e, (f e == 0.0) = true) : ns = [] := by
  refine List.eq_nil_iff_forall_not_mem.2 fun t ht => ?_
  obtain ⟨hz, hc⟩ := (h.mem_iff t).1 ht
  rw [Term.isZero, hc, hf] at hz
  cases hz

/-- The opposite terms list the opposite sums. -/
theorem Lists.negate (h : Lists ns f) : Lists (ns.map Term.negate) fun e => -f e where
  descending := List.pairwise_map.2 h.descending
  mem_iff t := by
    have hself (u : Term) : u.negate.negate = u := ext (neg_neg u.coefficient) rfl
    have hmem : t ∈ ns.map Term.negate ↔ t.negate ∈ ns := by
      rw [List.mem_map]
      constructor
      · rintro ⟨u, hu, rfl⟩
        rwa [hself]
      · exact fun ht => ⟨t.negate, ht, hself t⟩
    rw [hmem, h.mem_iff, isZero_negate]
    exact and_congr_right fun _ => neg_eq_iff_eq_neg

end Term

open Term

/-! ## Polynomials -/

namespace Poly

variable {p q : Poly} {ts : List Term} {f : Exponent → Float}

/-- What is appended in normal form is added to the coefficients. -/
theorem Valid.lists_extend (hp : p.Valid) (ht : Lists ts f) :
    Lists (p.extend ts).terms fun e => p.coefficient e + f e := by
  have hz : ∀ t ∈ ts, t.isZero = false := fun t hmem => ((ht.mem_iff t).1 hmem).1
  have hnonzero : Term.nonzero (p.terms ++ ts) = p.terms ++ ts := by
    rw [nonzero_append, nonzero_eq_self hp.isZero_eq_false, nonzero_eq_self hz]
  have hextend : (p.extend ts).Represents (p.terms ++ ts) := hp.represents.extend
  refine (hextend.valid.lists_terms.congr hextend.sums).congr fun e => ?_
  rw [hnonzero]
  have hleft : Agree (sumAt p.terms e) (p.coefficient e) :=
    (lists_self hp.strictlyDescending hp.isZero_eq_false).agree hp.lists_coefficient e
  have hright : Agree (sumAt ts e) (f e) := (lists_self ht.descending hz).agree ht e
  exact (agree_sumAt_append ht.descending hz p.terms e).trans (hleft.add hright)

theorem Valid.lists_add (hp : p.Valid) (hq : q.Valid) :
    Lists (p.add q).terms fun e => p.coefficient e + q.coefficient e :=
  hp.lists_extend hq.lists_coefficient

theorem Valid.lists_subtract (hp : p.Valid) (hq : q.Valid) :
    Lists (p.subtract q).terms fun e => p.coefficient e + -q.coefficient e :=
  hp.lists_extend hq.lists_coefficient.negate

theorem isFinite_coefficient (h : ∀ t ∈ p.terms, t.coefficient.isFinite = true) (e : Exponent) :
    (p.coefficient e).isFinite = true := by
  cases hz : p.coefficient e == 0.0 with
  | true => exact (isInt_zero_of_beq hz).finite
  | false => exact h ⟨p.coefficient e, e⟩ (mem_of_coefficient hz)

/-- Sums and differences are formed exponent by exponent from the coefficients in normal form,
whatever the doubles are and however the operands are stored: the terms are the sums that are not
zero, and each of them that is finite is the exact sum rounded once.  So a sum does not depend on
the order of its operands, and a polynomial with finite coefficients cancels itself. -/
theorem lists_add_subtract (hp : p.Valid) (hq : q.Valid) :
    Lists (p.add q).terms (fun e => p.coefficient e + q.coefficient e) ∧
    Lists (p.subtract q).terms (fun e => p.coefficient e + -q.coefficient e) ∧
    (∀ t ∈ (p.add q).terms, t.coefficient.isFinite = true → toRat t.coefficient =
      rounded (toRat (p.coefficient t.exponent) + toRat (q.coefficient t.exponent))) ∧
    (∀ t ∈ (p.subtract q).terms, t.coefficient.isFinite = true → toRat t.coefficient =
      rounded (toRat (p.coefficient t.exponent) - toRat (q.coefficient t.exponent))) ∧
    (p.add q).terms = (q.add p).terms ∧
    ((∀ t ∈ p.terms, t.coefficient.isFinite = true) → (p.subtract p).terms = []) := by
  have hadd := hp.lists_add hq
  have hsubtract := hp.lists_subtract hq
  refine ⟨hadd, hsubtract, fun t ht hf => ?_, fun t ht hf => ?_, ?_, fun hfinite => ?_⟩
  · rw [((hadd.mem_iff t).1 ht).2] at hf ⊢
    exact toRat_add_of_isFinite hf
  · rw [((hsubtract.mem_iff t).1 ht).2] at hf ⊢
    rw [toRat_add_of_isFinite hf, toRat_neg, ← sub_eq_add_neg]
  · have hswap := hq.lists_add hp
    simp only [add_comm_float (q.coefficient _)] at hswap
    exact hadd.unique hswap
  · exact (hp.lists_subtract hp).eq_nil fun e =>
      add_neg_self_beq_zero (isFinite_coefficient hfinite e)

/-- `x ^ 5 + 0.1`, stored with two terms that cancel, and `∞ x ^ 5 + 0.2`. -/
theorem lists_add_subtract_cancelling :
    let p := ofTerms [⟨1.0, 5⟩, ⟨3.0, 2⟩, ⟨-3.0, 2⟩, ⟨0.1, 0⟩]
    let q := ofTerms [⟨Binary64.infinity, 5⟩, ⟨0.2, 0⟩]
    ⟨0.1 + 0.2, 0⟩ ∈ (p.add q).terms ∧ ⟨-Binary64.infinity, 5⟩ ∈ (p.subtract q).terms ∧
      toRat (0.1 + 0.2) = rounded (toRat 0.1 + toRat 0.2) ∧
      (p.add q).terms = (q.add p).terms ∧ (p.subtract p).terms = [] := by
  intro p q
  obtain ⟨hadd, hsubtract, hround, -, hswap, hself⟩ :=
    lists_add_subtract (p := p) (q := q) (valid_ofTerms _) (valid_ofTerms _)
  have hsum : ⟨0.1 + 0.2, 0⟩ ∈ (p.add q).terms :=
    (hadd.mem_iff _).2 ⟨by decide +kernel, by decide +kernel⟩
  have hdifference : ⟨-Binary64.infinity, 5⟩ ∈ (p.subtract q).terms :=
    (hsubtract.mem_iff _).2 ⟨by decide +kernel, by decide +kernel⟩
  have hp : p.coefficient 0 = 0.1 := by decide +kernel
  have hq : q.coefficient 0 = 0.2 := by decide +kernel
  have hrounded := hround _ hsum (by decide +kernel)
  rw [hp, hq] at hrounded
  exact ⟨hsum, hdifference, hrounded, hswap, hself (by decide +kernel)⟩

end Poly

end SparsePoly
