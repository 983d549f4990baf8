import Mathlib
import SparsePoly.Proofs.Poly.NormalForm

/-!
# Polynomials that were built by appending

Appending maintains `Valid`: no stored term is zero, and what is known about the order is true.
`Represents p ts` says that a valid polynomial stands for the list of all terms that were appended
to it.  Appending and looking maintain it (`Represents.append`, `Represents.settle`), and the terms
that are seen are then the `normalForm` of that list (`Represents.terms_eq`).
-/

open SparsePoly.Binary64

namespace SparsePoly

/-! ## The reference list -/

namespace Term

/-- The terms that are not zero. -/
def nonzero (ts : List Term) : List Term := ts.filter (!·.isZero)

/-- The exponents of a list, each of them once, the highest first. -/
def exponents (ts : List Term) : List Exponent :=
  (ts.map Term.exponent).dedup.mergeSort fun a b => b ≤ a

/-- The normal form of a list: its terms that are not zero, grouped by exponent, each group added
from left to right, without the groups whose sum is zero. -/
def normalForm (ts : List Term) : List Term :=
  nonzero ((exponents (nonzero ts)).map fun e => ⟨sumAt (nonzero ts) e, e⟩)

theorem mem_nonzero {ts : List Term} {t : Term} :
    t ∈ nonzero ts ↔ t ∈ ts ∧ t.isZero = false := by
  simp [nonzero]

theorem nonzero_append (ts us : List Term) : nonzero (ts ++ us) = nonzero ts ++ nonzero us :=
  List.filter_append ..

theorem nonzero_eq_self {ts : List Term} (h : ∀ t ∈ ts, t.isZero = false) : nonzero ts = ts :=
  List.filter_eq_self.2 fun t ht => by simp [h t ht]

theorem isZero_negate (t : Term) : t.negate.isZero = t.isZero := neg_beq_zero t.coefficient

theorem nonzero_map_negate (ts : List Term) :
    nonzero (ts.map negate) = (nonzero ts).map negate := by
  rw [nonzero, List.filter_map]
  congr 1
  exact List.filter_congr fun t _ => congrArg not (isZero_negate t)

theorem StrictlyDescending.nonzero {ts : List Term} (h : StrictlyDescending ts) :
    StrictlyDescending (Term.nonzero ts) := List.Pairwise.filter _ h

theorem mem_exponents {ts : List Term} {e : Exponent} :
    e ∈ exponents ts ↔ ∃ t ∈ ts, t.exponent = e := by
  simp [exponents, List.mem_mergeSort]

theorem exponents_pairwise (ts : List Term) :
    (exponents ts).Pairwise fun a b => b < a := by
  have hle := List.pairwise_mergeSort (descends_trans id) (descends_total id)
    (ts.map Term.exponent).dedup
  have hnodup : (exponents ts).Nodup :=
    (List.mergeSort_perm _ _).nodup_iff.2 (List.nodup_dedup _)
  refine (List.pairwise_and_iff.2 ⟨hle, hnodup⟩).imp ?_
  rintro a b ⟨hab, hne⟩
  exact Int32.lt_of_le_of_ne (by simpa using hab) hne.symm

theorem lists_normalForm (ts : List Term) : Lists (normalForm ts) (sumAt (nonzero ts)) where
  descending := (List.pairwise_map.2 (exponents_pairwise _)).filter _
  mem_iff t := by
    rw [normalForm, mem_nonzero, and_comm]
    refine and_congr_right fun ht => ?_
    simp only [List.mem_map, mem_exponents]
    constructor
    · rintro ⟨e, -, rfl⟩
      rfl
    · intro hc
      refine ⟨t.exponent, ?_, by rw [← hc]⟩
      by_contra hnone
      push Not at hnone
      rw [isZero, hc, sumAt_eq_zero hnone] at ht
      cases ht

end Term

open Term

/-! ## Valid polynomials -/

/-- What is known about the order is true of the terms. -/
def Order.Describes : Order → List Term → Prop
  | .arbitrary, _ => True
  | .descending, ts => Descending ts
  | .strict, ts => StrictlyDescending ts

/-- What is in a transitive relation to the last term is so to all of them. -/
theorem pairwise_concat {r : Term → Term → Prop} (trans : ∀ {a b c}, r a b → r b c → r a c)
    {us : List Term} {last t : Term} (h : (us ++ [last]).Pairwise r) (ht : r last t) :
    (us ++ [last] ++ [t]).Pairwise r := by
  refine List.pairwise_append.2 ⟨h, List.pairwise_singleton _ t, fun a ha b hb => ?_⟩
  obtain rfl := List.mem_singleton.1 hb
  rcases List.mem_append.1 ha with ha | ha
  · exact trans ((List.pairwise_append.1 h).2.2 a ha last (by simp)) ht
  · obtain rfl := List.mem_singleton.1 ha
    exact ht

theorem Order.Describes.after {known : Order} {ts : List Term} (h : known.Describes ts)
    (t : Term) :
    (known.after (ts.getLast?.map Term.exponent) t.exponent).Describes (ts ++ [t]) := by
  rcases List.eq_nil_or_concat' ts with rfl | ⟨us, last, rfl⟩
  · exact List.pairwise_singleton _ t
  rw [List.getLast?_concat, Option.map_some]
  have weaken : known.Describes (us ++ [last]) → known ≠ .arbitrary →
      Descending (us ++ [last]) := by
    cases known with
    | arbitrary => exact fun _ hne => absurd rfl hne
    | descending => exact fun h _ => h
    | strict => exact fun h _ => h.imp Int32.le_of_lt
  unfold Order.after
  simp only
  split_ifs with hs hd
  · obtain ⟨rfl, hlt⟩ := hs
    exact pairwise_concat (r := fun a b => b.exponent < a.exponent)
      (fun hab hbc => Int32.lt_trans hbc hab) h hlt
  · exact pairwise_concat (r := fun a b => b.exponent ≤ a.exponent)
      (fun hab hbc => Int32.le_trans hbc hab) (weaken h hd.1) hd.2
  · trivial

namespace Poly

variable {p : Poly} {ts us : List Term}

/-- No stored term is zero, and what is known about the order is true. -/
structure Valid (p : Poly) : Prop where
  nonzero : ∀ t ∈ p.stored.toList, t.isZero = false
  order : p.order.Describes p.stored.toList

theorem valid_zero : zero.Valid where
  nonzero := by simp [zero]
  order := List.Pairwise.nil

theorem Valid.append (h : p.Valid) (t : Term) : (p.append t).Valid := by
  cases ht : t.isZero with
  | true =>
    rw [append_of_isZero ht]
    exact h
  | false =>
    constructor
    · rw [toList_stored_append ht]
      intro u hu
      rcases List.mem_append.1 hu with hu | hu
      · exact h.nonzero u hu
      · rwa [List.mem_singleton.1 hu]
    · rw [toList_stored_append ht]
      have := h.order.after t
      rw [Array.getLast?_toList] at this
      simpa [Poly.append, ht] using this

theorem Valid.extend (h : p.Valid) : (p.extend ts).Valid := by
  induction ts generalizing p with
  | nil => exact h
  | cons t ts ih => exact ih (h.append t)

theorem valid_ofTerms (ts : List Term) : (ofTerms ts).Valid := valid_zero.extend

/-- The terms that are seen list the sums of the stored terms. -/
theorem Valid.lists_terms (h : p.Valid) : Lists p.terms (sumAt p.stored.toList) := by
  have horder := h.order
  unfold terms
  cases ho : p.order with
  | strict =>
    rw [ho] at horder
    exact lists_self horder h.nonzero
  | descending =>
    rw [ho] at horder
    exact lists_combine horder
  | arbitrary =>
    have := lists_combine (descending_sortDescending p.stored.toList)
    rwa [funext (sumAt_sortDescending p.stored.toList)] at this

theorem Valid.isZero_eq_false (h : p.Valid) : ∀ t ∈ p.terms, t.isZero = false :=
  fun t ht => ((h.lists_terms.mem_iff t).1 ht).1

theorem Valid.strictlyDescending (h : p.Valid) : StrictlyDescending p.terms :=
  h.lists_terms.descending

theorem Valid.coefficient_of_mem (hp : p.Valid) {t : Term} (ht : t ∈ p.terms) :
    p.coefficient t.exponent = t.coefficient := by
  unfold coefficient
  cases hfind : p.terms.find? (·.exponent = t.exponent) with
  | none => exact absurd (List.find?_eq_none.1 hfind t ht) (by simp)
  | some u =>
    have hexponent : u.exponent = t.exponent := by simpa using List.find?_some hfind
    have hu := ((hp.lists_terms.mem_iff u).1 (List.mem_of_find?_eq_some hfind)).2
    rw [hexponent, ← ((hp.lists_terms.mem_iff t).1 ht).2] at hu
    exact hu

theorem mem_of_coefficient {e : Exponent} (h : (p.coefficient e == 0.0) = false) :
    ⟨p.coefficient e, e⟩ ∈ p.terms := by
  unfold coefficient at *
  cases hfind : p.terms.find? (·.exponent = e) with
  | none =>
    rw [hfind] at h
    exact absurd h (by decide)
  | some u =>
    obtain rfl : u.exponent = e := by simpa using List.find?_some hfind
    exact List.mem_of_find?_eq_some hfind

/-- The terms list the coefficients. -/
theorem Valid.lists_coefficient (hp : p.Valid) : Lists p.terms p.coefficient where
  descending := hp.strictlyDescending
  mem_iff t := by
    constructor
    · exact fun ht => ⟨hp.isZero_eq_false t ht, (hp.coefficient_of_mem ht).symm⟩
    · rintro ⟨hz, hc⟩
      have hmem := mem_of_coefficient (p := p) (e := t.exponent) (by rwa [← hc])
      rwa [← hc] at hmem

theorem Valid.settle (h : p.Valid) : p.settle.Valid where
  nonzero := h.isZero_eq_false
  order := h.strictlyDescending

/-! ## What a polynomial stands for -/

/-- The polynomial is valid, and its sums are those of the terms that were appended. -/
structure Represents (p : Poly) (ts : List Term) : Prop where
  valid : p.Valid
  sums : ∀ e, Agree (sumAt p.stored.toList e) (sumAt (Term.nonzero ts) e)

theorem represents_zero : zero.Represents [] where
  valid := valid_zero
  sums _ := Agree.refl _

/-- Appending a term adds it to the sum of its exponent, also when that sum was zero. -/
theorem Represents.append (h : p.Represents ts) (t : Term) :
    (p.append t).Represents (ts ++ [t]) where
  valid := h.valid.append t
  sums e := by
    rw [nonzero_append]
    cases ht : t.isZero with
    | true =>
      rw [append_of_isZero ht]
      simpa [Term.nonzero, ht] using h.sums e
    | false =>
      have hself : Term.nonzero [t] = [t] := nonzero_eq_self (by simpa using ht)
      rw [toList_stored_append ht, hself, sumAt_append_singleton _ ht,
        sumAt_append_singleton _ ht]
      split_ifs
      · exact Or.inl ((h.sums e).add_right ht)
      · exact h.sums e

theorem Represents.extend (h : p.Represents ts) : (p.extend us).Represents (ts ++ us) := by
  induction us generalizing p ts with
  | nil => simpa using h
  | cons u us ih => simpa using ih (h.append u)

theorem represents_ofTerms (ts : List Term) : (ofTerms ts).Represents ts :=
  represents_zero.extend

/-- Looking may drop terms that cancel, but no sum changes by more than the sign of a zero. -/
theorem Represents.settle (h : p.Represents ts) : p.settle.Represents ts where
  valid := h.valid.settle
  sums e := by
    have hs := h.valid.settle.lists_terms
    rw [terms_settle] at hs
    exact (hs.agree h.valid.lists_terms e).trans (h.sums e)

/-- The terms that are seen are the normal form of the terms that were appended. -/
theorem Represents.terms_eq (h : p.Represents ts) : p.terms = normalForm ts :=
  (h.valid.lists_terms.congr h.sums).unique (lists_normalForm ts)

/-- Terms by strictly descending exponent are their own normal form, the zero terms apart. -/
theorem terms_ofTerms (hs : StrictlyDescending ts) : (ofTerms ts).terms = Term.nonzero ts := by
  rw [(represents_ofTerms ts).terms_eq]
  exact (lists_normalForm ts).unique
    (lists_self hs.nonzero fun t ht => (mem_nonzero.1 ht).2)

/-- A valid polynomial stands for the terms that are seen. -/
theorem Valid.represents (h : p.Valid) : p.Represents p.terms where
  valid := h
  sums e := by
    rw [nonzero_eq_self h.isZero_eq_false]
    exact h.lists_terms.agree (lists_self h.strictlyDescending h.isZero_eq_false) e

end Poly

end SparsePoly
