import Mathlib
import SparsePoly.Proofs.Binary64.Integral
import SparsePoly.Proofs.Poly.Valid

/-!
# Polynomials with integral coefficients

A list of terms whose coefficients are integers is read as a Laurent polynomial over the integers
(`laurent`).  As long as the sums of like terms are exact (`ExactSums`), a polynomial that stands
for such a list has integral coefficients and the same reading (`Represents.laurent_eq`), and its
terms are those of the Laurent polynomial (`terms_eq_laurentTerms`).
-/

open SparsePoly.Binary64
open scoped LaurentPolynomial

namespace SparsePoly

namespace Term

/-! ## The Laurent polynomial of a list -/

/-- Every coefficient is an integer. -/
def Integral (ts : List Term) : Prop := ∀ t ∈ ts, IsInt t.coefficient (toInt t.coefficient)

/-- The Laurent polynomial of a term with an integral coefficient. -/
noncomputable def monomial (t : Term) : ℤ[T;T⁻¹] := .single t.exponent.toInt (toInt t.coefficient)

/-- The Laurent polynomial of a list of terms with integral coefficients. -/
noncomputable def laurent (ts : List Term) : ℤ[T;T⁻¹] := (ts.map monomial).sum

/-- The terms of a Laurent polynomial by descending exponent. -/
noncomputable def laurentTerms (P : ℤ[T;T⁻¹]) : List Term :=
  (P.coeff.support.sort (· ≥ ·)).map fun n => ⟨Float.ofInt (P.coeff n), Int32.ofInt n⟩

@[simp] theorem laurent_nil : laurent [] = 0 := rfl

@[simp] theorem laurent_cons (t : Term) (ts : List Term) :
    laurent (t :: ts) = t.monomial + laurent ts := by
  simp [laurent]

@[simp] theorem laurent_append (ts us : List Term) :
    laurent (ts ++ us) = laurent ts + laurent us := by
  simp [laurent]

theorem coeff_monomial (t : Term) (n : ℤ) :
    t.monomial.coeff n = if t.exponent.toInt = n then toInt t.coefficient else 0 :=
  Finsupp.single_apply

theorem coeff_laurent (ts : List Term) (e : Exponent) :
    (laurent ts).coeff e.toInt = ((coefficientsAt ts e).map toInt).sum := by
  induction ts with
  | nil => rfl
  | cons t ts ih =>
    rw [laurent_cons, AddMonoidAlgebra.coeff_add, Finsupp.add_apply, ih, coeff_monomial,
      coefficientsAt_cons]
    simp only [Int32.toInt_inj]
    split_ifs <;> simp

/-- The exponents of the Laurent polynomial are exponents of terms. -/
theorem exists_of_coeff_laurent_ne_zero {ts : List Term} {n : ℤ} (h : (laurent ts).coeff n ≠ 0) :
    ∃ t ∈ ts, t.exponent.toInt = n := by
  induction ts with
  | nil => exact absurd rfl h
  | cons t ts ih =>
    by_cases ht : t.exponent.toInt = n
    · exact ⟨t, List.mem_cons_self, ht⟩
    · rw [laurent_cons, AddMonoidAlgebra.coeff_add, Finsupp.add_apply, coeff_monomial, if_neg ht,
        zero_add] at h
      obtain ⟨u, hu, hn⟩ := ih h
      exact ⟨u, List.mem_cons_of_mem t hu, hn⟩

/-- Two readings of lists are equal if they agree at every exponent. -/
theorem laurent_ext {ts us : List Term}
    (h : ∀ e : Exponent, (laurent ts).coeff e.toInt = (laurent us).coeff e.toInt) :
    laurent ts = laurent us := by
  ext n
  by_cases hn : ∃ e : Exponent, e.toInt = n
  · obtain ⟨e, rfl⟩ := hn
    exact h e
  · push Not at hn
    have zero (l : List Term) : (laurent l).coeff n = 0 := by
      by_contra hne
      obtain ⟨t, -, ht⟩ := exists_of_coeff_laurent_ne_zero hne
      exact hn t.exponent ht
    rw [zero, zero]

theorem monomial_eq_zero {t : Term} (h : t.isZero = true) : t.monomial = 0 := by
  rw [monomial, (isInt_zero_of_beq h).toInt_eq, AddMonoidAlgebra.single_zero]

theorem laurent_nonzero (ts : List Term) : laurent (nonzero ts) = laurent ts := by
  induction ts with
  | nil => rfl
  | cons t ts ih =>
    cases ht : t.isZero with
    | true => simpa [nonzero, ht, monomial_eq_zero ht] using ih
    | false => simpa [nonzero, ht] using ih

theorem toInt_ne_zero {t : Term} (hi : IsInt t.coefficient (toInt t.coefficient))
    (ht : t.isZero = false) : toInt t.coefficient ≠ 0 := by
  intro h
  rw [isZero, hi.beq_zero.2 h] at ht
  cases ht

/-! ## Exact sums -/

/-- The coefficients are integers, and where several terms have the same exponent, the sums from the
left are at most `2 ^ 53`. -/
structure ExactSums (ts : List Term) : Prop where
  integral : Integral ts
  bounded : ∀ e ns, ns <+: (coefficientsAt ts e).map toInt → 2 ≤ ns.length → |ns.sum| ≤ 2 ^ 53

theorem ExactSums.left {ts us : List Term} (h : ExactSums (ts ++ us)) : ExactSums ts where
  integral t ht := h.integral t (List.mem_append_left us ht)
  bounded e ns hns := by
    refine h.bounded e ns (hns.trans ?_)
    rw [coefficientsAt_append, List.map_append]
    exact List.prefix_append _ _

theorem isInt_foldl {cs : List Float} {x : Float} {n : ℤ} (hx : IsInt x n)
    (hcs : ∀ c ∈ cs, IsInt c (toInt c))
    (hb : ∀ ns, ns <+: cs.map toInt → ns ≠ [] → |n + ns.sum| ≤ 2 ^ 53) :
    IsInt (cs.foldl (· + ·) x) (n + (cs.map toInt).sum) := by
  induction cs generalizing x n with
  | nil => simpa using hx
  | cons c cs ih =>
    have hc := hcs c List.mem_cons_self
    have hadd : IsInt (x + c) (n + toInt c) := by
      refine hx.add hc ?_
      simpa using hb [toInt c] (by simp) (by simp)
    have key := ih hadd (fun d hd => hcs d (List.mem_cons_of_mem c hd)) fun ns hns _ => by
      have := hb (toInt c :: ns) (by simpa [List.prefix_cons_inj] using hns) (by simp)
      rwa [List.sum_cons, ← add_assoc] at this
    rw [List.map_cons, List.sum_cons, ← add_assoc]
    exact key

/-- Exact sums are the coefficients of the Laurent polynomial. -/
theorem ExactSums.isInt_sumAt {ts : List Term} (h : ExactSums ts) (e : Exponent) :
    IsInt (sumAt ts e) ((laurent ts).coeff e.toInt) := by
  have hb := h.bounded e
  have hcs : ∀ c ∈ coefficientsAt ts e, IsInt c (toInt c) := by
    intro c hc
    obtain ⟨t, ht, rfl⟩ := List.mem_map.1 hc
    exact h.integral t (List.mem_filter.1 ht).1
  rw [coeff_laurent, sumAt]
  cases hl : coefficientsAt ts e with
  | nil => exact isInt_zero_of_beq rfl
  | cons c cs =>
    rw [hl] at hb hcs
    refine isInt_foldl (hcs c List.mem_cons_self)
      (fun d hd => hcs d (List.mem_cons_of_mem c hd)) fun ns hns hne => ?_
    have := hb (toInt c :: ns) (by simpa [List.prefix_cons_inj] using hns)
      (by simpa [Nat.one_le_iff_ne_zero] using hne)
    rwa [List.sum_cons] at this

/-- A strictly descending list has no two terms of the same exponent. -/
theorem StrictlyDescending.length_coefficientsAt_le : ∀ {ts : List Term},
    StrictlyDescending ts → ∀ e, (coefficientsAt ts e).length ≤ 1
  | [], _, _ => by simp [coefficientsAt]
  | t :: ts, h, e => by
    obtain ⟨ht, hts⟩ := List.pairwise_cons.1 h
    rw [coefficientsAt_cons]
    split_ifs with he
    · rw [coefficientsAt_eq_nil fun u hu heq => ?_]
      · simp
      · have := ht u hu
        rw [heq, ← he] at this
        exact Int32.lt_irrefl this
    · exact StrictlyDescending.length_coefficientsAt_le hts e

theorem StrictlyDescending.exactSums {ts : List Term} (h : StrictlyDescending ts)
    (hi : Integral ts) : ExactSums ts where
  integral := hi
  bounded e ns hns hlen := by
    have h₁ := hns.length_le
    have h₂ := h.length_coefficientsAt_le e
    rw [List.length_map] at h₁
    omega

theorem toInt_ofInt {n : ℤ} (h : ∃ e : Exponent, e.toInt = n) : (Int32.ofInt n).toInt = n := by
  obtain ⟨e, rfl⟩ := h
  rw [Int32.ofInt_toInt]

/-- The terms of a Laurent polynomial list its coefficients. -/
theorem lists_laurentTerms {P : ℤ[T;T⁻¹]} {f : Exponent → Float}
    (hf : ∀ e, IsInt (f e) (P.coeff e.toInt))
    (hP : ∀ n, P.coeff n ≠ 0 → ∃ e : Exponent, e.toInt = n) : Lists (laurentTerms P) f where
  descending := by
    refine List.pairwise_map.2 ?_
    refine ((Finset.sortedGT_sort P.coeff.support).pairwise).imp_of_mem fun {a b} ha hb hab => ?_
    rw [Finset.mem_sort, Finsupp.mem_support_iff] at ha hb
    rw [Int32.lt_iff_toInt_lt, toInt_ofInt (hP a ha), toInt_ofInt (hP b hb)]
    exact hab
  mem_iff t := by
    simp only [laurentTerms, List.mem_map, Finset.mem_sort, Finsupp.mem_support_iff]
    have value (e : Exponent) (h : P.coeff e.toInt ≠ 0) :
        Float.ofInt (P.coeff e.toInt) = f e := (hf e).ofInt.eq (hf e) h
    constructor
    · rintro ⟨n, hn, rfl⟩
      obtain ⟨e, rfl⟩ := hP n hn
      simp only [isZero, Int32.ofInt_toInt, value e hn, and_true]
      rw [← Bool.not_eq_true, (hf e).beq_zero]
      exact hn
    · rintro ⟨hz, hc⟩
      have hne : P.coeff t.exponent.toInt ≠ 0 := by
        rw [← (hf t.exponent).beq_zero.ne, ← hc]
        simpa [isZero] using hz
      exact ⟨t.exponent.toInt, hne, by rw [value _ hne, Int32.ofInt_toInt, ← hc]⟩

end Term

open Term

/-! ## The Laurent polynomial of a polynomial -/

namespace Poly

variable {p : Poly} {ts : List Term}

/-- Every coefficient of the normal form is an integer. -/
def Integral (p : Poly) : Prop := Term.Integral p.terms

/-- The Laurent polynomial of a polynomial with integral coefficients. -/
noncomputable def laurent (p : Poly) : ℤ[T;T⁻¹] := Term.laurent p.terms

/-- The coefficients of `a x + b`. -/
theorem linear_integral {a b : Float} {m n : ℤ} (hp : p.terms = [⟨a, 1⟩, ⟨b, 0⟩]) (ha : IsInt a m)
    (hb : IsInt b n) : p.Integral ∧
      ∀ k, p.laurent.coeff k = if k = 1 then m else if k = 0 then n else 0 := by
  have h₁ : (1 : Exponent).toInt = 1 := rfl
  have h₀ : (0 : Exponent).toInt = 0 := rfl
  constructor
  · simp only [Integral, hp, Term.Integral, List.forall_mem_cons, ha.toInt_eq, hb.toInt_eq]
    exact ⟨ha, hb, by simp⟩
  · intro k
    simp only [laurent, hp, laurent_cons, laurent_nil, AddMonoidAlgebra.coeff_add,
      Finsupp.add_apply, coeff_monomial, ha.toInt_eq, hb.toInt_eq, h₁, h₀,
      AddMonoidAlgebra.coeff_zero, Finsupp.zero_apply]
    split_ifs <;> omega

theorem Valid.isInt_sumAt (h : p.Valid) (hi : p.Integral) (e : Exponent) :
    IsInt (sumAt p.terms e) (p.laurent.coeff e.toInt) :=
  (h.strictlyDescending.exactSums hi).isInt_sumAt e

/-- The terms of a polynomial with integral coefficients are those of its Laurent polynomial. -/
theorem terms_eq_laurentTerms (h : p.Valid) (hi : p.Integral) :
    p.terms = laurentTerms p.laurent :=
  (lists_self h.strictlyDescending h.isZero_eq_false).unique <|
    lists_laurentTerms (h.isInt_sumAt hi) fun n hn => by
      obtain ⟨t, -, ht⟩ := exists_of_coeff_laurent_ne_zero hn
      exact ⟨t.exponent, ht⟩

/-- A polynomial that stands for a list with exact sums is the Laurent polynomial of the list. -/
theorem Represents.laurent_eq (h : p.Represents ts) (hs : ExactSums (Term.nonzero ts)) :
    p.Integral ∧ p.laurent = Term.laurent ts := by
  have hl : Lists p.terms (sumAt (Term.nonzero ts)) := h.valid.lists_terms.congr h.sums
  have hi : p.Integral := by
    intro t ht
    have := hs.isInt_sumAt t.exponent
    rw [← ((hl.mem_iff t).1 ht).2] at this
    rwa [this.toInt_eq]
  refine ⟨hi, ?_⟩
  rw [← laurent_nonzero ts]
  refine laurent_ext fun e => ?_
  have h₁ := h.valid.isInt_sumAt hi e
  have h₂ := hs.isInt_sumAt e
  rcases (lists_self h.valid.strictlyDescending h.valid.isZero_eq_false).agree hl e with
    heq | ⟨hz₁, hz₂⟩
  · rw [heq] at h₁
    exact h₁.unique h₂
  · exact (h₁.beq_zero.1 hz₁).trans (h₂.beq_zero.1 hz₂).symm

end Poly

end SparsePoly
