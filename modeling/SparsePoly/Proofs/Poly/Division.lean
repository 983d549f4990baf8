import Mathlib
import SparsePoly.Poly.Arithmetic
import SparsePoly.Proofs.Poly.Reduction
import SparsePoly.Proofs.Poly.Ring

/-!
# Long division

While a long division runs, the dividend is the quotient so far times the divisor plus what remains
(`Progress`).  A step keeps that as long as what it forms is exact (`Progress.next`) and lowers the
degree of the remainder, so the division ends with the quotient and remainder of the ring
(`divide_laurent`).
-/

open SparsePoly.Binary64 SparsePoly.Laurent
open scoped LaurentPolynomial

namespace SparsePoly

open Term

/-! ## Leading terms -/

namespace Term

variable {t : Term} {ts : List Term}

theorem IntegralForm.le_of_coeff_ne_zero (h : IntegralForm (t :: ts)) {n : ℤ}
    (hn : (laurent (t :: ts)).coeff n ≠ 0) : n ≤ t.exponent.toInt := by
  obtain ⟨u, hu, rfl⟩ := exists_of_coeff_laurent_ne_zero hn
  rcases List.mem_cons.1 hu with rfl | hu
  · exact le_rfl
  · exact (Int32.lt_iff_toInt_lt.1 ((List.pairwise_cons.1 h.descending).1 u hu)).le

/-- The first term of a normal form is the leading one. -/
theorem IntegralForm.top_eq (h : IntegralForm (t :: ts)) :
    top (laurent (t :: ts)) = t.exponent.toInt :=
  Laurent.top_eq (h.coeff_ne_zero List.mem_cons_self) fun _ => h.le_of_coeff_ne_zero

theorem IntegralForm.coeff_top (h : IntegralForm (t :: ts)) :
    (laurent (t :: ts)).coeff (top (laurent (t :: ts))) = toInt t.coefficient := by
  rw [h.top_eq, h.coeff_eq List.mem_cons_self]

theorem IntegralForm.lower_eq (h : IntegralForm (t :: ts)) :
    lower (laurent (t :: ts)) = laurent ts := by
  rw [lower, lead, h.coeff_top, h.top_eq, laurent_cons, monomial, add_sub_cancel_left]

theorem IntegralForm.laurent_ne_zero (h : IntegralForm (t :: ts)) : laurent (t :: ts) ≠ 0 := by
  intro h₀
  have := h.coeff_ne_zero List.mem_cons_self
  rw [h₀] at this
  exact this rfl

theorem integralForm_singleton (hi : IsInt t.coefficient (toInt t.coefficient))
    (hz : t.isZero = false) : IntegralForm [t] where
  descending := List.pairwise_singleton _ t
  isZero := by simpa using hz
  integral := by simpa [Integral] using hi

end Term

namespace Poly

variable {p q r : Poly} {P Q R D : ℤ[T;T⁻¹]} {t : Term}

theorem Reads.eq_zero (h : p.Reads P) (hl : p.leadingTerm? = none) : P = 0 := by
  rw [leadingTerm?, List.head?_eq_none_iff] at hl
  rw [← h.laurent_terms, hl, laurent_nil]

/-- What the leading term of a polynomial says of its Laurent polynomial. -/
structure Leads (t : Term) (P : ℤ[T;T⁻¹]) : Prop where
  top_eq : top P = t.exponent.toInt
  isInt : IsInt t.coefficient (P.coeff (top P))
  ne_zero : P ≠ 0

theorem Reads.leads (h : p.Reads P) (hl : p.leadingTerm? = some t) :
    Leads t P ∧ p.tail.Reads (lower P) := by
  have hform := h.form
  rw [leadingTerm?, List.head?_eq_some_iff] at hl
  obtain ⟨ts, hts⟩ := hl
  rw [hts] at hform
  rw [← h.laurent_terms, hts]
  refine ⟨⟨hform.top_eq, ?_, hform.laurent_ne_zero⟩, ?_⟩
  · rw [hform.coeff_top]
    exact hform.integral t List.mem_cons_self
  · rw [hform.lower_eq, tail, hts]
    exact reads_ofTerms (hform.sublist (List.sublist_cons_self t ts))

/-! ## One step -/

/-- The leading term and the rest of a divisor with an invertible leading coefficient. -/
structure Divisor (lead : Term) (tail : Poly) (D : ℤ[T;T⁻¹]) : Prop where
  leads : Leads lead D
  tail : tail.Reads (lower D)
  unit : IsUnit (D.coeff (top D))

/-- A division of `P` by `D` under way: the quotient and the remainder read as `Q` and `R`, the rest
of the division is exact, and its steps have lower exponents than those of the quotient. -/
structure Progress (P D : ℤ[T;T⁻¹]) (d : Division) (Q R : ℤ[T;T⁻¹]) : Prop where
  quotient : d.quotient.Reads Q
  remainder : d.remainder.Reads R
  identity : P = Q * D + R
  nonneg : ∀ n, Q.coeff n ≠ 0 → 0 ≤ n
  above : ∀ n k, Q.coeff n ≠ 0 → R.coeff k ≠ 0 → k < n + top D
  exact : DivisionExact D R

variable {policy : SnapPolicy} {lead : Term} {tail : Poly} {d : Division}

/-- The quotient of the leading terms is the term that the step needs. -/
theorem Divisor.divide_eq (hd : Divisor lead tail D) (ht : Leads t R) (hf : Fits D R)
    (hrange : top R - top D < 2 ^ 31) : ∃ s, t.divide lead = .ok s ∧ IntegralForm [s] ∧
      s.monomial = step D R ∧ s.exponent.toInt = top R - top D := by
  obtain ⟨e, he⟩ := exists_exponent (n := top R - top D) ⟨by linarith [hf.2], hrange⟩
  have hminus : t.exponent.minus lead.exponent = .ok e := by
    rw [Exponent.minus_eq_ok_iff, he, ht.top_eq, hd.leads.top_eq]
  have hint : IsInt (t.coefficient / lead.coefficient) (R.coeff (top R) * D.coeff (top D)) :=
    ht.isInt.div_unit hd.leads.isInt hd.unit
  have hne : R.coeff (top R) * D.coeff (top D) ≠ 0 :=
    mul_ne_zero (coeff_top_ne_zero ht.ne_zero) hd.unit.ne_zero
  refine ⟨⟨t.coefficient / lead.coefficient, e⟩, ?_, integralForm_singleton ?_ ?_, ?_, he⟩
  · rw [Term.divide, hminus]
    rfl
  · rwa [hint.toInt_eq]
  · rw [Term.isZero, ← Bool.not_eq_true, hint.beq_zero]
    exact hne
  · rw [Term.monomial, step, he, hint.toInt_eq]

/-- The product of the step and the rest of the divisor stays in range. -/
theorem Divisor.productExact (hd : Divisor lead tail D) (ht : Leads t R) (hf : Fits D R)
    (h : StepExact D R) : ProductExact (lower D) (step D R) := by
  have coeff_step (j : ℤ) : (step D R).coeff j =
      if top R - top D = j then R.coeff (top R) * D.coeff (top D) else 0 := Finsupp.single_apply
  have coeff_upper_mul (k n : ℤ) : (upper k (lower D) * step D R).coeff n =
      if k ≤ n - (top R - top D) then (lower D * step D R).coeff n else 0 := by
    rw [coeff_lower_mul_step, step, AddMonoidAlgebra.coeff_mul_single_apply, coeff_upper,
      sub_eq_add_neg n]
    split_ifs <;> ring
  refine ⟨fun i j => ?_, fun k n => ?_, fun i j hi hj => ?_⟩
  · have := h.products (i + (top R - top D))
    rw [coeff_lower_mul_step, add_sub_cancel_right] at this
    rw [coeff_step]
    split_ifs
    · exact this
    · simp
  · rw [coeff_upper_mul]
    split_ifs
    · exact h.products n
    · simp
  · have hj : j = top R - top D := by
      by_contra hne
      rw [coeff_step, if_neg (Ne.symm hne)] at hj
      exact hj rfl
    have hi' := lt_top_of_coeff_lower_ne_zero hi
    have hlow : -2 ^ 31 ≤ i := by
      rw [← hd.tail.laurent_terms] at hi
      obtain ⟨u, -, rfl⟩ := exists_of_coeff_laurent_ne_zero hi
      exact u.exponent.le_toInt
    have hhigh : top R < 2 ^ 31 := by
      rw [ht.top_eq]
      exact t.exponent.toInt_lt
    have := hf.2
    constructor <;> omega

/-- One step of a long division. -/
theorem Progress.next (h : Progress P D d Q R) (hd : Divisor lead tail D) (hf : Fits D R)
    (hrange : top R - top D < 2 ^ 31) (ht : d.remainder.leadingTerm? = some t)
    (policy : SnapPolicy) : ∃ s product, t.divide lead = .ok s ∧
      Poly.multiply policy tail (ofTerms [s]) = .ok product ∧
      Progress P D ⟨d.quotient.append s, d.remainder.tail.subtract product⟩
        (Q + step D R) (Laurent.reduce D R) := by
  obtain ⟨hlead, htail⟩ := h.remainder.leads ht
  have hexact := h.exact.stepExact hf
  obtain ⟨s, hs, hform, hmon, hexp⟩ := hd.divide_eq hlead hf hrange
  have hread : Term.laurent [s] = step D R := by rw [laurent_cons, laurent_nil, add_zero, hmon]
  have hstep : (ofTerms [s]).Reads (step D R) := by
    rw [← hread]
    exact reads_ofTerms hform
  obtain ⟨product, hmul, hproduct⟩ :=
    hd.tail.multiply hstep (hd.productExact hlead hf hexact) policy
  have hcoeff : ∀ n, (step D R).coeff n ≠ 0 → n = top R - top D := by
    intro n hn
    by_contra hne
    exact hn (Finsupp.single_apply.trans (if_neg (Ne.symm hne)))
  have hR : R.coeff (top R) ≠ 0 := coeff_top_ne_zero hf.1
  refine ⟨s, product, hs, hmul, ?_, ?_, ?_, ?_, ?_, h.exact.reduce hf⟩
  · -- the exponents of the quotient are above that of the step
    have hsum : SumExact Q (Term.laurent [s]) := by
      intro n hQ hn
      rw [hread] at hn
      have := h.above n (top R) hQ hR
      rw [hcoeff n hn] at this
      omega
    have := h.quotient.extend hform hsum
    rwa [hread] at this
  · rw [reduce_eq hd.unit]
    exact htail.subtract hproduct hexact.sums
  · rw [h.identity, Laurent.reduce]
    ring
  · intro n hn
    by_cases hQ : Q.coeff n = 0
    · rw [AddMonoidAlgebra.coeff_add, Finsupp.add_apply, hQ, zero_add] at hn
      have := hcoeff n hn
      have := hf.2
      omega
    · exact h.nonneg n hQ
  · intro n k hn hk
    have hk := lt_top_of_coeff_reduce_ne_zero hd.unit hk
    by_cases hQ : Q.coeff n = 0
    · rw [AddMonoidAlgebra.coeff_add, Finsupp.add_apply, hQ, zero_add] at hn
      have := hcoeff n hn
      omega
    · have := h.above n (top R) hQ hR
      omega

/-! ## The whole division -/

/-- The division is over: what remains is below the divisor. -/
theorem exists_done (h : Progress P D d Q R) (hR : ∀ n, R.coeff n ≠ 0 → n < top D) :
    ∃ e Q' R', Except.ok d = (.ok e : Except Error Division) ∧ Progress P D e Q' R' ∧
      ∀ n, R'.coeff n ≠ 0 → n < top D :=
  ⟨d, Q, R, rfl, h, hR⟩

/-- The remaining steps keep the progress and end below the divisor. -/
theorem Progress.divideFrom (hd : Divisor lead tail D) (policy : SnapPolicy) :
    ∀ (steps : ℕ) {d : Division} {Q R : ℤ[T;T⁻¹]}, Progress P D d Q R →
      (∀ n, R.coeff n ≠ 0 → n - top D < steps) → (∀ n, R.coeff n ≠ 0 → n - top D < 2 ^ 31) →
      ∃ e Q' R', Poly.divideFrom policy lead tail steps d = .ok e ∧ Progress P D e Q' R' ∧
        ∀ n, R'.coeff n ≠ 0 → n < top D
  | 0, d, Q, R, h, hsteps, _ => exists_done h fun n hn => by simpa using hsteps n hn
  | steps + 1, d, Q, R, h, hsteps, hrange => by
    unfold Poly.divideFrom
    cases ht : d.remainder.leadingTerm? with
    | none =>
      have hR := h.remainder.eq_zero ht
      exact exists_done h fun n hn => absurd (by rw [hR]; rfl) hn
    | some t =>
      obtain ⟨hlead, -⟩ := h.remainder.leads ht
      have hcoeff := coeff_top_ne_zero hlead.ne_zero
      simp only
      split_ifs with hlt
      · refine exists_done h fun n hn => ?_
        rw [Int32.lt_iff_toInt_lt, ← hlead.top_eq, ← hd.leads.top_eq] at hlt
        exact (le_top hn).trans_lt hlt
      · have hf : Fits D R := by
          refine ⟨hlead.ne_zero, ?_⟩
          rw [Int32.lt_iff_toInt_lt, ← hlead.top_eq, ← hd.leads.top_eq] at hlt
          exact not_lt.1 hlt
        obtain ⟨s, product, hs, hmul, hnext⟩ := h.next hd hf (hrange _ hcoeff) ht policy
        have hlower : ∀ n, (Laurent.reduce D R).coeff n ≠ 0 → n < top R := fun n hn =>
          lt_top_of_coeff_reduce_ne_zero hd.unit hn
        obtain ⟨e, Q', R', he, hp, hR'⟩ := Progress.divideFrom hd policy steps hnext
          (fun n hn => by
            have := hlower n hn
            have := hsteps _ hcoeff
            push_cast at this
            omega)
          (fun n hn => by
            have := hlower n hn
            have := hrange _ hcoeff
            omega)
        exact ⟨e, Q', R', by rw [hs]; simp only [bind, Except.bind, hmul]; exact he, hp, hR'⟩

theorem Reads.le_degree (h : p.Reads P) {n : ℤ} (hn : P.coeff n ≠ 0) : n ≤ p.degree.toInt := by
  cases ht : p.leadingTerm? with
  | none =>
    rw [h.eq_zero ht] at hn
    exact absurd rfl hn
  | some t =>
    have htop := (h.leads ht).1.top_eq
    rw [degree_eq_of_leadingTerm ht, ← htop]
    exact le_top hn

theorem isUnit_of_unit {x : Float} {n : ℤ} (h : IsInt x n) (hx : x = 1.0 ∨ x = -1.0) :
    IsUnit n := by
  have one : IsInt 1.0 1 := isInt_of_isNat (by decide)
  rcases hx with rfl | rfl
  · rw [h.unique one]
    exact isUnit_one
  · rw [h.unique one.neg]
    exact isUnit_one.neg

theorem Reads.divisor (h : q.Reads D) (hq : q.leadingCoefficient = 1.0 ∨
    q.leadingCoefficient = -1.0) : ∃ t, q.leadingTerm? = some t ∧ Divisor t q.tail D ∧
      top D = q.degree.toInt := by
  cases ht : q.leadingTerm? with
  | none =>
    rw [leadingCoefficient, ht, Option.elim_none] at hq
    exact absurd hq (by decide)
  | some t =>
    obtain ⟨hlead, htail⟩ := h.leads ht
    rw [leadingCoefficient_eq_of_leadingTerm ht] at hq
    refine ⟨t, rfl, ⟨hlead, htail, isUnit_of_unit hlead.isInt hq⟩, ?_⟩
    rw [hlead.top_eq, degree_eq_of_leadingTerm ht]

theorem Reads.nonneg (h : p.Reads P) (hp : ∀ t ∈ p.terms, 0 ≤ t.exponent) {n : ℤ}
    (hn : P.coeff n ≠ 0) : 0 ≤ n := by
  rw [← h.laurent_terms] at hn
  obtain ⟨t, ht, rfl⟩ := exists_of_coeff_laurent_ne_zero hn
  exact Int32.le_iff_toInt_le.1 (hp t ht)

/-- Long division by a divisor with leading coefficient `1` or `-1` is the division of Laurent
polynomials over the integers, whatever the snap policy: it succeeds, the quotient has no negative
exponents, the remainder is below the divisor, and no other quotient and remainder are like that.
A multiple of the divisor is divided without a remainder. -/
theorem divide_laurent {p q : Poly} (hp : p.Valid) (hq : q.Valid) (ip : p.Integral)
    (iq : q.Integral) (hlead : q.leadingCoefficient = 1.0 ∨ q.leadingCoefficient = -1.0)
    (hdegree : p.degree.toInt - q.degree.toInt ≤ 2 ^ 31 - 1)
    (hexact : DivisionExact q.laurent p.laurent) (policy : SnapPolicy) :
    ∃ d, divide policy p q = .ok d ∧ d.quotient.Integral ∧ d.remainder.Integral ∧
      p.laurent = d.quotient.laurent * q.laurent + d.remainder.laurent ∧
      (∀ t ∈ d.quotient.terms, 0 ≤ t.exponent) ∧
      (∀ t ∈ d.remainder.terms, t.exponent < q.degree) ∧
      (∀ Q R : ℤ[T;T⁻¹], p.laurent = Q * q.laurent + R → (∀ n, Q.coeff n ≠ 0 → 0 ≤ n) →
        (∀ n, R.coeff n ≠ 0 → n < q.degree.toInt) →
        Q = d.quotient.laurent ∧ R = d.remainder.laurent) ∧
      ∀ a : Poly, a.Valid → a.Integral → (∀ t ∈ a.terms, 0 ≤ t.exponent) →
        p.laurent = a.laurent * q.laurent →
        d.quotient.terms = a.terms ∧ d.remainder.terms = [] := by
  have hpr : p.Reads p.laurent := ⟨hp, ip, rfl⟩
  have hqr : q.Reads q.laurent := ⟨hq, iq, rfl⟩
  obtain ⟨t, ht, hdivisor, htop⟩ := hqr.divisor hlead
  have hstart : Progress p.laurent q.laurent ⟨zero, p⟩ 0 p.laurent :=
    ⟨reads_ofTerms ⟨List.Pairwise.nil, by simp, by simp [Term.Integral]⟩, hpr, by ring,
      fun n hn => absurd rfl hn, fun n k hn => absurd rfl hn, hexact⟩
  obtain ⟨d, Q, R, hd, h, hR⟩ := Progress.divideFrom hdivisor policy
    (p.degree.toInt - t.exponent.toInt + 1).toNat hstart
    (fun n hn => by
      have := hpr.le_degree hn
      rw [← hdivisor.leads.top_eq]
      omega)
    (fun n hn => by
      have := hpr.le_degree hn
      omega)
  have unique (Q' R' : ℤ[T;T⁻¹]) (hid : p.laurent = Q' * q.laurent + R')
      (hQ' : ∀ n, Q'.coeff n ≠ 0 → 0 ≤ n) (hR' : ∀ n, R'.coeff n ≠ 0 → n < top q.laurent) :
      Q' = Q ∧ R' = R :=
    eq_of_division hdivisor.unit (hid.symm.trans h.identity) hQ' h.nonneg hR' hR
  refine ⟨d, ?_, h.quotient.integral, h.remainder.integral, ?_, fun u hu => ?_, fun u hu => ?_,
    ?_, fun a ha ia hnonneg hprod => ?_⟩
  · rw [divide, ht]
    exact hd
  · rw [h.quotient.laurent_eq, h.remainder.laurent_eq]
    exact h.identity
  · exact Int32.le_iff_toInt_le.2 (h.nonneg _ (h.quotient.coeff_ne_zero hu))
  · rw [Int32.lt_iff_toInt_lt, ← htop]
    exact hR _ (h.remainder.coeff_ne_zero hu)
  · rw [h.quotient.laurent_eq, h.remainder.laurent_eq, ← htop]
    exact unique
  · have har : a.Reads a.laurent := ⟨ha, ia, rfl⟩
    obtain ⟨hQ, hR₀⟩ := unique a.laurent 0 (by rw [hprod, add_zero])
      (fun n hn => har.nonneg hnonneg hn) (fun n hn => absurd rfl hn)
    rw [h.quotient.terms_eq, har.terms_eq, hQ, h.remainder.terms_eq, ← hR₀]
    exact ⟨rfl, by simp [laurentTerms]⟩

/-- The division of `2 x + 3` by `x + 1`. -/
theorem divide_laurent_linear :
    let p := ofTerms [⟨2.0, 1⟩, ⟨3.0, 0⟩]
    let q := ofTerms [⟨1.0, 1⟩, ⟨1.0, 0⟩]
    ∃ d, divide .standard p q = .ok d ∧
      p.laurent = d.quotient.laurent * q.laurent + d.remainder.laurent ∧
      (∀ t ∈ d.quotient.terms, 0 ≤ t.exponent) ∧
      ∀ t ∈ d.remainder.terms, t.exponent < q.degree := by
  intro p q
  have hp : p.terms = [⟨2.0, 1⟩, ⟨3.0, 0⟩] := by decide
  have hq : q.terms = [⟨1.0, 1⟩, ⟨1.0, 0⟩] := by decide
  have one : IsInt 1.0 1 := isInt_of_isNat (by decide)
  have two : IsInt 2.0 2 := isInt_of_isNat (by decide)
  have three : IsInt 3.0 3 := isInt_of_isNat (by decide)
  obtain ⟨ip, hP⟩ := linear_integral hp two three
  obtain ⟨iq, hQ⟩ := linear_integral hq one one
  have topP : top p.laurent = 1 := Laurent.top_eq (by rw [hP]; norm_num) fun n hn => by
    rw [hP] at hn
    split_ifs at hn <;> omega
  have topQ : top q.laurent = 1 := Laurent.top_eq (by rw [hQ]; norm_num) fun n hn => by
    rw [hQ] at hn
    split_ifs at hn <;> omega
  have unit : IsUnit (q.laurent.coeff (top q.laurent)) := by
    rw [topQ, hQ]
    exact isUnit_one
  have hstep (n : ℤ) : (lower q.laurent * step q.laurent p.laurent).coeff n =
      if n = 0 then 2 else 0 := by
    rw [coeff_lower_mul_step, coeff_lower, topP, topQ, hP, hQ, hQ]
    split_ifs <;> omega
  have hexact : DivisionExact q.laurent p.laurent := by
    intro i hi
    cases i with
    | zero =>
      refine ⟨fun n => ?_, fun n _ _ => ?_⟩
      · rw [Function.iterate_zero, id, hstep]
        split_ifs <;> norm_num
      · rw [Function.iterate_zero, id, AddMonoidAlgebra.coeff_neg, Finsupp.neg_apply, hstep,
          coeff_lower, topP, hP]
        split_ifs <;> norm_num
    | succ i =>
      -- after one step the constant `1` is left, which is below the divisor
      have hf : Fits q.laurent (Laurent.reduce q.laurent p.laurent) := hi 1 (by omega)
      have := lt_top_of_coeff_reduce_ne_zero unit (coeff_top_ne_zero hf.1)
      have := hf.2
      omega
  obtain ⟨d, hd, -, -, hid, hq, hr, -⟩ := divide_laurent (valid_ofTerms _) (valid_ofTerms _) ip iq
    (Or.inl (by decide)) (by decide) hexact .standard
  exact ⟨d, hd, hid, hq, hr⟩

end Poly

end SparsePoly
