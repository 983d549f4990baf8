import Mathlib
import SparsePoly.Poly.Arithmetic
import SparsePoly.Proofs.Poly.Ring

/-!
# Long division ends

A step of a long division leaves the leading term of the remainder aside and appends only terms
below it, whatever the coefficients are, infinities and NaN included.  So the degree of the
remainder descends and the exponents of the steps with it (`Underway.next`), until what remains is
below the divisor (`Underway.divideFrom`).  Only the exponent of the first step can be out of range
(`divide_total`).
-/

namespace SparsePoly

open Term

namespace Poly

variable {p : Poly} {t : Term} {ts : List Term} {e : Exponent}

/-! ## Bounds of exponents -/

/-- What bounds the terms of a polynomial and the terms appended to it bounds those of the whole. -/
theorem Valid.extend_lt (hp : p.Valid) (hlt : ∀ u ∈ p.terms, u.exponent < e)
    (ht : ∀ u ∈ ts, u.exponent < e) : ∀ u ∈ (p.extend ts).terms, u.exponent < e := by
  have hrepresents : (p.extend ts).Represents (p.terms ++ ts) := hp.represents.extend
  refine (hrepresents.valid.lists_terms.congr hrepresents.sums).exponent_lt fun u hu => ?_
  rcases List.mem_append.1 (mem_nonzero.1 hu).1 with hu | hu
  · exact hlt u hu
  · exact ht u hu

theorem ofTerms_lt (ht : ∀ u ∈ ts, u.exponent < e) : ∀ u ∈ (ofTerms ts).terms, u.exponent < e :=
  valid_zero.extend_lt (by simp [zero, terms]) ht

/-- All other terms are below the leading one. -/
theorem Valid.lt_of_mem_tail (hp : p.Valid) (ht : p.leadingTerm? = some t) :
    ∀ u ∈ p.tail.terms, u.exponent < t.exponent := by
  rw [leadingTerm?, List.head?_eq_some_iff] at ht
  obtain ⟨ts, hts⟩ := ht
  have hdescending := hp.strictlyDescending
  rw [hts] at hdescending
  rw [tail, hts]
  exact ofTerms_lt (List.pairwise_cons.1 hdescending).1

theorem Valid.le_leadingTerm (hp : p.Valid) (ht : p.leadingTerm? = some t) :
    ∀ u ∈ p.terms, u.exponent ≤ t.exponent := by
  rw [leadingTerm?, List.head?_eq_some_iff] at ht
  obtain ⟨ts, hts⟩ := ht
  have hdescending := hp.strictlyDescending
  rw [hts] at hdescending ⊢
  intro u hu
  rcases List.mem_cons.1 hu with rfl | hu
  · exact Int32.le_refl _
  · exact Int32.le_of_lt ((List.pairwise_cons.1 hdescending).1 u hu)

theorem Valid.le_degree (hp : p.Valid) : ∀ u ∈ p.terms, u.exponent ≤ p.degree := by
  intro u hu
  cases ht : p.leadingTerm? with
  | none =>
    rw [leadingTerm?, List.head?_eq_none_iff] at ht
    rw [ht] at hu
    cases hu
  | some t =>
    rw [degree_eq_of_leadingTerm ht]
    exact hp.le_leadingTerm ht u hu

/-- A term below all others keeps a polynomial in normal form. -/
theorem append_of_lt (ho : p.order = .strict) (ht : ∀ u ∈ p.terms, t.exponent < u.exponent) :
    (p.append t).order = .strict ∧ ∀ u ∈ (p.append t).terms, u ∈ p.terms ∨ u = t := by
  have hterms : p.terms = p.stored.toList := by rw [terms, ho]
  cases hz : t.isZero with
  | true =>
    rw [append_of_isZero hz]
    exact ⟨ho, fun u hu => Or.inl hu⟩
  | false =>
    have horder : (p.append t).order = .strict := by
      have hlast : ∀ u, p.stored.back? = some u → t.exponent < u.exponent := fun u hu => by
        rw [← Array.getLast?_toList] at hu
        rw [hterms] at ht
        exact ht u (List.mem_of_getLast? hu)
      simp only [append, hz, Bool.false_eq_true, if_false, ho]
      cases hback : p.stored.back? with
      | none => rfl
      | some u => simp [Order.after, hlast u hback]
    refine ⟨horder, fun u hu => ?_⟩
    rw [terms, horder] at hu
    simp only [toList_stored_append hz, List.mem_append, List.mem_singleton] at hu
    rwa [hterms]

/-! ## One step -/

/-- A division by a divisor with the leading term `lead` under way.  The quotient is stored in
normal form with exponents from `0` to `bound`, and what remains is below the product of its last
term and the divisor. -/
structure Underway (lead : Term) (bound : ℤ) (d : Division) : Prop where
  quotient : d.quotient.Valid
  order : d.quotient.order = .strict
  range : ∀ s ∈ d.quotient.terms, 0 ≤ s.exponent.toInt ∧ s.exponent.toInt ≤ bound
  remainder : d.remainder.Valid
  within : ∀ u ∈ d.remainder.terms, u.exponent.toInt - lead.exponent.toInt ≤ bound
  above : ∀ s ∈ d.quotient.terms, ∀ u ∈ d.remainder.terms,
    u.exponent.toInt < s.exponent.toInt + lead.exponent.toInt

/-- The steps of a long division, as many as it takes: they go on while the divisor fits. -/
inductive Steps (policy : SnapPolicy) (lead : Term) (tail : Poly) : Division → Division → Prop
  | done {d : Division} (h : ∀ top, d.remainder.leadingTerm? = some top →
      top.exponent < lead.exponent) : Steps policy lead tail d d
  | step {d e : Division} {top s : Term} {product : Poly}
      (htop : d.remainder.leadingTerm? = some top) (hle : lead.exponent ≤ top.exponent)
      (hs : top.divide lead = .ok s) (hproduct : multiply policy tail (ofTerms [s]) = .ok product)
      (hrest : Steps policy lead tail ⟨d.quotient.append s, d.remainder.tail.subtract product⟩ e) :
      Steps policy lead tail d e

variable {policy : SnapPolicy} {lead top s : Term} {tail : Poly} {d : Division} {bound : ℤ}

theorem divide_eq_ok (hle : lead.exponent ≤ top.exponent)
    (hrange : top.exponent.toInt - lead.exponent.toInt < 2 ^ 31) :
    ∃ s, top.divide lead = .ok s ∧ s.exponent.toInt = top.exponent.toInt - lead.exponent.toInt := by
  rw [Int32.le_iff_toInt_le] at hle
  obtain ⟨e, he⟩ := exists_exponent (n := top.exponent.toInt - lead.exponent.toInt)
    ⟨by omega, hrange⟩
  refine ⟨⟨top.coefficient / lead.coefficient, e⟩, ?_, he⟩
  rw [Term.divide, Exponent.minus_eq_ok_iff.2 he]
  rfl

/-- The product of a step and the rest of the divisor is below the term that the step takes away. -/
theorem exists_product (htail : ∀ u ∈ tail.terms, u.exponent < lead.exponent)
    (hle : lead.exponent ≤ top.exponent)
    (hs : s.exponent.toInt = top.exponent.toInt - lead.exponent.toInt) (policy : SnapPolicy) :
    ∃ product, multiply policy tail (ofTerms [s]) = .ok product ∧
      ∀ u ∈ product.terms, u.exponent < top.exponent := by
  have hmem : ∀ u ∈ (ofTerms [s]).terms, u = s := by
    intro u hu
    rw [terms_ofTerms (List.pairwise_singleton _ _), mem_nonzero] at hu
    exact List.mem_singleton.1 hu.1
  have hrange : ∀ a ∈ tail.terms, ∀ b ∈ (ofTerms [s]).terms,
      a.Multiplies b ∧ a.exponent.toInt + b.exponent.toInt < top.exponent.toInt := by
    intro a ha b hb
    have hlt := Int32.lt_iff_toInt_lt.1 (htail a ha)
    have hlow := a.exponent.le_toInt
    have hhigh := top.exponent.toInt_lt
    rw [Int32.le_iff_toInt_le] at hle
    rw [hmem b hb]
    exact ⟨exists_exponent ⟨by omega, by omega⟩, by omega⟩
  refine ⟨_, multiply_eq_ok fun a ha b hb => (hrange a ha b hb).1, ofTerms_lt fun u hu => ?_⟩
  obtain ⟨a, ha, b, hb, rfl⟩ := mem_products.1 hu
  obtain ⟨hmultiplies, hlt⟩ := hrange a ha b hb
  rw [Int32.lt_iff_toInt_lt, product, toInt_ofInt hmultiplies]
  exact hlt

/-- One step of a long division lowers the degree of the remainder. -/
theorem Underway.next (h : Underway lead bound d)
    (htail : ∀ u ∈ tail.terms, u.exponent < lead.exponent)
    (htop : d.remainder.leadingTerm? = some top) (hle : lead.exponent ≤ top.exponent)
    (hrange : top.exponent.toInt - lead.exponent.toInt < 2 ^ 31) (policy : SnapPolicy) :
    ∃ s product, top.divide lead = .ok s ∧
      multiply policy tail (ofTerms [s]) = .ok product ∧
      Underway lead bound ⟨d.quotient.append s, d.remainder.tail.subtract product⟩ ∧
      ∀ u ∈ (d.remainder.tail.subtract product).terms, u.exponent < top.exponent := by
  have hmem : top ∈ d.remainder.terms := List.mem_of_head? htop
  have hwithin := h.within top hmem
  obtain ⟨s, hs, hexponent⟩ := divide_eq_ok hle hrange
  obtain ⟨product, hproduct, hbelow⟩ := exists_product htail hle hexponent policy
  have hlower : ∀ u ∈ (d.remainder.tail.subtract product).terms, u.exponent < top.exponent := by
    refine (valid_ofTerms _).extend_lt (h.remainder.lt_of_mem_tail htop) fun u hu => ?_
    obtain ⟨v, hv, rfl⟩ := List.mem_map.1 hu
    exact hbelow v hv
  have hstep : ∀ u ∈ d.quotient.terms, s.exponent < u.exponent := by
    intro u hu
    have := h.above u hu top hmem
    rw [Int32.lt_iff_toInt_lt]
    omega
  obtain ⟨horder, hquotient⟩ := append_of_lt h.order hstep
  rw [Int32.le_iff_toInt_le] at hle
  refine ⟨s, product, hs, hproduct, ⟨h.quotient.append s, horder, ?_,
    (valid_ofTerms _).extend, ?_, ?_⟩, hlower⟩
  · intro u hu
    rcases hquotient u hu with hu | rfl
    · exact h.range u hu
    · omega
  · intro u hu
    have := Int32.lt_iff_toInt_lt.1 (hlower u hu)
    omega
  · intro v hv u hu
    have := Int32.lt_iff_toInt_lt.1 (hlower u hu)
    rcases hquotient v hv with hv | rfl
    · have := h.above v hv top hmem
      omega
    · omega

/-! ## The whole division -/

/-- The steps that are left end with a remainder below the divisor. -/
theorem Underway.divideFrom (htail : ∀ u ∈ tail.terms, u.exponent < lead.exponent)
    (policy : SnapPolicy) : ∀ (steps : ℕ) {d : Division}, Underway lead bound d →
      (∀ u ∈ d.remainder.terms, u.exponent.toInt - lead.exponent.toInt < steps) →
      (∀ u ∈ d.remainder.terms, u.exponent.toInt - lead.exponent.toInt < 2 ^ 31) →
      ∃ e, Poly.divideFrom policy lead tail steps d = .ok e ∧ Steps policy lead tail d e ∧
        Underway lead bound e ∧ ∀ u ∈ e.remainder.terms, u.exponent < lead.exponent
  | 0, d, h, hsteps, _ => by
    have hlower : ∀ u ∈ d.remainder.terms, u.exponent < lead.exponent := fun u hu => by
      have := hsteps u hu
      rw [Int32.lt_iff_toInt_lt]
      omega
    exact ⟨d, rfl, .done fun top htop => hlower top (List.mem_of_head? htop), h, hlower⟩
  | steps + 1, d, h, hsteps, hrange => by
    rw [Poly.divideFrom]
    cases htop : d.remainder.leadingTerm? with
    | none =>
      have hnil : d.remainder.terms = [] := List.head?_eq_none_iff.1 htop
      refine ⟨d, rfl, .done fun top h => ?_, h, by simp [hnil]⟩
      rw [htop] at h
      cases h
    | some top =>
      simp only
      split_ifs with hlt
      · refine ⟨d, rfl, .done fun u hu => ?_, h, fun u hu => ?_⟩
        · rw [htop] at hu
          rwa [← Option.some.inj hu]
        · exact Int32.lt_of_le_of_lt (h.remainder.le_leadingTerm htop u hu) hlt
      · have hle := Int32.not_lt.1 hlt
        have hmem := List.mem_of_head? htop
        have htopSteps := hsteps top hmem
        have htopRange := hrange top hmem
        obtain ⟨s, product, hs, hproduct, hnext, hlower⟩ := h.next htail htop hle htopRange policy
        obtain ⟨e, he, hrun, hunderway, hbelow⟩ := Underway.divideFrom htail policy steps hnext
          (fun u hu => by
            have := Int32.lt_iff_toInt_lt.1 (hlower u hu)
            push_cast at htopSteps
            omega)
          (fun u hu => by
            have := Int32.lt_iff_toInt_lt.1 (hlower u hu)
            omega)
        refine ⟨e, ?_, .step htop hle hs hproduct hrun, hunderway, hbelow⟩
        rw [hs]
        simp only [bind, Except.bind, hproduct]
        exact he

/-- A division ends if its first step has an exponent in range. -/
theorem exists_divide {p d : Poly} (hp : p.Valid) (hd : d.Valid)
    (hlead : d.leadingTerm? = some lead)
    (hrange : p.isZero = true ∨ p.degree.toInt - lead.exponent.toInt < 2 ^ 31)
    (policy : SnapPolicy) :
    ∃ e, divide policy p d = .ok e ∧ Steps policy lead d.tail ⟨zero, p⟩ e ∧
      Underway lead (p.degree.toInt - lead.exponent.toInt) e ∧
      ∀ u ∈ e.remainder.terms, u.exponent < lead.exponent := by
  have hle : ∀ u ∈ p.terms, u.exponent.toInt ≤ p.degree.toInt := fun u hu =>
    Int32.le_iff_toInt_le.1 (hp.le_degree u hu)
  have hstart : Underway lead (p.degree.toInt - lead.exponent.toInt) ⟨zero, p⟩ :=
    ⟨valid_zero, rfl, by simp [zero, terms], hp, fun u hu => Int.sub_le_sub_right (hle u hu) _,
      by simp [zero, terms]⟩
  rw [divide, hlead]
  refine Underway.divideFrom (hd.lt_of_mem_tail hlead) policy _ hstart (fun u hu => ?_)
    fun u hu => ?_
  · have := hle u hu
    omega
  · rcases hrange with hz | hrange
    · rw [isZero, List.isEmpty_iff] at hz
      rw [hz] at hu
      cases hu
    · have := hle u hu
      omega

/-- A division of which the first step has an exponent out of range does not end. -/
theorem divide_eq_error {p d : Poly} (hlead : d.leadingTerm? = some lead)
    (htop : p.leadingTerm? = some top)
    (h : 2 ^ 31 ≤ top.exponent.toInt - lead.exponent.toInt) (policy : SnapPolicy) :
    divide policy p d = .error (.exponentOverflow .subtraction) := by
  have hminus : ¬ ∃ e : Exponent, e.toInt = top.exponent.toInt - lead.exponent.toInt := by
    rintro ⟨e, he⟩
    have := e.toInt_lt
    omega
  have hsteps : (p.degree.toInt - lead.exponent.toInt + 1).toNat =
      (top.exponent.toInt - lead.exponent.toInt).toNat + 1 := by
    rw [degree_eq_of_leadingTerm htop]
    omega
  have hlt : ¬ top.exponent < lead.exponent := by
    rw [Int32.lt_iff_toInt_lt]
    omega
  rw [divide, hlead]
  simp only [hsteps, divideFrom, htop, if_neg hlt, Term.divide, Exponent.minus_eq_error hminus]
  rfl

theorem exists_leadingTerm (h : p.isZero = false) : ∃ t, p.leadingTerm? = some t := by
  cases ht : p.leadingTerm? with
  | none =>
    rw [leadingTerm?, List.head?_eq_none_iff] at ht
    rw [isZero, ht] at h
    cases h
  | some t => exact ⟨t, rfl⟩

/-- A division by zero is refused, and only that. -/
theorem divide_of_isZero {p d : Poly} (hd : d.isZero = true) (policy : SnapPolicy) :
    divide policy p d = .error .divideByZero := by
  have hlead : d.leadingTerm? = none := by
    rw [leadingTerm?, List.head?_eq_none_iff]
    exact List.isEmpty_iff.1 hd
  rw [divide, hlead]

/-- A division by a polynomial that is not zero ends, unless the difference of the degrees is out of
range. -/
theorem divide_cases {p d : Poly} (hp : p.Valid) (hd : d.Valid) (hz : d.isZero = false)
    (policy : SnapPolicy) :
    (p.isZero = false ∧ 2 ^ 31 - 1 < p.degree.toInt - d.degree.toInt) ∧
        divide policy p d = .error (.exponentOverflow .subtraction) ∨
      (p.isZero = true ∨ p.degree.toInt - d.degree.toInt ≤ 2 ^ 31 - 1) ∧
        ∃ lead e, d.leadingTerm? = some lead ∧ divide policy p d = .ok e ∧
          Steps policy lead d.tail ⟨zero, p⟩ e ∧
          Underway lead (p.degree.toInt - d.degree.toInt) e ∧
          ∀ u ∈ e.remainder.terms, u.exponent < d.degree := by
  obtain ⟨lead, hlead⟩ := exists_leadingTerm hz
  rw [degree_eq_of_leadingTerm hlead]
  by_cases h : p.isZero = true ∨ p.degree.toInt - lead.exponent.toInt ≤ 2 ^ 31 - 1
  · refine Or.inr ⟨h, lead, ?_⟩
    obtain ⟨e, he⟩ := exists_divide hp hd hlead (h.imp_right Int.lt_of_le_sub_one) policy
    exact ⟨e, hlead, he⟩
  · push Not at h
    obtain ⟨hpz, hrange⟩ := h
    obtain ⟨top, htop⟩ := exists_leadingTerm (Bool.eq_false_iff.2 hpz)
    refine Or.inl ⟨⟨Bool.eq_false_iff.2 hpz, hrange⟩, divide_eq_error hlead htop ?_ policy⟩
    rw [degree_eq_of_leadingTerm htop] at hrange
    omega

/-- Long division is total outside one overflow, whatever the coefficients and the snap policy are.
It refuses the zero polynomial as divisor and nothing else.  Otherwise it fails if the dividend is
not zero and the difference of the degrees is out of range, and if not, it goes through finitely
many steps: the remainder is zero or of a degree below that of the divisor, and the quotient comes
in normal form, with exponents between zero and the difference of the degrees. -/
theorem divide_total {p d : Poly} (hp : p.Valid) (hd : d.Valid) (policy : SnapPolicy) :
    (divide policy p d = .error .divideByZero ↔ d.isZero = true) ∧
    (divide policy p d = .error (.exponentOverflow .subtraction) ↔ d.isZero = false ∧
      p.isZero = false ∧ 2 ^ 31 - 1 < p.degree.toInt - d.degree.toInt) ∧
    (d.isZero = false → (p.isZero = true ∨ p.degree.toInt - d.degree.toInt ≤ 2 ^ 31 - 1) →
      ∃ lead e, d.leadingTerm? = some lead ∧ divide policy p d = .ok e ∧
        Steps policy lead d.tail ⟨zero, p⟩ e ∧
        (e.remainder.isZero = true ∨ e.remainder.degree < d.degree) ∧
        e.quotient.order = .strict ∧ StrictlyDescending e.quotient.terms ∧
        ∀ s ∈ e.quotient.terms, 0 ≤ s.exponent.toInt ∧
          s.exponent.toInt ≤ p.degree.toInt - d.degree.toInt) := by
  cases hz : d.isZero with
  | true =>
    rw [divide_of_isZero hz]
    simp
  | false =>
    rcases divide_cases hp hd hz policy with ⟨⟨hpz, hrange⟩, herror⟩ |
      ⟨h, lead, e, hlead, he, hsteps, hunderway, hbelow⟩
    · rw [herror]
      refine ⟨by simp, iff_of_true rfl ⟨rfl, hpz, hrange⟩, fun _ hle => ?_⟩
      rw [hpz] at hle
      have := hle.resolve_left (by simp)
      omega
    · rw [he]
      refine ⟨by simp, iff_of_false nofun fun ⟨_, hpz, hrange⟩ => ?_, fun _ _ =>
        ⟨lead, e, hlead, rfl, hsteps, ?_, hunderway.order, hunderway.quotient.strictlyDescending,
          hunderway.range⟩⟩
      · rw [hpz] at h
        have := h.resolve_left (by simp)
        omega
      · cases hrz : e.remainder.isZero with
        | true => exact Or.inl rfl
        | false =>
          obtain ⟨top, htop⟩ := exists_leadingTerm hrz
          refine Or.inr ?_
          rw [degree_eq_of_leadingTerm htop]
          exact hbelow top (List.mem_of_head? htop)

/-- The division of `∞ x ^ 5 + x ^ -3` by a polynomial with a NaN ends, and so does that of zero by
the least power; the division of the greatest power by `x ^ -1` overflows. -/
theorem divide_total_infinity :
    let p := ofTerms [⟨Binary64.infinity, 5⟩, ⟨1.0, -3⟩]
    let d := ofTerms [⟨2.0, 2⟩, ⟨Binary64.nan, 0⟩]
    let least := monomial 1.0 (-2147483648)
    (∃ e, divide .standard p d = .ok e ∧
      (e.remainder.isZero = true ∨ e.remainder.degree < 2) ∧ e.quotient.order = .strict) ∧
    (∃ e, divide .standard zero least = .ok e ∧
      (e.remainder.isZero = true ∨ e.remainder.degree < least.degree)) ∧
    divide .standard (monomial 1.0 2147483647) (monomial 1.0 (-1)) =
      .error (.exponentOverflow .subtraction) := by
  intro p d least
  obtain ⟨-, -, hends⟩ := divide_total (p := p) (d := d) (valid_ofTerms _) (valid_ofTerms _)
    .standard
  obtain ⟨-, -, hzero⟩ := divide_total (p := zero) (d := least) valid_zero (valid_ofTerms _)
    .standard
  obtain ⟨-, hoverflow, -⟩ := divide_total (p := monomial 1.0 2147483647) (d := monomial 1.0 (-1))
    (valid_ofTerms _) (valid_ofTerms _) .standard
  obtain ⟨-, e, -, he, -, hdegree, horder, -⟩ := hends (by decide) (by decide)
  obtain ⟨-, e', -, he', -, hdegree', -⟩ := hzero (by decide) (by decide)
  exact ⟨⟨e, he, hdegree, horder⟩, ⟨e', he', hdegree'⟩, hoverflow.2 (by decide)⟩

end Poly

end SparsePoly
