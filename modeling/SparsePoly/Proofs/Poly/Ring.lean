import Mathlib
import SparsePoly.Proofs.Poly.Exactness

/-!
# The ring of Laurent polynomials

On polynomials with integral coefficients the exact operations are those of the ring of Laurent
polynomials over the integers.  `Reads p P` says that `p` is such a polynomial and `P` its reading;
each operation maintains it (`Reads.add`, `Reads.subtract`, `Reads.negate`, `Reads.multiply`).
Expressions with the same value in the ring therefore have the same terms, which gives the laws of
the ring (`arithmetic_laurent`).
-/

open SparsePoly.Binary64
open scoped LaurentPolynomial

namespace SparsePoly

open Term

namespace Poly

/-! ## Operations -/

/-- The polynomial is valid, its coefficients are integers, and `P` is its Laurent polynomial. -/
structure Reads (p : Poly) (P : ℤ[T;T⁻¹]) : Prop where
  valid : p.Valid
  integral : p.Integral
  laurent_eq : p.laurent = P

variable {p q : Poly} {P Q : ℤ[T;T⁻¹]} {ts : List Term}

theorem Reads.form (h : p.Reads P) : IntegralForm p.terms where
  descending := h.valid.strictlyDescending
  isZero := h.valid.isZero_eq_false
  integral := h.integral

theorem Reads.laurent_terms (h : p.Reads P) : Term.laurent p.terms = P := h.laurent_eq

theorem Reads.coeff_eq (h : p.Reads P) {t : Term} (ht : t ∈ p.terms) :
    P.coeff t.exponent.toInt = toInt t.coefficient := by
  rw [← h.laurent_terms, h.form.coeff_eq ht]

theorem Reads.coeff_ne_zero (h : p.Reads P) {t : Term} (ht : t ∈ p.terms) :
    P.coeff t.exponent.toInt ≠ 0 := by
  rw [← h.laurent_terms]
  exact h.form.coeff_ne_zero ht

theorem Reads.terms_eq (h : p.Reads P) : p.terms = laurentTerms P := by
  rw [← h.laurent_eq]
  exact terms_eq_laurentTerms h.valid h.integral

theorem Represents.reads (h : p.Represents ts) (hz : Term.nonzero ts = ts) (hs : ExactSums ts) :
    p.Reads (Term.laurent ts) := by
  obtain ⟨hi, hl⟩ := h.laurent_eq (by rwa [hz])
  exact ⟨h.valid, hi, hl⟩

/-- Zero terms do not matter. -/
theorem reads_ofTerms_of_exactSums (h : ExactSums (Term.nonzero ts)) :
    (ofTerms ts).Reads (Term.laurent ts) := by
  obtain ⟨hint, hl⟩ := (represents_ofTerms ts).laurent_eq h
  exact ⟨valid_ofTerms ts, hint, hl⟩

theorem reads_ofTerms_of_descending (hd : StrictlyDescending ts) (hi : Term.Integral ts) :
    (ofTerms ts).Reads (Term.laurent ts) :=
  reads_ofTerms_of_exactSums (hd.nonzero.exactSums fun t ht => hi t (mem_nonzero.1 ht).1)

theorem reads_ofTerms (h : IntegralForm ts) : (ofTerms ts).Reads (Term.laurent ts) :=
  reads_ofTerms_of_descending h.descending h.integral

theorem reads_monomial {c : Float} {n : ℤ} (h : IsInt c n) (e : Exponent) :
    (monomial c e).Reads (.single e.toInt n) := by
  have hintegral : Term.Integral [⟨c, e⟩] := by
    rw [Term.Integral, List.forall_mem_singleton, h.toInt_eq]
    exact h
  have hlaurent : Term.laurent [⟨c, e⟩] = .single e.toInt n := by
    rw [Term.laurent_cons, Term.laurent_nil, add_zero, Term.monomial, h.toInt_eq]
  rw [← hlaurent]
  exact reads_ofTerms_of_descending (List.pairwise_singleton _ _) hintegral

theorem Reads.extend (hp : p.Reads P) (ht : IntegralForm ts)
    (h : SumExact P (Term.laurent ts)) : (p.extend ts).Reads (P + Term.laurent ts) := by
  rw [← hp.laurent_terms] at h ⊢
  rw [← laurent_append]
  exact hp.valid.represents.extend.reads (hp.form.nonzero_append ht)
    (hp.form.exactSums_append ht h)

theorem Reads.add (hp : p.Reads P) (hq : q.Reads Q) (h : SumExact P Q) :
    (p.add q).Reads (P + Q) := by
  rw [← hq.laurent_terms] at h ⊢
  exact hp.extend hq.form h

theorem Reads.laurent_map_negate (hq : q.Reads Q) :
    Term.laurent (q.terms.map Term.negate) = -Q := by
  rw [Term.laurent_map_negate hq.integral, hq.laurent_terms]

theorem Reads.subtract (hp : p.Reads P) (hq : q.Reads Q) (h : SumExact P (-Q)) :
    (p.subtract q).Reads (P - Q) := by
  rw [← hq.laurent_map_negate] at h
  rw [sub_eq_add_neg, ← hq.laurent_map_negate]
  exact hp.extend hq.form.negate h

theorem Reads.negate (hp : p.Reads P) : p.negate.Reads (-P) := by
  rw [← hp.laurent_map_negate]
  exact reads_ofTerms hp.form.negate

theorem mapM_ok {α β : Type} {f : α → Except Error β} {g : α → β} {l : List α}
    (h : ∀ a ∈ l, f a = .ok (g a)) : l.mapM f = .ok (l.map g) := by
  induction l with
  | nil => rfl
  | cons a l ih =>
    rw [List.mapM_cons, h a List.mem_cons_self, ih fun b hb => h b (List.mem_cons_of_mem a hb)]
    rfl

/-- If every element is mapped or fails with the same error, and one fails, the whole list fails
with that error. -/
theorem mapM_error {α β : Type} {f : α → Except Error β} {error : Error} {l : List α}
    (h : ∀ a ∈ l, (∃ b, f a = .ok b) ∨ f a = .error error) (he : ∃ a ∈ l, f a = .error error) :
    l.mapM f = .error error := by
  induction l with
  | nil => simp at he
  | cons a l ih =>
    obtain ⟨ha, hl⟩ := List.forall_mem_cons.1 h
    rw [List.mapM_cons]
    rcases ha with ⟨b, ha⟩ | ha
    · have hrest : ∃ a ∈ l, f a = .error error := by
        obtain ⟨c, hc, he⟩ := he
        rcases List.mem_cons.1 hc with rfl | hc
        · rw [ha] at he
          cases he
        · exact ⟨c, hc, he⟩
      rw [ha, ih hl hrest]
      rfl
    · rw [ha]
      rfl

/-- A product succeeds if the exponents of all products of terms are in range. -/
theorem multiply_eq_ok {policy : SnapPolicy}
    (h : ∀ a ∈ p.terms, ∀ b ∈ q.terms, a.Multiplies b) :
    multiply policy p q = .ok (ofTerms (products policy p.terms q.terms)) := by
  have hrow : ∀ a ∈ p.terms, (q.terms.mapM fun b => a.multiply policy b) =
      .ok (q.terms.map (product policy a)) := fun a ha =>
    mapM_ok fun b hb => (h a ha b hb).multiply_eq policy
  rw [multiply, mapM_ok hrow, products, List.flatMap_def]
  rfl

/-- A product fails if the exponent of one product of terms is out of range. -/
theorem multiply_of_not_multiplies (h : ¬ ∀ s ∈ p.terms, ∀ t ∈ q.terms, s.Multiplies t)
    (policy : SnapPolicy) : multiply policy p q = .error (.exponentOverflow .addition) := by
  push Not at h
  obtain ⟨s, hs, t, ht, hst⟩ := h
  have hrow : (q.terms.mapM fun u => s.multiply policy u) =
      .error (.exponentOverflow .addition) :=
    mapM_error (fun u _ => Term.multiply_cases policy s u)
      ⟨t, ht, Term.multiply_of_not_multiplies hst policy⟩
  have hrows (r : Term) : (∃ us, (q.terms.mapM fun u => r.multiply policy u) = .ok us) ∨
      (q.terms.mapM fun u => r.multiply policy u) = .error (.exponentOverflow .addition) := by
    by_cases hr : ∀ u ∈ q.terms, r.Multiplies u
    · exact Or.inl ⟨_, mapM_ok fun u hu => (hr u hu).multiply_eq policy⟩
    · push Not at hr
      obtain ⟨u, hu, hru⟩ := hr
      exact Or.inr <| mapM_error (fun v _ => Term.multiply_cases policy r v)
        ⟨u, hu, Term.multiply_of_not_multiplies hru policy⟩
  rw [multiply, mapM_error (fun r _ => hrows r) ⟨s, hs, hrow⟩]
  rfl

/-- An exact product succeeds under every policy. -/
theorem Reads.multiply (hp : p.Reads P) (hq : q.Reads Q) (h : ProductExact P Q)
    (policy : SnapPolicy) : ∃ m, multiply policy p q = .ok m ∧ m.Reads (P * Q) := by
  rw [← hp.laurent_terms, ← hq.laurent_terms] at h ⊢
  have hexact := hp.form.termsExact hq.form h
  have hproducts : Term.laurent (products policy p.terms q.terms) =
      Term.laurent p.terms * Term.laurent q.terms := laurent_products hexact
  refine ⟨_, multiply_eq_ok fun a ha b hb => (hexact a ha b hb).exponent, ?_⟩
  rw [← hproducts]
  refine (represents_ofTerms _).reads (nonzero_eq_self fun t ht => ?_)
    (hp.form.exactSums_products hq.form h policy)
  obtain ⟨a, ha, b, hb, rfl⟩ := mem_products.1 ht
  exact (hexact a ha b hb).isZero_product (hp.form.isZero a ha) (hq.form.isZero b hb)

end Poly

/-! ## Expressions -/

/-- An expression in polynomials; every product has its own snap policy. -/
inductive Expression
  | poly (p : Poly)
  | add (a b : Expression)
  | subtract (a b : Expression)
  | negate (a : Expression)
  | multiply (policy : SnapPolicy) (a b : Expression)

namespace Expression

/-- The value of an expression. -/
def eval : Expression → Except Error Poly
  | poly p => .ok p
  | add a b => do return (← a.eval).add (← b.eval)
  | subtract a b => do return (← a.eval).subtract (← b.eval)
  | negate a => do return (← a.eval).negate
  | multiply policy a b => do Poly.multiply policy (← a.eval) (← b.eval)

/-- The value of an expression in the ring of Laurent polynomials. -/
noncomputable def laurent : Expression → ℤ[T;T⁻¹]
  | poly p => p.laurent
  | add a b => a.laurent + b.laurent
  | subtract a b => a.laurent - b.laurent
  | negate a => -a.laurent
  | multiply _ a b => a.laurent * b.laurent

/-- The coefficients are integers, and every operation of the expression is exact. -/
def Exact : Expression → Prop
  | poly p => p.Valid ∧ p.Integral
  | add a b => a.Exact ∧ b.Exact ∧ SumExact a.laurent b.laurent
  | subtract a b => a.Exact ∧ b.Exact ∧ SumExact a.laurent (-b.laurent)
  | negate a => a.Exact
  | multiply _ a b => a.Exact ∧ b.Exact ∧ ProductExact a.laurent b.laurent

/-- If both expressions are exact, they have values with the same terms. -/
def Agrees (a b : Expression) : Prop :=
  a.Exact → b.Exact → ∃ p q, a.eval = .ok p ∧ b.eval = .ok q ∧ p.terms = q.terms

theorem eval_reads : ∀ {a : Expression}, a.Exact → ∃ m, a.eval = .ok m ∧ m.Reads a.laurent
  | poly p, ⟨hv, hi⟩ => ⟨p, rfl, hv, hi, rfl⟩
  | add a b, ⟨ha, hb, h⟩ => by
    obtain ⟨p, hp, hpr⟩ := eval_reads ha
    obtain ⟨q, hq, hqr⟩ := eval_reads hb
    exact ⟨p.add q, by rw [eval, hp, hq]; rfl, hpr.add hqr h⟩
  | subtract a b, ⟨ha, hb, h⟩ => by
    obtain ⟨p, hp, hpr⟩ := eval_reads ha
    obtain ⟨q, hq, hqr⟩ := eval_reads hb
    exact ⟨p.subtract q, by rw [eval, hp, hq]; rfl, hpr.subtract hqr h⟩
  | negate a, ha => by
    obtain ⟨p, hp, hpr⟩ := eval_reads (a := a) ha
    exact ⟨p.negate, by rw [eval, hp]; rfl, hpr.negate⟩
  | multiply policy a b, ⟨ha, hb, h⟩ => by
    obtain ⟨p, hp, hpr⟩ := eval_reads ha
    obtain ⟨q, hq, hqr⟩ := eval_reads hb
    obtain ⟨m, hm, hmr⟩ := hpr.multiply hqr h policy
    exact ⟨m, by rw [eval, hp, hq]; exact hm, hmr⟩

/-- Exact expressions with the same value in the ring have the same terms. -/
theorem agrees_of_laurent_eq {a b : Expression} (h : a.laurent = b.laurent) : a.Agrees b := by
  intro ha hb
  obtain ⟨p, hp, hpr⟩ := eval_reads ha
  obtain ⟨q, hq, hqr⟩ := eval_reads hb
  refine ⟨p, q, hp, hq, ?_⟩
  rw [hpr.terms_eq, hqr.terms_eq, h]

/-- Exact sums, differences, negations and products have the terms of the Laurent polynomials that
the ring has for them, in whatever order and state the operands were built.  Between exact
expressions addition and multiplication are commutative and associative, and multiplication
distributes over addition, term for term and whatever the snap policies. -/
theorem arithmetic_laurent {p q : Poly} (hp : p.Valid) (hq : q.Valid) (ip : p.Integral)
    (iq : q.Integral) (policy : SnapPolicy) :
    (SumExact p.laurent q.laurent → (p.add q).terms = laurentTerms (p.laurent + q.laurent)) ∧
    (SumExact p.laurent (-q.laurent) →
      (p.subtract q).terms = laurentTerms (p.laurent - q.laurent)) ∧
    p.negate.terms = laurentTerms (-p.laurent) ∧
    (ProductExact p.laurent q.laurent → ∃ m, Poly.multiply policy p q = .ok m ∧
      m.terms = laurentTerms (p.laurent * q.laurent)) ∧
    ∀ (a b c : Expression) (s t u v : SnapPolicy),
      (add a b).Agrees (add b a) ∧
      (add (add a b) c).Agrees (add a (add b c)) ∧
      (multiply s a b).Agrees (multiply t b a) ∧
      (multiply s (multiply t a b) c).Agrees (multiply u a (multiply v b c)) ∧
      (multiply s a (add b c)).Agrees (add (multiply t a b) (multiply u a c)) := by
  have hpr : p.Reads p.laurent := ⟨hp, ip, rfl⟩
  have hqr : q.Reads q.laurent := ⟨hq, iq, rfl⟩
  refine ⟨fun h => (hpr.add hqr h).terms_eq, fun h => (hpr.subtract hqr h).terms_eq,
    hpr.negate.terms_eq, fun h => ?_, fun a b c s t u v => ⟨?_, ?_, ?_, ?_, ?_⟩⟩
  · obtain ⟨m, hm, hmr⟩ := hpr.multiply hqr h policy
    exact ⟨m, hm, hmr.terms_eq⟩
  · exact agrees_of_laurent_eq (add_comm _ _)
  · exact agrees_of_laurent_eq (add_assoc _ _ _)
  · exact agrees_of_laurent_eq (mul_comm _ _)
  · exact agrees_of_laurent_eq (mul_assoc _ _ _)
  · exact agrees_of_laurent_eq (mul_add _ _ _)

/-- The operations on `2 x + 3` and `x`. -/
theorem arithmetic_laurent_linear :
    let p := Poly.ofTerms [⟨2.0, 1⟩, ⟨3.0, 0⟩]
    let q := Poly.x
    (p.add q).terms = laurentTerms (p.laurent + q.laurent) ∧
      (p.subtract q).terms = laurentTerms (p.laurent - q.laurent) ∧
      p.negate.terms = laurentTerms (-p.laurent) ∧
      (∃ m, Poly.multiply .standard p q = .ok m ∧
        m.terms = laurentTerms (p.laurent * q.laurent)) ∧
      ∃ u v, (multiply .standard (poly p) (poly q)).eval = .ok u ∧
        (multiply .disabled (poly q) (poly p)).eval = .ok v ∧ u.terms = v.terms := by
  intro p q
  have vp : p.Valid := Poly.valid_ofTerms _
  have vq : q.Valid := Poly.valid_ofTerms _
  have hp : p.terms = [⟨2.0, 1⟩, ⟨3.0, 0⟩] := by decide
  have hq : q.terms = [⟨1.0, 1⟩] := by decide
  have one : IsInt 1.0 1 := isInt_of_isNat (by decide)
  have two : IsInt 2.0 2 := isInt_of_isNat (by decide)
  have three : IsInt 3.0 3 := isInt_of_isNat (by decide)
  obtain ⟨ip, hP⟩ := Poly.linear_integral hp two three
  have iq : q.Integral := by
    rw [Poly.Integral, hq, Term.Integral, List.forall_mem_singleton, one.toInt_eq]
    exact one
  have hQ : q.laurent = .single 1 1 := by
    rw [Poly.laurent, hq, laurent_cons, laurent_nil, add_zero, monomial, one.toInt_eq]
    rfl
  have hQc (n : ℤ) : q.laurent.coeff n = if 1 = n then 1 else 0 := by
    rw [hQ]
    exact Finsupp.single_apply
  have hsum : SumExact p.laurent q.laurent := fun n _ _ => by
    rw [hP, hQc]
    split_ifs <;> norm_num
  have hdiff : SumExact p.laurent (-q.laurent) := fun n _ _ => by
    rw [AddMonoidAlgebra.coeff_neg, Finsupp.neg_apply, hP, hQc]
    split_ifs <;> norm_num
  have hprod : ProductExact p.laurent q.laurent := by
    refine ⟨fun i j => ?_, fun k n => ?_, fun i j hi hj => ?_⟩
    · rw [hP, hQc]
      split_ifs <;> norm_num
    · rw [hQ, AddMonoidAlgebra.coeff_mul_single_apply, coeff_upper, hP]
      split_ifs <;> norm_num
    · rw [hP] at hi
      rw [hQc] at hj
      split_ifs at hi hj <;> omega
  have hprod' : ProductExact q.laurent p.laurent := by
    refine ⟨fun i j => ?_, fun k n => ?_, fun i j hi hj => ?_⟩
    · rw [mul_comm]
      exact hprod.products j i
    · have hk : upper k q.laurent = .single 1 (if k ≤ 1 then 1 else 0) := by
        ext i
        rw [coeff_upper, hQc, AddMonoidAlgebra.coeff_single, Finsupp.single_apply]
        split_ifs <;> omega
      rw [hk, mul_comm, AddMonoidAlgebra.coeff_mul_single_apply, hP]
      split_ifs <;> norm_num
    · rw [add_comm]
      exact hprod.exponents j i hj hi
  obtain ⟨hadd, hsub, hneg, hmul, hlaws⟩ := arithmetic_laurent vp vq ip iq .standard
  refine ⟨hadd hsum, hsub hdiff, hneg, hmul hprod, ?_⟩
  exact (hlaws (poly p) (poly q) (poly q) .standard .disabled .standard .standard).2.2.1
    ⟨⟨vp, ip⟩, ⟨vq, iq⟩, hprod⟩ ⟨⟨vq, iq⟩, ⟨vp, ip⟩, hprod'⟩

end Expression

end SparsePoly
