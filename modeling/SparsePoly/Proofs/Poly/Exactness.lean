import Mathlib
import SparsePoly.Poly.Arithmetic
import SparsePoly.Proofs.Poly.Laurent

/-!
# Exact sums and products

An operation on polynomials with integral coefficients is exact if the products and the sums that it
forms are at most `2 ^ 53` (`SumExact`, `ProductExact`).  Here that is brought to lists of terms:
the lists that sums and products append have exact sums (`IntegralForm.exactSums_append`,
`IntegralForm.exactSums_products`), and the products of all pairs of terms make up the product of
the Laurent polynomials (`laurent_products`).
-/

open SparsePoly.Binary64
open scoped LaurentPolynomial

namespace SparsePoly

/-! ## Which operations are exact -/

/-- Where both polynomials have a coefficient, the sum of the two is at most `2 ^ 53`. -/
def SumExact (P Q : ℤ[T;T⁻¹]) : Prop :=
  ∀ n, P.coeff n ≠ 0 → Q.coeff n ≠ 0 → |P.coeff n + Q.coeff n| ≤ 2 ^ 53

/-- The part of a Laurent polynomial with exponents from `k` on. -/
noncomputable def upper (k : ℤ) (P : ℤ[T;T⁻¹]) : ℤ[T;T⁻¹] := .ofCoeff (P.coeff.filter (k ≤ ·))

/-- What a product forms is exact.  Its terms come by descending exponent of `P`, so the sums formed
on the way are coefficients of the products of `Q` with the upper parts of `P`. -/
structure ProductExact (P Q : ℤ[T;T⁻¹]) : Prop where
  products : ∀ i j, |P.coeff i * Q.coeff j| ≤ 2 ^ 53
  sums : ∀ k n, |(upper k P * Q).coeff n| ≤ 2 ^ 53
  exponents : ∀ i j, P.coeff i ≠ 0 → Q.coeff j ≠ 0 → -2 ^ 31 ≤ i + j ∧ i + j < 2 ^ 31

theorem coeff_upper (k : ℤ) (P : ℤ[T;T⁻¹]) (n : ℤ) :
    (upper k P).coeff n = if k ≤ n then P.coeff n else 0 := Finsupp.filter_apply ..

theorem coeff_single (m c n : ℤ) :
    (.single m c : ℤ[T;T⁻¹]).coeff n = if m = n then c else 0 := Finsupp.single_apply

theorem exists_exponent {n : ℤ} (h : -2 ^ 31 ≤ n ∧ n < 2 ^ 31) : ∃ e : Exponent, e.toInt = n :=
  ⟨Int32.ofInt n, Int32.toInt_ofInt_of_le (by omega) (by omega)⟩

namespace Term

/-! ## Normal forms with integral coefficients -/

/-- The list is a normal form, and its coefficients are integers. -/
structure IntegralForm (ts : List Term) : Prop where
  descending : StrictlyDescending ts
  isZero : ∀ t ∈ ts, t.isZero = false
  integral : Integral ts

variable {ts us : List Term}

theorem IntegralForm.sublist (h : IntegralForm us) (hs : ts.Sublist us) : IntegralForm ts where
  descending := List.Pairwise.sublist hs h.descending
  isZero t ht := h.isZero t (hs.subset ht)
  integral t ht := h.integral t (hs.subset ht)

theorem IntegralForm.coeff_eq (h : IntegralForm ts) {t : Term} (ht : t ∈ ts) :
    (laurent ts).coeff t.exponent.toInt = toInt t.coefficient := by
  have hmem : t.coefficient ∈ coefficientsAt ts t.exponent :=
    List.mem_map.2 ⟨t, List.mem_filter.2 ⟨ht, by simp⟩, rfl⟩
  have hlen := h.descending.length_coefficientsAt_le t.exponent
  rw [coeff_laurent]
  match coefficientsAt ts t.exponent, hmem, hlen with
  | [c], hmem, _ => simp [List.mem_singleton.1 hmem]

theorem IntegralForm.coeff_ne_zero (h : IntegralForm ts) {t : Term} (ht : t ∈ ts) :
    (laurent ts).coeff t.exponent.toInt ≠ 0 := by
  rw [h.coeff_eq ht]
  exact toInt_ne_zero (h.integral t ht) (h.isZero t ht)

theorem negate_isInt {t : Term} (h : IsInt t.coefficient (toInt t.coefficient)) :
    IsInt t.negate.coefficient (-toInt t.coefficient) := h.neg

theorem IntegralForm.negate (h : IntegralForm ts) : IntegralForm (ts.map Term.negate) where
  descending := List.pairwise_map.2 h.descending
  isZero := by
    simp only [List.mem_map, forall_exists_index, and_imp, forall_apply_eq_imp_iff₂]
    intro t ht
    rw [Term.isZero, ← Bool.not_eq_true, (negate_isInt (h.integral t ht)).beq_zero, neg_eq_zero]
    exact toInt_ne_zero (h.integral t ht) (h.isZero t ht)
  integral := by
    simp only [Integral, List.mem_map, forall_exists_index, and_imp, forall_apply_eq_imp_iff₂]
    intro t ht
    have := negate_isInt (h.integral t ht)
    rwa [this.toInt_eq]

theorem laurent_map_negate (h : Integral ts) : laurent (ts.map Term.negate) = -laurent ts := by
  induction ts with
  | nil => simp
  | cons t ts ih =>
    have ht : t.negate.monomial = -t.monomial := by
      have := (negate_isInt (h t List.mem_cons_self)).toInt_eq
      ext n
      rw [AddMonoidAlgebra.coeff_neg, Finsupp.neg_apply, coeff_monomial, coeff_monomial, this]
      show (if t.exponent.toInt = n then _ else _) = _
      split_ifs <;> simp
    rw [List.map_cons, laurent_cons, laurent_cons, ht,
      ih fun u hu => h u (List.mem_cons_of_mem t hu), neg_add]

/-! ## Sums -/

theorem IntegralForm.nonzero_append (ht : IntegralForm ts) (hu : IntegralForm us) :
    nonzero (ts ++ us) = ts ++ us := by
  refine nonzero_eq_self fun t h => ?_
  rcases List.mem_append.1 h with h | h
  · exact ht.isZero t h
  · exact hu.isZero t h

theorem IntegralForm.exactSums_append (ht : IntegralForm ts) (hu : IntegralForm us)
    (h : SumExact (laurent ts) (laurent us)) : ExactSums (ts ++ us) where
  integral t hmem := by
    rcases List.mem_append.1 hmem with hmem | hmem
    · exact ht.integral t hmem
    · exact hu.integral t hmem
  bounded e ns hns hlen := by
    have h₁ := ht.descending.length_coefficientsAt_le e
    have h₂ := hu.descending.length_coefficientsAt_le e
    have hle := hns.length_le
    have hlength : ((coefficientsAt (ts ++ us) e).map toInt).length =
        (coefficientsAt ts e).length + (coefficientsAt us e).length := by
      rw [coefficientsAt_append, List.length_map, List.length_append]
    -- there are at most two coefficients, so the sum is the whole one
    have hns : ns = (coefficientsAt (ts ++ us) e).map toInt :=
      hns.eq_of_length_le (by omega)
    have present {l : List Term} (hl : IntegralForm l) (hlen : 0 < (coefficientsAt l e).length) :
        (laurent l).coeff e.toInt ≠ 0 := by
      obtain ⟨c, hc⟩ := List.exists_mem_of_length_pos hlen
      obtain ⟨t, hmem, -⟩ := List.mem_map.1 hc
      obtain ⟨hmem, he⟩ := List.mem_filter.1 hmem
      have he : t.exponent = e := by simpa using he
      rw [← he]
      exact hl.coeff_ne_zero hmem
    rw [hns, ← coeff_laurent, laurent_append, AddMonoidAlgebra.coeff_add, Finsupp.add_apply]
    exact h e.toInt (present ht (by omega)) (present hu (by omega))

/-! ## Products -/

/-- The product of two terms whose exponents have a sum in range. -/
def product (policy : SnapPolicy) (a b : Term) : Term :=
  ⟨policy.snap (a.coefficient * b.coefficient), Int32.ofInt (a.exponent.toInt + b.exponent.toInt)⟩

/-- The exponent of the product of two terms is in range. -/
def Multiplies (a b : Term) : Prop :=
  ∃ e : Exponent, e.toInt = a.exponent.toInt + b.exponent.toInt

/-- The products of all pairs of terms, row by row. -/
def products (policy : SnapPolicy) (ts us : List Term) : List Term :=
  ts.flatMap fun a => us.map (product policy a)

variable {policy : SnapPolicy} {a b : Term}

theorem Multiplies.multiply_eq (h : a.Multiplies b) (policy : SnapPolicy) :
    a.multiply policy b = .ok (product policy a b) := by
  have hplus : a.exponent.plus b.exponent =
      .ok (Int32.ofInt (a.exponent.toInt + b.exponent.toInt)) :=
    Exponent.plus_eq_ok_iff.2 (toInt_ofInt h)
  rw [multiply, hplus]
  rfl

theorem multiply_of_not_multiplies (h : ¬ a.Multiplies b) (policy : SnapPolicy) :
    a.multiply policy b = .error (.exponentOverflow .addition) := by
  rw [multiply, Exponent.plus_eq_error h]
  rfl

theorem multiply_cases (policy : SnapPolicy) (a b : Term) :
    (∃ t, a.multiply policy b = .ok t) ∨
      a.multiply policy b = .error (.exponentOverflow .addition) := by
  by_cases h : a.Multiplies b
  · exact Or.inl ⟨_, h.multiply_eq policy⟩
  · exact Or.inr (multiply_of_not_multiplies h policy)

/-- What one product forms is exact. -/
structure TermsExact (a b : Term) : Prop where
  left : IsInt a.coefficient (toInt a.coefficient)
  right : IsInt b.coefficient (toInt b.coefficient)
  product_le : |toInt a.coefficient * toInt b.coefficient| ≤ 2 ^ 53
  exponent : ∃ e : Exponent, e.toInt = a.exponent.toInt + b.exponent.toInt

theorem TermsExact.isInt_product (h : TermsExact a b) (policy : SnapPolicy) :
    IsInt (product policy a b).coefficient (toInt a.coefficient * toInt b.coefficient) := by
  have hmul := h.left.mul h.right h.product_le
  rw [product, hmul.snap]
  exact hmul

theorem TermsExact.toInt_exponent (h : TermsExact a b) (policy : SnapPolicy) :
    (product policy a b).exponent.toInt = a.exponent.toInt + b.exponent.toInt :=
  toInt_ofInt h.exponent

theorem TermsExact.monomial_product (h : TermsExact a b) (policy : SnapPolicy) :
    (product policy a b).monomial = a.monomial * b.monomial := by
  rw [monomial, monomial, monomial, AddMonoidAlgebra.single_mul_single, h.toInt_exponent,
    (h.isInt_product policy).toInt_eq]

theorem TermsExact.isZero_product (h : TermsExact a b) (ha : a.isZero = false)
    (hb : b.isZero = false) : (product policy a b).isZero = false := by
  rw [isZero, ← Bool.not_eq_true, (h.isInt_product policy).beq_zero]
  exact mul_ne_zero (toInt_ne_zero h.left ha) (toInt_ne_zero h.right hb)

theorem mem_products {t : Term} :
    t ∈ products policy ts us ↔ ∃ a ∈ ts, ∃ b ∈ us, product policy a b = t := by
  simp [products]

theorem laurent_row (h : ∀ b ∈ us, TermsExact a b) :
    laurent (us.map (product policy a)) = a.monomial * laurent us := by
  induction us with
  | nil => simp
  | cons b us ih =>
    rw [List.map_cons, laurent_cons, laurent_cons, (h b List.mem_cons_self).monomial_product,
      ih fun c hc => h c (List.mem_cons_of_mem b hc), mul_add]

/-- The products of all pairs make up the product of the Laurent polynomials. -/
theorem laurent_products (h : ∀ a ∈ ts, ∀ b ∈ us, TermsExact a b) :
    laurent (products policy ts us) = laurent ts * laurent us := by
  induction ts with
  | nil => simp [products]
  | cons a ts ih =>
    have hcons : products policy (a :: ts) us =
        us.map (product policy a) ++ products policy ts us := rfl
    rw [hcons, laurent_append, laurent_row (h a List.mem_cons_self),
      ih fun c hc => h c (List.mem_cons_of_mem a hc), laurent_cons, add_mul]

theorem strictlyDescending_row (hu : StrictlyDescending us) (h : ∀ b ∈ us, TermsExact a b) :
    StrictlyDescending (us.map (product policy a)) := by
  refine List.pairwise_map.2 (List.Pairwise.imp_of_mem (fun {b c} hb hc hbc => ?_) hu)
  rw [Int32.lt_iff_toInt_lt, (h b hb).toInt_exponent, (h c hc).toInt_exponent]
  rw [Int32.lt_iff_toInt_lt] at hbc
  omega

/-- A prefix of a list put together from pieces of at most one element is put together from the
pieces of a prefix. -/
theorem exists_prefix_flatMap {α β : Type} {f : α → List β} {l : List α} {ns : List β}
    (hf : ∀ a ∈ l, (f a).length ≤ 1) (h : ns <+: l.flatMap f) :
    ∃ l', l' <+: l ∧ ns = l'.flatMap f := by
  induction l generalizing ns with
  | nil => exact ⟨[], List.nil_prefix, by simpa using h⟩
  | cons a l ih =>
    have ha := hf a List.mem_cons_self
    have hl := fun b hb => hf b (List.mem_cons_of_mem a hb)
    rw [List.flatMap_cons] at h
    match hfa : f a, ha with
    | [], _ =>
      rw [hfa, List.nil_append] at h
      obtain ⟨l', hp, rfl⟩ := ih hl h
      exact ⟨a :: l', by simpa [List.prefix_cons_inj] using hp, by simp [hfa]⟩
    | [b], _ =>
      rw [hfa, List.singleton_append] at h
      cases ns with
      | nil => exact ⟨[], List.nil_prefix, rfl⟩
      | cons c ns =>
        obtain ⟨rfl, htail⟩ := List.cons_prefix_cons.1 h
        obtain ⟨l', hp, rfl⟩ := ih hl htail
        exact ⟨a :: l', by simpa [List.prefix_cons_inj] using hp, by simp [hfa]⟩

/-- A prefix of a normal form is the upper part of its Laurent polynomial. -/
theorem laurent_eq_upper (hd : StrictlyDescending ts) {l : List Term} {t : Term}
    (h : l ++ [t] <+: ts) : laurent (l ++ [t]) = upper t.exponent.toInt (laurent ts) := by
  obtain ⟨rest, rfl⟩ := h
  obtain ⟨hl, -, hrest⟩ := List.pairwise_append.1 hd
  have hlast : ∀ u ∈ l ++ [t], t.exponent.toInt ≤ u.exponent.toInt := by
    intro u hu
    rcases List.mem_append.1 hu with hu | hu
    · exact (Int32.lt_iff_toInt_lt.1 ((List.pairwise_append.1 hl).2.2 u hu t (by simp))).le
    · rw [List.mem_singleton.1 hu]
  have hbelow : ∀ u ∈ rest, u.exponent.toInt < t.exponent.toInt := fun u hu =>
    Int32.lt_iff_toInt_lt.1 (hrest t (by simp) u hu)
  ext n
  rw [coeff_upper, laurent_append _ rest, AddMonoidAlgebra.coeff_add, Finsupp.add_apply]
  split_ifs with hn
  · rw [left_eq_add]
    by_contra hne
    obtain ⟨u, hu, rfl⟩ := exists_of_coeff_laurent_ne_zero hne
    exact absurd (hbelow u hu) (by omega)
  · by_contra hne
    obtain ⟨u, hu, rfl⟩ := exists_of_coeff_laurent_ne_zero hne
    exact hn (hlast u hu)

theorem IntegralForm.termsExact (ht : IntegralForm ts) (hu : IntegralForm us)
    (h : ProductExact (laurent ts) (laurent us)) : ∀ a ∈ ts, ∀ b ∈ us, TermsExact a b :=
  fun a ha b hb => {
    left := ht.integral a ha
    right := hu.integral b hb
    product_le := by
      rw [← ht.coeff_eq ha, ← hu.coeff_eq hb]
      exact h.products _ _
    exponent := exists_exponent (h.exponents _ _ (ht.coeff_ne_zero ha) (hu.coeff_ne_zero hb)) }

/-- The sums that a product forms are exact. -/
theorem IntegralForm.exactSums_products (ht : IntegralForm ts) (hu : IntegralForm us)
    (h : ProductExact (laurent ts) (laurent us)) (policy : SnapPolicy) :
    ExactSums (products policy ts us) where
  integral t hmem := by
    obtain ⟨a, ha, b, hb, rfl⟩ := mem_products.1 hmem
    have := (ht.termsExact hu h a ha b hb).isInt_product policy
    rwa [this.toInt_eq]
  bounded e ns hns hlen := by
    have hexact := ht.termsExact hu h
    have hrows (l : List Term) : (coefficientsAt (products policy l us) e).map toInt =
        l.flatMap fun a => (coefficientsAt (us.map (product policy a)) e).map toInt := by
      simp [coefficientsAt, products, List.filter_flatMap, List.map_flatMap]
    rw [hrows] at hns
    obtain ⟨l, hl, rfl⟩ := exists_prefix_flatMap (fun a ha => by
      rw [List.length_map]
      exact (strictlyDescending_row hu.descending (hexact a ha)).length_coefficientsAt_le e) hns
    rw [← hrows, ← coeff_laurent, laurent_products fun a ha => hexact a (hl.subset ha)]
    rcases List.eq_nil_or_concat' l with rfl | ⟨l, t, rfl⟩
    · simp at hlen
    · rw [laurent_eq_upper ht.descending hl]
      exact h.sums _ _

end Term

end SparsePoly
