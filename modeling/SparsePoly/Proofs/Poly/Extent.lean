import Mathlib
import SparsePoly.Proofs.Poly.Descent

/-!
# The extent of a product

A product forms the products of all pairs of terms, so the exponents that it adds up reach from the
sum of the lowest exponents to the sum of the degrees, and one of these two sums is out of range if
any is (`multiplies_iff`).  Only the product of the leading terms has the highest exponent, so its
coefficient is that product, snapped (`mem_products_top`).  Below it everything may cancel or be
snapped away (`multiply_extent`).
-/

namespace SparsePoly

open Term

namespace Poly

variable {p q : Poly} {a b t u : Term} {ts us : List Term} {policy : SnapPolicy}

/-! ## The lowest exponent -/

/-- The lowest exponent; zero for the zero polynomial. -/
def lowest (p : Poly) : Exponent := p.terms.getLast?.elim 0 Term.exponent

theorem exists_lowest (h : p.isZero = false) : ∃ t ∈ p.terms, t.exponent = p.lowest := by
  cases ht : p.terms.getLast? with
  | none =>
    rw [isZero, List.getLast?_eq_none_iff.1 ht] at h
    cases h
  | some t => exact ⟨t, List.mem_of_getLast? ht, by rw [lowest, ht, Option.elim_some]⟩

theorem Valid.lowest_le (hp : p.Valid) : ∀ t ∈ p.terms, p.lowest ≤ t.exponent := by
  have hdescending := hp.strictlyDescending
  unfold lowest
  rcases List.eq_nil_or_concat' p.terms with hnil | ⟨ts, t, hts⟩
  · simp [hnil]
  · rw [hts] at hdescending ⊢
    rw [List.getLast?_concat, Option.elim_some]
    intro u hu
    rcases List.mem_append.1 hu with hu | hu
    · exact Int32.le_of_lt ((List.pairwise_append.1 hdescending).2.2 u hu t (by simp))
    · rw [List.mem_singleton.1 hu]
      exact Int32.le_refl _

/-- The exponents of a polynomial are between the lowest one and the degree. -/
theorem Valid.bounds (hp : p.Valid) (ht : t ∈ p.terms) :
    p.lowest.toInt ≤ t.exponent.toInt ∧ t.exponent.toInt ≤ p.degree.toInt :=
  ⟨Int32.le_iff_toInt_le.1 (hp.lowest_le t ht), Int32.le_iff_toInt_le.1 (hp.le_degree t ht)⟩

theorem exists_degree (h : p.isZero = false) : ∃ t ∈ p.terms, t.exponent = p.degree := by
  obtain ⟨t, ht⟩ := exists_leadingTerm h
  exact ⟨t, List.mem_of_head? ht, degree_eq_of_leadingTerm ht ▸ rfl⟩

/-- The exponents of all products of terms are in range if the lowest and the highest one are. -/
theorem multiplies_iff (hp : p.Valid) (hq : q.Valid) (zp : p.isZero = false)
    (zq : q.isZero = false) : (∀ s ∈ p.terms, ∀ t ∈ q.terms, s.Multiplies t) ↔
      p.degree.toInt + q.degree.toInt ≤ 2 ^ 31 - 1 ∧
        -2 ^ 31 ≤ p.lowest.toInt + q.lowest.toInt := by
  constructor
  · intro h
    obtain ⟨s, hs, hsd⟩ := exists_degree zp
    obtain ⟨t, ht, htd⟩ := exists_degree zq
    obtain ⟨top, htop⟩ := h s hs t ht
    obtain ⟨s', hs', hsl⟩ := exists_lowest zp
    obtain ⟨t', ht', htl⟩ := exists_lowest zq
    obtain ⟨bottom, hbottom⟩ := h s' hs' t' ht'
    have := top.toInt_lt
    have := bottom.le_toInt
    rw [hsd, htd] at htop
    rw [hsl, htl] at hbottom
    omega
  · rintro ⟨hhigh, hlow⟩ s hs t ht
    have hs := hp.bounds hs
    have ht := hq.bounds ht
    exact exists_exponent ⟨by omega, by omega⟩

/-! ## Terms that are collected -/

/-- No exponent comes out that did not go in. -/
theorem exists_of_mem_ofTerms (h : t ∈ (ofTerms ts).terms) :
    ∃ u ∈ ts, u.exponent = t.exponent := by
  have hrepresents := represents_ofTerms ts
  obtain ⟨hz, hc⟩ :=
    ((hrepresents.valid.lists_terms.congr hrepresents.sums).mem_iff t).1 h
  by_contra hnone
  push Not at hnone
  rw [Term.isZero, hc, sumAt_eq_zero fun u hu => hnone u (mem_nonzero.1 hu).1] at hz
  cases hz

/-- A term that is alone with its exponent comes out as it is, unless it is zero. -/
theorem mem_ofTerms_cons (hne : ∀ u ∈ ts, u.exponent ≠ t.exponent)
    (hu : u.exponent = t.exponent) :
    u ∈ (ofTerms (t :: ts)).terms ↔ u.isZero = false ∧ u = t := by
  have hrepresents := represents_ofTerms (t :: ts)
  have hne' : ∀ v ∈ Term.nonzero ts, v.exponent ≠ t.exponent := fun v hv =>
    hne v (mem_nonzero.1 hv).1
  rw [(hrepresents.valid.lists_terms.congr hrepresents.sums).mem_iff, hu]
  refine and_congr_right fun hz => ?_
  cases ht : t.isZero with
  | true =>
    have hskip : Term.nonzero (t :: ts) = Term.nonzero ts := by simp [Term.nonzero, ht]
    rw [hskip, sumAt_eq_zero hne']
    refine iff_of_false (fun hc => ?_) (fun heq => ?_)
    · rw [Term.isZero, hc] at hz
      cases hz
    · rw [heq, ht] at hz
      cases hz
  | false =>
    have hkeep : Term.nonzero (t :: ts) = t :: Term.nonzero ts := by simp [Term.nonzero, ht]
    rw [hkeep, sumAt_cons_self hne']
    exact ⟨fun hc => Term.ext hc hu, fun heq => by rw [heq]⟩

/-- A term above which there is nothing is the leading one. -/
theorem Valid.leadingTerm_eq_some_iff (hp : p.Valid)
    (h : ∀ u ∈ p.terms, u.exponent ≤ t.exponent) : p.leadingTerm? = some t ↔ t ∈ p.terms := by
  refine ⟨fun ht => List.mem_of_head? ht, fun ht => ?_⟩
  have hdescending := hp.strictlyDescending
  rw [leadingTerm?]
  cases hts : p.terms with
  | nil =>
    rw [hts] at ht
    cases ht
  | cons u us =>
    rw [hts] at h ht hdescending
    rcases List.mem_cons.1 ht with rfl | ht
    · rfl
    · have habove := (List.pairwise_cons.1 hdescending).1 t ht
      exact absurd (Int32.lt_of_lt_of_le habove (h u List.mem_cons_self)) Int32.lt_irrefl

/-! ## Products -/

theorem exists_of_mem_products (h : ∀ s ∈ ts, ∀ t ∈ us, s.Multiplies t)
    (ht : t ∈ (ofTerms (products policy ts us)).terms) :
    ∃ s ∈ ts, ∃ u ∈ us, t.exponent.toInt = s.exponent.toInt + u.exponent.toInt := by
  obtain ⟨v, hv, he⟩ := exists_of_mem_ofTerms ht
  obtain ⟨s, hs, u, hu, rfl⟩ := mem_products.1 hv
  exact ⟨s, hs, u, hu, by rw [← he]; exact toInt_ofInt (h s hs u hu)⟩

/-- The highest exponent belongs to the product of the leading terms alone. -/
theorem mem_products_top (hts : StrictlyDescending (a :: ts)) (hus : StrictlyDescending (b :: us))
    (h : ∀ s ∈ a :: ts, ∀ u ∈ b :: us, s.Multiplies u)
    (ht : t.exponent.toInt = a.exponent.toInt + b.exponent.toInt) :
    t ∈ (ofTerms (products policy (a :: ts) (b :: us))).terms ↔
      t.isZero = false ∧ t.coefficient = policy.snap (a.coefficient * b.coefficient) := by
  have htop : t.exponent = (product policy a b).exponent := by
    rw [← Int32.toInt_inj, ht]
    exact (toInt_ofInt (h a List.mem_cons_self b List.mem_cons_self)).symm
  have hcons : products policy (a :: ts) (b :: us) =
      product policy a b :: (us.map (product policy a) ++ products policy ts (b :: us)) := rfl
  have hbelow : ∀ v ∈ us.map (product policy a) ++ products policy ts (b :: us),
      v.exponent ≠ (product policy a b).exponent := by
    have hlow {s v : Term} (hs : s ∈ a :: ts) (hv : v ∈ b :: us)
        (hlt : s.exponent.toInt + v.exponent.toInt < t.exponent.toInt) :
        (product policy s v).exponent ≠ (product policy a b).exponent := by
      rw [← htop, ← Int32.toInt_inj.ne]
      have : (product policy s v).exponent.toInt = _ := toInt_ofInt (h s hs v hv)
      omega
    have hts := fun s hs => Int32.lt_iff_toInt_lt.1 ((List.pairwise_cons.1 hts).1 s hs)
    have hus := fun v hv => Int32.lt_iff_toInt_lt.1 ((List.pairwise_cons.1 hus).1 v hv)
    intro v hv
    rcases List.mem_append.1 hv with hv | hv
    · obtain ⟨u, hu, rfl⟩ := List.mem_map.1 hv
      have := hus u hu
      exact hlow List.mem_cons_self (List.mem_cons_of_mem b hu) (by omega)
    · obtain ⟨s, hs, u, hu, rfl⟩ := mem_products.1 hv
      have := hts s hs
      refine hlow (List.mem_cons_of_mem a hs) hu ?_
      rcases List.mem_cons.1 hu with rfl | hu
      · omega
      · have := hus u hu
        omega
  rw [hcons, mem_ofTerms_cons hbelow htop]
  exact and_congr_right fun _ => ⟨fun heq => by rw [heq]; rfl, fun hc => Term.ext hc htop⟩

theorem multiply_of_isZero (h : p.isZero = true ∨ q.isZero = true) (policy : SnapPolicy) :
    multiply policy p q = .ok zero := by
  have hproducts : products policy p.terms q.terms = [] := by
    rcases h with h | h
    · rw [List.isEmpty_iff.1 h]
      rfl
    · rw [List.isEmpty_iff.1 h]
      simp [products]
  rw [multiply_eq_ok, hproducts]
  · rfl
  · intro s hs t ht
    rcases h with h | h
    · rw [List.isEmpty_iff.1 h] at hs
      cases hs
    · rw [List.isEmpty_iff.1 h] at ht
      cases ht

/-- A product that is in range, from its highest exponent to its lowest. -/
theorem exists_multiply (hp : p.Valid) (hq : q.Valid) (ha : p.leadingTerm? = some a)
    (hb : q.leadingTerm? = some b) (hhigh : a.exponent.toInt + b.exponent.toInt ≤ 2 ^ 31 - 1)
    (hlow : -2 ^ 31 ≤ p.lowest.toInt + q.lowest.toInt) (policy : SnapPolicy) :
    ∃ m, multiply policy p q = .ok m ∧ m.Valid ∧
      (∀ t ∈ m.terms, p.lowest.toInt + q.lowest.toInt ≤ t.exponent.toInt ∧
        t.exponent.toInt ≤ a.exponent.toInt + b.exponent.toInt) ∧
      ∀ t, t.exponent.toInt = a.exponent.toInt + b.exponent.toInt →
        (t ∈ m.terms ↔ t.isZero = false ∧
          t.coefficient = policy.snap (a.coefficient * b.coefficient)) := by
  have hrange : ∀ s ∈ p.terms, ∀ t ∈ q.terms,
      p.lowest.toInt + q.lowest.toInt ≤ s.exponent.toInt + t.exponent.toInt ∧
        s.exponent.toInt + t.exponent.toInt ≤ a.exponent.toInt + b.exponent.toInt := by
    intro s hs t ht
    have hs := hp.bounds hs
    have ht := hq.bounds ht
    rw [degree_eq_of_leadingTerm ha] at hs
    rw [degree_eq_of_leadingTerm hb] at ht
    omega
  have hmultiplies : ∀ s ∈ p.terms, ∀ t ∈ q.terms, s.Multiplies t := by
    intro s hs t ht
    have := hrange s hs t ht
    exact exists_exponent ⟨by omega, by omega⟩
  refine ⟨_, multiply_eq_ok hmultiplies, valid_ofTerms _, fun t ht => ?_, fun t ht => ?_⟩
  · obtain ⟨s, hs, u, hu, he⟩ := exists_of_mem_products hmultiplies ht
    rw [he]
    exact hrange s hs u hu
  · obtain ⟨ts, hts⟩ := List.head?_eq_some_iff.1 ha
    obtain ⟨us, hus⟩ := List.head?_eq_some_iff.1 hb
    have hdp := hp.strictlyDescending
    have hdq := hq.strictlyDescending
    rw [hts] at hdp
    rw [hus] at hdq
    rw [hts, hus] at hmultiplies ⊢
    exact mem_products_top hdp hdq hmultiplies ht

/-- How far a product reaches, whatever the coefficients and the snap policy are.  A product with
zero is zero.  Any other product fails if the sum of the degrees or the sum of the lowest exponents
is out of range, and for no other reason; if it does not, its exponents are between these two sums,
and at the sum of the degrees it has the product of the leading coefficients, snapped, if that is
not zero.  So this is the leading term unless it is zero. -/
theorem multiply_extent (hp : p.Valid) (hq : q.Valid) (policy : SnapPolicy) :
    (p.isZero = true ∨ q.isZero = true → multiply policy p q = .ok zero) ∧
    (p.isZero = false → q.isZero = false →
      (multiply policy p q = .error (.exponentOverflow .addition) ↔
        2 ^ 31 - 1 < p.degree.toInt + q.degree.toInt ∨
          p.lowest.toInt + q.lowest.toInt < -2 ^ 31) ∧
      (p.degree.toInt + q.degree.toInt ≤ 2 ^ 31 - 1 →
        -2 ^ 31 ≤ p.lowest.toInt + q.lowest.toInt →
        ∃ m top, multiply policy p q = .ok m ∧
          top.toInt = p.degree.toInt + q.degree.toInt ∧
          (∀ t ∈ m.terms, p.lowest.toInt + q.lowest.toInt ≤ t.exponent.toInt ∧
            t.exponent.toInt ≤ p.degree.toInt + q.degree.toInt) ∧
          (∀ c, ⟨c, top⟩ ∈ m.terms ↔ (c == 0.0) = false ∧
            c = policy.snap (p.leadingCoefficient * q.leadingCoefficient)) ∧
          (m.leadingTerm? =
              some ⟨policy.snap (p.leadingCoefficient * q.leadingCoefficient), top⟩ ↔
            (policy.snap (p.leadingCoefficient * q.leadingCoefficient) == 0.0) = false))) := by
  refine ⟨fun h => multiply_of_isZero h policy, fun zp zq => ?_⟩
  obtain ⟨a, ha⟩ := exists_leadingTerm zp
  obtain ⟨b, hb⟩ := exists_leadingTerm zq
  have hiff := multiplies_iff hp hq zp zq
  constructor
  · by_cases h : ∀ s ∈ p.terms, ∀ t ∈ q.terms, s.Multiplies t
    · rw [multiply_eq_ok h]
      have := hiff.1 h
      exact iff_of_false nofun (by omega)
    · have := mt hiff.2 h
      exact iff_of_true (multiply_of_not_multiplies h policy) (by omega)
  · intro hhigh hlow
    rw [degree_eq_of_leadingTerm ha, degree_eq_of_leadingTerm hb] at hhigh ⊢
    rw [leadingCoefficient_eq_of_leadingTerm ha, leadingCoefficient_eq_of_leadingTerm hb]
    obtain ⟨m, hm, hvalid, hrange, htop⟩ := exists_multiply hp hq ha hb hhigh hlow policy
    obtain ⟨top, hsum⟩ := exists_exponent (n := a.exponent.toInt + b.exponent.toInt)
      (by
        have := hp.bounds (List.mem_of_head? ha)
        have := hq.bounds (List.mem_of_head? hb)
        omega)
    have hmem (c : Float) : ⟨c, top⟩ ∈ m.terms ↔ (c == 0.0) = false ∧
        c = policy.snap (a.coefficient * b.coefficient) := htop ⟨c, top⟩ hsum
    refine ⟨m, top, hm, hsum, hrange, hmem, ?_⟩
    rw [hvalid.leadingTerm_eq_some_iff, hmem]
    · exact and_iff_left rfl
    · intro u hu
      rw [Int32.le_iff_toInt_le, hsum]
      exact (hrange u hu).2

/-- The product of the leading terms of `1e-200 x ^ 3 + ∞ x ^ -1` and `1e-200 x ^ 2 + 2` is lost,
and that of the least power and `x ^ -1` is out of range. -/
theorem multiply_extent_underflow :
    let p := ofTerms [⟨1e-200, 3⟩, ⟨Binary64.infinity, -1⟩]
    let q := ofTerms [⟨1e-200, 2⟩, ⟨2.0, 0⟩]
    let least := monomial 1.0 (-2147483648)
    multiply .standard zero least = .ok zero ∧
    multiply .standard least (monomial 1.0 (-1)) = .error (.exponentOverflow .addition) ∧
    ∃ m top, multiply .standard p q = .ok m ∧ top.toInt = 5 ∧ (∀ c, ⟨c, top⟩ ∉ m.terms) ∧
      ∀ t ∈ m.terms, -1 ≤ t.exponent.toInt ∧ t.exponent.toInt ≤ 5 := by
  intro p q least
  obtain ⟨hzero, -⟩ := multiply_extent (p := zero) (q := least) valid_zero (valid_ofTerms _)
    .standard
  obtain ⟨-, hleast⟩ := multiply_extent (p := least) (q := monomial 1.0 (-1)) (valid_ofTerms _)
    (valid_ofTerms _) .standard
  obtain ⟨-, hproduct⟩ := multiply_extent (p := p) (q := q) (valid_ofTerms _) (valid_ofTerms _)
    .standard
  obtain ⟨-, hproduct⟩ := hproduct (by decide +kernel) (by decide +kernel)
  obtain ⟨m, top, hm, htop, hrange, hmem, -⟩ := hproduct (by decide +kernel) (by decide +kernel)
  have hhigh : p.degree.toInt + q.degree.toInt = 5 := by decide +kernel
  have hlow : p.lowest.toInt + q.lowest.toInt = -1 := by decide +kernel
  rw [hhigh] at htop hrange
  rw [hlow] at hrange
  refine ⟨hzero (by decide), (hleast (by decide) (by decide)).1.2 (by decide), m, top, hm, htop,
    fun c hc => ?_, hrange⟩
  obtain ⟨hne, rfl⟩ := (hmem c).1 hc
  exact absurd hne (by decide +kernel)

end Poly

end SparsePoly
