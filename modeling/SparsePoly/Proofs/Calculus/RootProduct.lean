import Mathlib
import SparsePoly.Proofs.Calculus.Homomorphism
import SparsePoly.Proofs.Calculus.Remainder
import SparsePoly.Proofs.Poly.Extent
import SparsePoly.Proofs.SnapPolicy.WriteOnce

/-!
# Products over a list of roots

Each factor `x - root` raises the degree by one, and the leading coefficient is a product of ones
that no policy changes, so that the product over `n` roots has the leading term `x ^ n` whatever the
roots are, also where they are not numbers (`exists_monic_fromRoots`).  For integral roots it is the
product over the integers as long as no product and no sum on the way is above `2 ^ 53`
(`exists_reads_fromRoots`).

That does not bound the sums that a value is computed from.  They are bounded apart
(`fromRoots_product`), because a root can miss the value zero otherwise (`fromRoots_sum_rounded`).
-/

open Polynomial SparsePoly.Binary64 SparsePoly.Laurent
open scoped LaurentPolynomial

namespace SparsePoly

open Term

/-! ## Products over the integers -/

section Integral

variable {f : ℤ[X]} {r : ℤ} {ns : List ℤ}

/-- The product of `x - r` over a list of integers. -/
noncomputable def rootProduct (ns : List ℤ) : ℤ[X] := (ns.map fun r => X - C r).prod

theorem rootProduct_perm {ms : List ℤ} (h : ms.Perm ns) : rootProduct ms = rootProduct ns :=
  (h.map _).prod_eq

theorem eval_rootProduct (h : r ∈ ns) : (rootProduct ns).eval r = 0 := by
  rw [rootProduct, eval_list_prod, List.prod_eq_zero_iff, List.map_map]
  exact List.mem_map.2 ⟨r, h, by simp⟩

/-- What the product with `x - r` forms is at most `2 ^ 53`: the products with both coefficients of
the factor, and the sums of two of them. -/
structure FactorExact (f : ℤ[X]) (r : ℤ) : Prop where
  coefficients : ∀ n, |f.coeff n| ≤ 2 ^ 53
  products : ∀ n, |f.coeff n * r| ≤ 2 ^ 53
  sums : ∀ n, |(f * (X - C r)).coeff n| ≤ 2 ^ 53

/-- What is formed when `f` is multiplied by one factor after another is at most `2 ^ 53`. -/
def FactorsExact : ℤ[X] → List ℤ → Prop
  | _, [] => True
  | f, r :: rs => FactorExact f r ∧ FactorsExact (f * (X - C r)) rs

/-- What holds of zero and of the coefficients holds at every exponent. -/
theorem forall_coeff_toLaurent {P : ℤ → Prop} (h₀ : P 0) (h : ∀ n, P (f.coeff n)) (k : ℤ) :
    P ((toLaurent f).coeff k) := by
  by_cases hk : (toLaurent f).coeff k = 0
  · rwa [hk]
  · lift k to ℕ using nonneg_of_coeff_toLaurent_ne_zero hk
    rw [coeff_toLaurent]
    exact h k

theorem abs_coeff_toLaurent_le (h : ∀ n, |f.coeff n| ≤ 2 ^ 53) (k : ℤ) :
    |(toLaurent f).coeff k| ≤ 2 ^ 53 :=
  forall_coeff_toLaurent (P := fun c => |c| ≤ 2 ^ 53) (by norm_num) h k

theorem coeff_mul_X_sub_C (P : ℤ[T;T⁻¹]) (r j : ℤ) :
    (P * toLaurent (X - C r)).coeff j = P.coeff (j - 1) + P.coeff j * -r := by
  rw [X_sub_C_eq, toLaurent_linear, mul_add, AddMonoidAlgebra.coeff_add, Finsupp.add_apply,
    AddMonoidAlgebra.coeff_mul_single_apply, AddMonoidAlgebra.coeff_mul_single_apply, mul_one,
    neg_zero, add_zero]
  rfl

/-- With the factor `x - r` two products have the same exponent.  The one with `-r` belongs to the
higher exponent of `f`, so it is the first of the two. -/
theorem FactorExact.productExact (h : FactorExact f r) (hdegree : f.natDegree + 1 < 2 ^ 31) :
    ProductExact (toLaurent f) (toLaurent (X - C r)) := by
  have hproduct (i : ℤ) : |(toLaurent f).coeff i * -r| ≤ 2 ^ 53 := by
    rw [mul_neg, abs_neg]
    exact forall_coeff_toLaurent (P := fun c => |c * r| ≤ 2 ^ 53) (by norm_num) h.products i
  refine ⟨fun i j => ?_, fun k j => ?_, fun i j hi hj => ?_⟩
  · rw [X_sub_C_eq, coeff_toLaurent_linear]
    split_ifs
    · rw [mul_one]
      exact abs_coeff_toLaurent_le h.coefficients i
    · exact hproduct i
    · norm_num
  · have hwhole := abs_coeff_toLaurent_le h.sums j
    rw [map_mul, coeff_mul_X_sub_C] at hwhole
    rw [coeff_mul_X_sub_C, coeff_upper, coeff_upper]
    split_ifs
    · exact hwhole
    · omega
    · rw [zero_add]
      exact hproduct j
    · norm_num
  · have hi₀ := nonneg_of_coeff_toLaurent_ne_zero hi
    lift i to ℕ using hi₀
    rw [coeff_toLaurent] at hi
    have hle := le_natDegree_of_ne_zero hi
    rw [X_sub_C_eq, coeff_toLaurent_linear] at hj
    split_ifs at hj <;> omega

/-- A factor `x - r` makes the coefficients larger by `1 + |r|` at most. -/
theorem abs_coeff_mul_X_sub_C_le {B : ℤ} (h : ∀ n, |f.coeff n| ≤ B) (r : ℤ) (n : ℕ) :
    |(f * (X - C r)).coeff n| ≤ B * (1 + |r|) := by
  have hB : 0 ≤ B := (abs_nonneg _).trans (h 0)
  have hprevious : |(f * X).coeff n| ≤ B := by
    cases n with
    | zero => simpa using hB
    | succ n =>
      rw [coeff_mul_X]
      exact h n
  have hproduct : |f.coeff n * r| ≤ B * |r| := by
    rw [abs_mul]
    exact mul_le_mul_of_nonneg_right (h n) (abs_nonneg r)
  rw [mul_sub, coeff_sub, coeff_mul_C]
  linarith [abs_sub (((f * X).coeff n)) (f.coeff n * r)]

/-- Products are exact if the product of the numbers `1 + |r|` is at most `2 ^ 53`. -/
theorem factorsExact_of_prod_le : ∀ {ns : List ℤ} {f : ℤ[X]} {B : ℤ}, (∀ n, |f.coeff n| ≤ B) →
    B * (ns.map fun r => 1 + |r|).prod ≤ 2 ^ 53 → FactorsExact f ns
  | [], _, _, _, _ => trivial
  | r :: rs, f, B, h, hle => by
    have hB : 0 ≤ B := (abs_nonneg _).trans (h 0)
    have hrest : 1 ≤ (rs.map fun r => 1 + |r|).prod :=
      List.one_le_prod fun q hq => by
        obtain ⟨r, -, rfl⟩ := List.mem_map.1 hq
        linarith [abs_nonneg r]
    rw [List.map_cons, List.prod_cons, ← mul_assoc] at hle
    have hfactor : B * (1 + |r|) ≤ 2 ^ 53 := by
      refine le_trans (le_mul_of_one_le_right ?_ hrest) hle
      exact mul_nonneg hB (by linarith [abs_nonneg r])
    have hsums := abs_coeff_mul_X_sub_C_le h r
    refine ⟨⟨fun n => ?_, fun n => ?_, fun n => (hsums n).trans hfactor⟩,
      factorsExact_of_prod_le hsums hle⟩
    · linarith [h n, mul_nonneg hB (abs_nonneg r)]
    · rw [abs_mul]
      linarith [mul_le_mul_of_nonneg_right (h n) (abs_nonneg r)]

end Integral

/-! ## One factor -/

namespace Poly

variable {m : Poly} {k : ℕ} {x : Float} {f : ℤ[X]} {xs : List Float} {ns : List ℤ}
  {policy : SnapPolicy}

/-- The leading term is `x ^ k`, and there are no negative exponents. -/
structure Monic (m : Poly) (k : ℕ) : Prop where
  valid : m.Valid
  lead : ∃ e : Exponent, e.toInt = k ∧ m.leadingTerm? = some ⟨1.0, e⟩
  nonneg : ∀ t ∈ m.terms, 0 ≤ t.exponent.toInt

theorem Monic.isZero (h : Monic m k) : m.isZero = false := by
  obtain ⟨e, -, hlead⟩ := h.lead
  obtain ⟨ts, hts⟩ := List.head?_eq_some_iff.1 hlead
  rw [Poly.isZero, hts]
  rfl

theorem Monic.nonneg_lowest (h : Monic m k) : 0 ≤ m.lowest.toInt := by
  obtain ⟨t, ht, hlow⟩ := exists_lowest h.isZero
  rw [← hlow]
  exact h.nonneg t ht

theorem Monic.le_of_mem (h : Monic m k) {t : Term} (ht : t ∈ m.terms) : t.exponent.toInt ≤ k := by
  obtain ⟨e, he, hlead⟩ := h.lead
  have hle := (h.valid.bounds ht).2
  rwa [degree_eq_of_leadingTerm hlead, he] at hle

theorem monic_one : Monic one 0 where
  valid := valid_ofTerms _
  lead := ⟨0, rfl, by decide⟩
  nonneg := by decide

theorem isZero_one (e : Exponent) : Term.isZero ⟨1.0, e⟩ = false := by
  show (1.0 == 0.0) = false
  decide

theorem terms_rootFactor (x : Float) :
    (rootFactor x).terms = ⟨1.0, 1⟩ :: Term.nonzero [⟨-x, 0⟩] := by
  have hdescending : StrictlyDescending [⟨1.0, 1⟩, ⟨-x, 0⟩] := by simp [StrictlyDescending]
  rw [rootFactor, terms_ofTerms hdescending, Term.nonzero, Term.nonzero, List.filter_cons_of_pos]
  rw [isZero_one]
  rfl

theorem monic_rootFactor (x : Float) : Monic (rootFactor x) 1 where
  valid := valid_ofTerms _
  lead := ⟨1, rfl, by rw [leadingTerm?, terms_rootFactor]; rfl⟩
  nonneg t ht := by
    rw [terms_rootFactor] at ht
    rcases List.mem_cons.1 ht with rfl | ht
    · decide
    · rw [List.mem_singleton.1 (mem_nonzero.1 ht).1]
      rfl

/-- No snap policy changes the product of the leading coefficients. -/
theorem snap_one_mul_one (policy : SnapPolicy) : policy.snap (1.0 * 1.0) = 1.0 := by
  have hone : IsInt 1.0 1 := isInt_of_isNat (by decide)
  have hproduct : IsInt (1.0 * 1.0) 1 := hone.mul hone (by norm_num)
  rw [hproduct.snap]
  exact hproduct.eq hone one_ne_zero

/-- The degrees of monic polynomials add up. -/
theorem Monic.exists_multiply {p q : Poly} {l : ℕ} (hp : Monic p k) (hq : Monic q l)
    (h : k + l < 2 ^ 31) (policy : SnapPolicy) :
    ∃ m, multiply policy p q = .ok m ∧ Monic m (k + l) := by
  obtain ⟨d, hd, hlead⟩ := hp.lead
  obtain ⟨e, he, hlead'⟩ := hq.lead
  have hlow := hp.nonneg_lowest
  have hlow' := hq.nonneg_lowest
  obtain ⟨m, hm, hvalid, hrange, htop⟩ :=
    Poly.exists_multiply hp.valid hq.valid hlead hlead' (by rw [hd, he]; omega) (by omega) policy
  obtain ⟨top, hsum⟩ := exists_exponent (n := d.toInt + e.toInt) (by omega)
  have hmem : ⟨1.0, top⟩ ∈ m.terms := (htop ⟨1.0, top⟩ hsum).2
    ⟨isZero_one top, (snap_one_mul_one policy).symm⟩
  refine ⟨m, hm, hvalid, ⟨top, by rw [hsum, hd, he]; push_cast; rfl, ?_⟩, fun t ht => ?_⟩
  · refine (hvalid.leadingTerm_eq_some_iff fun u hu => ?_).2 hmem
    rw [Int32.le_iff_toInt_le, hsum]
    exact (hrange u hu).2
  · exact le_trans (by omega) (hrange t ht).1

/-! ## The fold -/

/-- What the steps of a fold preserve, with what is left of the list, holds at its end. -/
theorem foldlM_ok {α β : Type} {g : β → α → Except Error β} (P : List α → β → Prop)
    (step : ∀ a l b, P (a :: l) b → ∃ c, g b a = .ok c ∧ P l c) :
    ∀ {l : List α} {b : β}, P l b → ∃ c, l.foldlM g b = .ok c ∧ P [] c
  | [], b, h => ⟨b, rfl, h⟩
  | a :: l, b, h => by
    obtain ⟨c, hc, h⟩ := step a l b h
    obtain ⟨d, hd, h⟩ := foldlM_ok P step h
    refine ⟨d, ?_, h⟩
    rw [List.foldlM_cons, hc]
    exact hd

theorem exists_monic_fromRoots (policy : SnapPolicy) (h : xs.length < 2 ^ 31) :
    ∃ m, fromRoots policy xs = .ok m ∧ Monic m xs.length := by
  obtain ⟨m, hm, k, hmonic, hk⟩ := foldlM_ok
    (fun l p => ∃ k, Monic p k ∧ k + l.length = xs.length)
    (fun x l p ⟨k, hp, hk⟩ => by
      rw [List.length_cons] at hk
      obtain ⟨q, hq, hmonic⟩ := hp.exists_multiply (monic_rootFactor x) (by omega) policy
      exact ⟨q, hq, k + 1, hmonic, by omega⟩)
    ⟨0, monic_one, zero_add _⟩
  rw [List.length_nil, add_zero] at hk
  exact ⟨m, hm, hk ▸ hmonic⟩

/-- The product so far, with the roots that are left, makes up `F`. -/
structure Partway (F : ℤ[X]) (xs : List Float) (p : Poly) (f : ℤ[X]) (ns : List ℤ) : Prop where
  reads : p.Reads (toLaurent f)
  roots : List.Forall₂ IsInt xs ns
  factors : FactorsExact f ns
  degree : f.natDegree + ns.length < 2 ^ 31
  product : f * rootProduct ns = F

theorem Partway.step {F : ℤ[X]} {p : Poly} (h : Partway F (x :: xs) p f ns)
    (policy : SnapPolicy) : ∃ q, multiply policy p (rootFactor x) = .ok q ∧
      ∃ g ms, Partway F xs q g ms := by
  obtain ⟨hread, hroots, hexact, hdegree, hproduct⟩ := h
  obtain ⟨r, rs, hx, hxs, rfl⟩ := List.forall₂_cons_left_iff.1 hroots
  obtain ⟨hr, hrs⟩ := hexact
  rw [List.length_cons] at hdegree
  obtain ⟨q, hq, hread⟩ :=
    hread.multiply (reads_rootFactor hx) (hr.productExact (by omega)) policy
  rw [← map_mul] at hread
  have hnext : (f * (X - C r)).natDegree ≤ f.natDegree + 1 := by
    refine natDegree_mul_le.trans ?_
    rw [natDegree_X_sub_C]
  refine ⟨q, hq, f * (X - C r), rs, hread, hxs, hrs, by omega, ?_⟩
  rw [← hproduct, rootProduct, rootProduct, List.map_cons, List.prod_cons, mul_assoc]

/-- Integral roots with exact products. -/
theorem exists_reads_fromRoots (policy : SnapPolicy) (hxs : List.Forall₂ IsInt xs ns)
    (hexact : FactorsExact 1 ns) (h : xs.length < 2 ^ 31) :
    ∃ m, fromRoots policy xs = .ok m ∧ m.Reads (toLaurent (rootProduct ns)) := by
  have hone : one.Reads (toLaurent 1) := by
    rw [← C_1]
    exact reads_constant (isInt_of_isNat (by decide))
  have hdegree : (1 : ℤ[X]).natDegree + ns.length < 2 ^ 31 := by
    rwa [natDegree_one, zero_add, ← hxs.length_eq]
  obtain ⟨m, hm, f, ms, hend⟩ := foldlM_ok
    (fun l p => ∃ f ms, Partway (rootProduct ns) l p f ms)
    (fun x l p ⟨f, ms, hp⟩ => hp.step policy)
    ⟨1, ns, hone, hxs, hexact, hdegree, one_mul _⟩
  have hproduct := hend.product
  rw [List.forall₂_nil_left_iff.1 hend.roots, rootProduct, List.map_nil, List.prod_nil, mul_one]
    at hproduct
  exact ⟨m, hm, hproduct ▸ hend.reads⟩

theorem run_fromRoots (xs : List Float) (s : PolicyState) :
    ((InEffect.fromRoots xs).run s).1 = fromRoots s.policy xs := by
  rw [Follows.fromRoots xs s]
  cases xs <;> rfl

/-- The product over a list of roots has the leading term `x ^ n` for `n` roots and exponents from
zero to `n`, whatever the roots and the policy in effect are.  If the roots are integers and nothing
that is formed is above `2 ^ 53`, it is the product over the integers, also for another order of the
roots, and has the value zero at each root if the powers, products and sums of the value are at most
`2 ^ 53` as well. -/
theorem fromRoots_product (h : xs.length < 2 ^ 31) (s : PolicyState) :
    ∃ m, ((InEffect.fromRoots xs).run s).1 = .ok m ∧
      (∃ e : Exponent, e.toInt = xs.length ∧ m.leadingTerm? = some ⟨1.0, e⟩) ∧
      (∀ t ∈ m.terms, 0 ≤ t.exponent.toInt ∧ t.exponent.toInt ≤ xs.length) ∧
      ∀ ns, List.Forall₂ IsInt xs ns → FactorsExact 1 ns →
        m.terms = laurentTerms (toLaurent (rootProduct ns)) ∧
        (∀ ys ms s', List.Forall₂ IsInt ys ms → ms.Perm ns → FactorsExact 1 ms →
          ∃ q, ((InEffect.fromRoots ys).run s').1 = .ok q ∧ q.terms = m.terms) ∧
        ∀ x r, IsInt x r → r ∈ ns → EvalExact (rootProduct ns) r → IsInt (m.eval x) 0 := by
  obtain ⟨m, hm, hmonic⟩ := exists_monic_fromRoots s.policy h
  rw [run_fromRoots]
  refine ⟨m, hm, hmonic.lead, fun t ht => ⟨hmonic.nonneg t ht, hmonic.le_of_mem ht⟩,
    fun ns hxs hexact => ?_⟩
  obtain ⟨m', hm', hread⟩ := exists_reads_fromRoots s.policy hxs hexact h
  obtain rfl : m = m' := Except.ok.inj (hm.symm.trans hm')
  refine ⟨hread.terms_eq, fun ys ms s' hys hperm hexact' => ?_, fun x r hx hr heval => ?_⟩
  · have hlength : ys.length < 2 ^ 31 := by
      rwa [hys.length_eq, hperm.length_eq, ← hxs.length_eq]
    obtain ⟨q, hq, hread'⟩ := exists_reads_fromRoots s'.policy hys hexact' hlength
    refine ⟨q, by rw [run_fromRoots, hq], ?_⟩
    rw [hread'.terms_eq, hread.terms_eq, rootProduct_perm hperm]
  · rw [← eval_rootProduct hr]
    exact hread.isInt_eval hx heval

/-- The product over `0`, `3` and `-3`, in this and in another order, with its value at `3`, and a
product with a root that is not a number. -/
theorem fromRoots_product_opposite :
    (∃ m q, ((InEffect.fromRoots [0.0, 3.0, -3.0]).run (.fresh none)).1 = .ok m ∧
      ((InEffect.fromRoots [3.0, 0.0, -3.0]).run (.fresh (some "0"))).1 = .ok q ∧
      m.leadingTerm? = some ⟨1.0, 3⟩ ∧ q.terms = m.terms ∧ IsInt (m.eval 3.0) 0) ∧
    ∃ m, ((InEffect.fromRoots [Binary64.nan, Binary64.infinity]).run (.fresh none)).1 = .ok m ∧
      m.leadingTerm? = some ⟨1.0, 2⟩ := by
  have zero : IsInt 0.0 0 := isInt_zero_of_beq (by decide)
  have three : IsInt 3.0 3 := isInt_of_isNat (by decide)
  have exact_of_perm {ms : List ℤ} (h : ms.Perm [0, 3, -3]) : FactorsExact 1 ms := by
    refine factorsExact_of_prod_le (B := 1) (fun n => ?_) ?_
    · rw [coeff_one]
      split_ifs <;> decide
    · rw [(h.map _).prod_eq]
      decide
  have hlength : ([0.0, 3.0, -3.0] : List Float).length < 2 ^ 31 := by decide
  have hlength' : [Binary64.nan, Binary64.infinity].length < 2 ^ 31 := by decide
  obtain ⟨m, hm, ⟨e, he, hlead⟩, -, hexact⟩ := fromRoots_product hlength (.fresh none)
  obtain ⟨-, horder, hvalue⟩ :=
    hexact [0, 3, -3] (.cons zero (.cons three (.cons three.neg .nil))) (exact_of_perm .rfl)
  obtain ⟨q, hq, hterms⟩ := horder [3.0, 0.0, -3.0] [3, 0, -3] (.fresh (some "0"))
    (.cons three (.cons zero (.cons three.neg .nil))) (.swap 0 3 [-3])
    (exact_of_perm (.swap 0 3 [-3]))
  obtain ⟨r, hr, ⟨d, hd, hlead'⟩, -⟩ := fromRoots_product hlength' (.fresh none)
  obtain rfl : e = 3 := Int32.toInt_inj.1 he
  obtain rfl : d = 2 := Int32.toInt_inj.1 hd
  have hproduct : rootProduct [0, 3, -3] = X ^ 3 - C 9 * X := by
    simp only [rootProduct, List.map_cons, List.map_nil, List.prod_cons, List.prod_nil, map_neg,
      map_zero, map_ofNat]
    ring
  have heval : EvalExact (rootProduct [0, 3, -3]) 3 := by
    rw [hproduct]
    refine evalExact_of_sum_le (N := 4) (by compute_degree!) ?_
    simp [Finset.sum_range_succ, coeff_X]
  exact ⟨⟨m, q, hm, hq, hlead, hterms, hvalue 3.0 3 three (by decide) heval⟩, r, hr, hlead'⟩

/-- The coefficients of `(x - 1) * (x + 1) * (x + 94906265) ^ 2`. -/
theorem abs_coeff_rootProduct_le (n : ℕ) :
    |(rootProduct [1, -1, -94906265, -94906265]).coeff n| ≤ 2 ^ 53 := by
  have hproduct : rootProduct [1, -1, -94906265, -94906265] = X ^ 4 + C 189812530 * X ^ 3 +
      C 9007199136250224 * X ^ 2 - C 189812530 * X - C 9007199136250225 := by
    simp only [rootProduct, List.map_cons, List.map_nil, List.prod_cons, List.prod_nil, map_neg,
      map_one, map_ofNat]
    ring
  rw [hproduct]
  rcases n with _ | _ | _ | _ | _ | n <;> simp [coeff_X]

theorem factorsExact_rounded : FactorsExact 1 [1, -1, -94906265, -94906265] := by
  have hpartial : (1 : ℤ[X]) * (X - C 1) * (X - C (-1)) * (X - C (-94906265)) =
      X ^ 3 + C 94906265 * X ^ 2 - X - C 94906265 := by
    simp only [map_neg, map_one, map_ofNat]
    ring
  have hlast : FactorExact (1 * (X - C 1) * (X - C (-1)) * (X - C (-94906265))) (-94906265) := by
    refine ⟨fun n => ?_, fun n => ?_, fun n => ?_⟩
    · rw [hpartial]
      rcases n with _ | _ | _ | _ | n <;> simp [coeff_X]
    · rw [hpartial]
      rcases n with _ | _ | _ | _ | n <;> simp [coeff_X]
    · convert abs_coeff_rootProduct_le n using 3
      simp only [rootProduct, List.map_cons, List.map_nil, List.prod_cons, List.prod_nil]
      ring
  obtain ⟨hfirst, hsecond, hthird, -⟩ : FactorsExact 1 [1, -1, -94906265] := by
    refine factorsExact_of_prod_le (B := 1) (fun n => ?_) (by decide)
    rw [coeff_one]
    split_ifs <;> decide
  exact ⟨hfirst, hsecond, hthird, hlast, trivial⟩

/-- The product over `1`, `-1`, `-94906265` and `-94906265` is exact, and neither a power nor a
product of its value at the root `1` is above `2 ^ 53`.  The value is `1` all the same, because a
sum on the way to it is above `2 ^ 53` and rounded. -/
theorem fromRoots_sum_rounded :
    let ns : List ℤ := [1, -1, -94906265, -94906265]
    List.Forall₂ IsInt [1.0, -1.0, -94906265.0, -94906265.0] ns ∧ FactorsExact 1 ns ∧
    (∀ n : ℕ, |(1 : ℤ) ^ n| ≤ 2 ^ 53) ∧ (∀ n, |(rootProduct ns).coeff n * 1 ^ n| ≤ 2 ^ 53) ∧
    ∃ m, ((InEffect.fromRoots [1.0, -1.0, -94906265.0, -94906265.0]).run (.fresh none)).1 = .ok m ∧
      m.eval 1.0 = 1.0 := by
  intro ns
  have one : IsInt 1.0 1 := isInt_of_isNat (by decide)
  have large : IsInt 94906265.0 94906265 := isInt_of_isNat (by decide)
  have hrun : (((InEffect.fromRoots [1.0, -1.0, -94906265.0, -94906265.0]).run (.fresh none)).1.map
      fun m => m.eval 1.0) = .ok 1.0 := by
    decide +kernel
  refine ⟨.cons one (.cons one.neg (.cons large.neg (.cons large.neg .nil))),
    factorsExact_rounded, fun n => ?_, fun n => ?_, ?_⟩
  · rw [one_pow]
    decide
  · rw [one_pow, mul_one]
    exact abs_coeff_rootProduct_le n
  · cases hm : ((InEffect.fromRoots [1.0, -1.0, -94906265.0, -94906265.0]).run (.fresh none)).1 with
    | ok m =>
      rw [hm] at hrun
      exact ⟨m, rfl, Except.ok.inj hrun⟩
    | error e =>
      rw [hm] at hrun
      cases hrun

end Poly

end SparsePoly
