import Mathlib
import SparsePoly.Proofs.Calculus.Evaluation
import SparsePoly.Proofs.Poly.Division

/-!
# The remainder theorem

An exact long division by a monic polynomial over the integers is `/ₘ` and `%ₘ`
(`Reads.divide_monic`).  The remainder by `x - a` is therefore the value at `a`, and the remainder
by `(x - a) ^ 2` is the tangent there (`remainder_eval_tangent`), although the values come from
repeated squaring and the tangent from the power rule.
-/

open Polynomial SparsePoly.Binary64 SparsePoly.Laurent
open scoped LaurentPolynomial

namespace SparsePoly

/-! ## Monic divisors -/

namespace Laurent

variable {f d : ℤ[X]} {n : ℤ}

theorem lt_natDegree_of_coeff_ne_zero (hf : f.degree < d.degree)
    (h : (toLaurent f).coeff n ≠ 0) : n < d.natDegree := by
  lift n to ℕ using nonneg_of_coeff_toLaurent_ne_zero h
  rw [coeff_toLaurent] at h
  have hlt : (n : WithBot ℕ) < d.degree := (le_degree_of_ne_zero h).trans_lt hf
  rw [degree_eq_natDegree (ne_zero_of_degree_gt hf)] at hlt
  exact_mod_cast hlt

theorem top_toLaurent (h : f ≠ 0) : top (toLaurent f) = f.natDegree := by
  refine top_eq ?_ fun n hn => ?_
  · rw [coeff_toLaurent]
    exact leadingCoeff_ne_zero.2 h
  · lift n to ℕ using nonneg_of_coeff_toLaurent_ne_zero hn
    rw [coeff_toLaurent] at hn
    exact_mod_cast le_natDegree_of_ne_zero hn

theorem coeff_top_toLaurent (h : d.Monic) : (toLaurent d).coeff (top (toLaurent d)) = 1 := by
  rw [top_toLaurent h.ne_zero, coeff_toLaurent]
  exact h

end Laurent

namespace Poly

variable {p q : Poly} {f d : ℤ[X]}

theorem Reads.divisor_monic (h : q.Reads (toLaurent d)) (hd : d.Monic) :
    ∃ t, q.leadingTerm? = some t ∧ Divisor t q.tail (toLaurent d) := by
  cases ht : q.leadingTerm? with
  | none => exact absurd (toLaurent_eq_zero.1 (h.eq_zero ht)) hd.ne_zero
  | some t =>
    obtain ⟨hlead, htail⟩ := h.leads ht
    refine ⟨t, rfl, hlead, htail, ?_⟩
    rw [coeff_top_toLaurent hd]
    exact isUnit_one

theorem Progress.start {P D : ℤ[T;T⁻¹]} (h : p.Reads P) (hexact : DivisionExact D P) :
    Progress P D ⟨zero, p⟩ 0 P where
  quotient := reads_ofTerms ⟨List.Pairwise.nil, by simp, by simp [Term.Integral]⟩
  remainder := h
  identity := by ring
  nonneg n hn := absurd rfl hn
  above n k hn := absurd rfl hn
  exact := hexact

/-- Exact long division by a monic polynomial is that of polynomials over the integers. -/
theorem Reads.divide_monic (hp : p.Reads (toLaurent f)) (hq : q.Reads (toLaurent d))
    (hd : d.Monic) (hexact : DivisionExact (toLaurent d) (toLaurent f)) (policy : SnapPolicy) :
    ∃ r, divide policy p q = .ok r ∧ r.quotient.Reads (toLaurent (f /ₘ d)) ∧
      r.remainder.Reads (toLaurent (f %ₘ d)) := by
  obtain ⟨t, ht, hdivisor⟩ := hq.divisor_monic hd
  have htop := top_toLaurent hd.ne_zero
  have hlead := hdivisor.leads.top_eq
  obtain ⟨r, Q, R, hr, h, hR⟩ := Progress.divideFrom hdivisor policy
    (p.degree.toInt - t.exponent.toInt + 1).toNat (Progress.start hp hexact)
    (fun n hn => by
      have := hp.le_degree hn
      omega)
    (fun n hn => by
      have := hp.le_degree hn
      have := p.degree.toInt_lt
      omega)
  have hidentity : toLaurent (f /ₘ d) * toLaurent d + toLaurent (f %ₘ d) = toLaurent f := by
    rw [← map_mul, ← map_add, add_comm, mul_comm, modByMonic_add_div]
  obtain ⟨hQ, hR⟩ := eq_of_division hdivisor.unit (hidentity.trans h.identity)
    (fun n hn => nonneg_of_coeff_toLaurent_ne_zero hn) h.nonneg
    (fun n hn => by
      rw [htop]
      exact lt_natDegree_of_coeff_ne_zero (degree_modByMonic_lt f hd) hn) hR
  refine ⟨r, ?_, hQ ▸ h.quotient, hR ▸ h.remainder⟩
  rw [divide, ht]
  exact hr

end Poly

/-! ## The square of a root factor -/

variable {a : ℤ}

theorem X_sub_C_eq (a : ℤ) : X - C a = C 1 * X + C (-a) := by
  rw [map_one, one_mul, map_neg, sub_eq_add_neg]

theorem square_eq (a : ℤ) : X ^ 2 - C (2 * a) * X + C (a ^ 2) = (X - C a) ^ 2 := by
  simp only [map_mul, map_pow, map_ofNat]
  ring

theorem monic_square (a : ℤ) : (X ^ 2 - C (2 * a) * X + C (a ^ 2)).Monic := by
  rw [square_eq]
  exact (monic_X_sub_C a).pow 2

/-- Modulo the square a polynomial is its tangent. -/
theorem modByMonic_square (f : ℤ[X]) (a : ℤ) : f %ₘ (X ^ 2 - C (2 * a) * X + C (a ^ 2)) =
    C (f.derivative.eval a) * X + C (f.eval a - f.derivative.eval a * a) := by
  obtain ⟨k, hk⟩ := (f.map C).binomExpansion (C a) (X - C a)
  rw [add_sub_cancel, eval_map, eval₂_C_X, eval_map, derivative_map, eval_map, eval₂_hom,
    eval₂_hom] at hk
  refine (div_modByMonic_unique k _ (monic_square a) ⟨?_, ?_⟩).2
  · conv_rhs => rw [hk]
    rw [square_eq, map_sub, map_mul]
    ring
  · refine degree_linear_le.trans_lt ?_
    rw [square_eq, degree_pow, degree_X_sub_C]
    decide

/-! ## The division of a monomial -/

namespace Laurent

variable {D : ℤ[T;T⁻¹]} {m c : ℤ}

theorem coeff_single_self (m c : ℤ) : (.single m c : ℤ[T;T⁻¹]).coeff m = c :=
  Finsupp.single_eq_same

theorem top_single (m : ℤ) (hc : c ≠ 0) : top (.single m c) = m := by
  refine top_eq (by rwa [coeff_single, if_pos rfl]) fun k hk => ?_
  rw [coeff_single] at hk
  split_ifs at hk with h
  · exact h.ge
  · exact absurd rfl hk

theorem lead_single (m : ℤ) (hc : c ≠ 0) : lead (.single m c) = .single m c := by
  rw [lead, top_single m hc, coeff_single_self]

theorem lower_single (m : ℤ) (hc : c ≠ 0) : lower (.single m c) = 0 := by
  rw [lower, lead_single m hc, sub_self]

/-- The only products that a step forms are those of the coefficient. -/
theorem stepExact_single (hD : D.coeff (top D) = 1) (hc : c ≠ 0)
    (h : ∀ k, |(lower D).coeff k * c| ≤ 2 ^ 53) : StepExact D (.single m c) where
  products k := by
    rw [coeff_lower_mul_step, top_single m hc, coeff_single_self, hD, mul_one]
    exact h _
  sums k hk := by
    rw [lower_single m hc] at hk
    exact absurd rfl hk

theorem top_X_sub_C (a : ℤ) : top (toLaurent (X - C a)) = 1 := by
  rw [top_toLaurent (X_sub_C_ne_zero a), natDegree_X_sub_C, Nat.cast_one]

theorem lower_X_sub_C (a : ℤ) : lower (toLaurent (X - C a)) = .single 0 (-a) := by
  have hlead : lead (toLaurent (X - C a)) = toLaurent X := by
    rw [lead, coeff_top_toLaurent (monic_X_sub_C a), top_X_sub_C, toLaurent_X]
    rfl
  rw [lower, hlead, map_sub, sub_sub_cancel_left, toLaurent_C, ← map_neg]
  rfl

theorem reduce_X_sub_C (a m : ℤ) (hc : c ≠ 0) :
    reduce (toLaurent (X - C a)) (.single m c) = .single (m - 1) (a * c) := by
  have hunit := coeff_top_toLaurent (monic_X_sub_C a)
  rw [reduce_eq (by rw [hunit]; exact isUnit_one), lower_single m hc, lower_X_sub_C, step, hunit,
    top_single m hc, top_X_sub_C, coeff_single_self, AddMonoidAlgebra.single_mul_single, zero_sub,
    zero_add, mul_one, ← AddMonoidAlgebra.single_neg, neg_mul, neg_neg]

theorem iterate_reduce_X_sub_C {a : ℤ} (ha : a ≠ 0) (m : ℤ) (i : ℕ) :
    (reduce (toLaurent (X - C a)))^[i] (.single m 1) = .single (m - i) (a ^ i) := by
  induction i with
  | zero => simp
  | succ i ih =>
    rw [Function.iterate_succ_apply', ih, reduce_X_sub_C a _ (pow_ne_zero i ha), pow_succ']
    push_cast
    rw [sub_sub]

/-- The division of `x ^ m` by `x - a` forms the powers of `a`. -/
theorem divisionExact_X_sub_C {a : ℤ} (ha : a ≠ 0) (m : ℕ) (h : |a| ^ m ≤ 2 ^ 53) :
    DivisionExact (toLaurent (X - C a)) (.single m 1) := by
  intro i hi
  obtain ⟨-, hfits⟩ := hi i le_rfl
  rw [iterate_reduce_X_sub_C ha, top_X_sub_C, top_single _ (pow_ne_zero i ha)] at hfits
  rw [iterate_reduce_X_sub_C ha]
  refine stepExact_single (coeff_top_toLaurent (monic_X_sub_C a)) (pow_ne_zero i ha) fun k => ?_
  rw [lower_X_sub_C, coeff_single]
  split_ifs
  · calc |-a * a ^ i| = |a| ^ (i + 1) := by rw [abs_mul, abs_neg, abs_pow, pow_succ']
      _ ≤ |a| ^ m := pow_le_pow_right₀ (Int.one_le_abs ha) (by omega)
      _ ≤ 2 ^ 53 := h
  · simp

theorem abs_coeff_square_le {a k : ℤ} (h : |2 * a| ≤ 2 ^ 53) (h' : |a ^ 2| ≤ 2 ^ 53) (hk : k ≠ 2) :
    |(toLaurent (X ^ 2 - C (2 * a) * X + C (a ^ 2))).coeff k| ≤ 2 ^ 53 := by
  by_cases h₀ : (toLaurent (X ^ 2 - C (2 * a) * X + C (a ^ 2))).coeff k = 0
  · rw [h₀, abs_zero]
    positivity
  · lift k to ℕ using nonneg_of_coeff_toLaurent_ne_zero h₀
    rw [coeff_toLaurent, coeff_add, coeff_sub, coeff_X_pow, coeff_C_mul, coeff_X, coeff_C,
      if_neg (by exact_mod_cast hk)]
    split_ifs with h₁ h₂
    · omega
    · simpa using h
    · simpa using h'
    · norm_num

/-- The division of `x ^ 2` by `x ^ 2 - 2 a x + a ^ 2` takes one step. -/
theorem divisionExact_square {a : ℤ} (h : |2 * a| ≤ 2 ^ 53) (h' : |a ^ 2| ≤ 2 ^ 53) :
    DivisionExact (toLaurent (X ^ 2 - C (2 * a) * X + C (a ^ 2))) (.single 2 1) := by
  have hmonic := monic_square a
  have hunit := coeff_top_toLaurent hmonic
  have htop : top (toLaurent (X ^ 2 - C (2 * a) * X + C (a ^ 2))) = 2 := by
    rw [top_toLaurent hmonic.ne_zero, square_eq, natDegree_pow, natDegree_X_sub_C]
    rfl
  intro i hi
  cases i with
  | zero =>
    refine stepExact_single hunit one_ne_zero fun k => ?_
    rw [mul_one, coeff_lower, htop]
    split_ifs with hk
    · simp
    · exact abs_coeff_square_le h h' (Ne.symm hk)
  | succ i =>
    have hf := hi 1 (by omega)
    have hlt := lt_top_of_coeff_reduce_ne_zero (by rw [hunit]; exact isUnit_one)
      (coeff_top_ne_zero hf.1)
    have hle := hf.2
    rw [htop] at hle
    rw [top_single 2 one_ne_zero] at hlt
    exact absurd hle (not_le.2 hlt)

end Laurent

/-! ## Remainders -/

namespace Poly

variable {p : Poly} {x c : Float} {n : ℤ}

theorem reads_constant (h : IsInt c n) : (constant c).Reads (toLaurent (C n)) := by
  rw [toLaurent_C]
  exact reads_monomial h 0

theorem reads_rootFactor (hx : IsInt x a) : (rootFactor x).Reads (toLaurent (X - C a)) := by
  have one : IsInt 1.0 1 := isInt_of_isNat (by decide)
  rw [X_sub_C_eq]
  exact Line.reads (l := ⟨1.0, -x⟩) one hx.neg

theorem reads_square {b d : Float} (hone : IsInt c 1) (hb : IsInt b (-(2 * a)))
    (hd : IsInt d (a ^ 2)) : (ofTerms [⟨c, 2⟩, ⟨b, 1⟩, ⟨d, 0⟩]).Reads
      (toLaurent (X ^ 2 - C (2 * a) * X + C (a ^ 2))) := by
  have hdescending : Term.StrictlyDescending [⟨c, 2⟩, ⟨b, 1⟩, ⟨d, 0⟩] := by
    simp [Term.StrictlyDescending]
  have hintegral : Term.Integral [⟨c, 2⟩, ⟨b, 1⟩, ⟨d, 0⟩] := by
    simp only [Term.Integral, List.forall_mem_cons, hone.toInt_eq, hb.toInt_eq, hd.toInt_eq]
    exact ⟨hone, hb, hd, by simp⟩
  have hlaurent : Term.laurent [⟨c, 2⟩, ⟨b, 1⟩, ⟨d, 0⟩] =
      toLaurent (X ^ 2 - C (2 * a) * X + C (a ^ 2)) := by
    have h₂ : (2 : Exponent).toInt = 2 := rfl
    have h₁ : (1 : Exponent).toInt = 1 := rfl
    have h₀ : (0 : Exponent).toInt = 0 := rfl
    rw [map_add, map_sub, toLaurent_X_pow, toLaurent_C_mul_eq, toLaurent_X, toLaurent_C]
    simp only [Term.laurent_cons, Term.laurent_nil, Term.monomial, hone.toInt_eq, hb.toInt_eq,
      hd.toInt_eq, LaurentPolynomial.single_eq_C_mul_T, h₂, h₁, h₀, LaurentPolynomial.T_zero,
      map_neg, map_one]
    push_cast
    ring
  rw [← hlaurent]
  exact reads_ofTerms_of_descending hdescending hintegral

/-- The remainder theorem of first and of second order, under every snap policy: a polynomial leaves
its value at `a` when it is divided by `x - a`, and its tangent there when it is divided by
`x ^ 2 - 2 a x + a ^ 2`. -/
theorem remainder_eval_tangent (hp : p.Valid) (hi : p.Integral)
    (hnonneg : ∀ t ∈ p.terms, 0 ≤ t.exponent) (hx : IsInt x a) (policy : SnapPolicy) :
    (∀ d : Poly, d.Reads (toLaurent (X - C a)) →
      DivisionExact (toLaurent (X - C a)) p.laurent → EvalExact p.polynomial a →
      ∃ r, divide policy p d = .ok r ∧ r.remainder.terms = (constant (p.eval x)).terms) ∧
    ∀ d : Poly, d.Reads (toLaurent (X ^ 2 - C (2 * a) * X + C (a ^ 2))) →
      DivisionExact (toLaurent (X ^ 2 - C (2 * a) * X + C (a ^ 2))) p.laurent →
      TangentExact p.polynomial a →
      ∃ r l, divide policy p d = .ok r ∧ p.tangent x = .ok l ∧
        r.remainder.terms = l.toPoly.terms := by
  have hread := reads_polynomial hp hi hnonneg
  rw [hread.laurent_eq]
  refine ⟨fun d hd hexact heval => ?_, fun d hd hexact htangent => ?_⟩
  · obtain ⟨r, hr, -, hrem⟩ := hread.divide_monic hd (monic_X_sub_C a) hexact policy
    have hvalue := reads_constant (hread.isInt_eval hx heval)
    rw [modByMonic_X_sub_C_eq_C_eval] at hrem
    exact ⟨r, hr, hrem.terms_eq.trans hvalue.terms_eq.symm⟩
  · obtain ⟨r, hr, -, hrem⟩ := hread.divide_monic hd (monic_square a) hexact policy
    obtain ⟨l, hl, hline⟩ := hread.tangent hx htangent
    rw [modByMonic_square] at hrem
    exact ⟨r, l, hr, hl, hrem.terms_eq.trans hline.terms_eq.symm⟩

/-- `x ^ 2` leaves `9` when it is divided by `x - 3`, and `6 x - 9` when it is divided by
`x ^ 2 - 6 x + 9`. -/
theorem remainder_eval_tangent_square :
    let p := Poly.monomial 1.0 2
    let square := ofTerms [⟨1.0, 2⟩, ⟨-6.0, 1⟩, ⟨9.0, 0⟩]
    (∃ r, divide .standard p (rootFactor 3.0) = .ok r ∧
      r.remainder.terms = (constant (p.eval 3.0)).terms) ∧
    ∃ r l, divide .standard p square = .ok r ∧ p.tangent 3.0 = .ok l ∧
      r.remainder.terms = l.toPoly.terms := by
  intro p square
  have one : IsInt 1.0 1 := isInt_of_isNat (by decide)
  have three : IsInt 3.0 3 := isInt_of_isNat (by decide)
  have six : IsInt 6.0 6 := isInt_of_isNat (by decide)
  have nine : IsInt 9.0 9 := isInt_of_isNat (by decide)
  have hp : p.Reads (.single 2 1) := reads_monomial one 2
  have hpoly : p.polynomial = Polynomial.monomial 2 1 := by
    have hlaurent : p.Reads (toLaurent (Polynomial.monomial 2 1)) := by
      rw [toLaurent_C_mul_T, ← LaurentPolynomial.single_eq_C_mul_T]
      exact hp
    exact hlaurent.polynomial_eq
  have hsquare : square.Reads (toLaurent (X ^ 2 - C (2 * 3) * X + C (3 ^ 2))) :=
    reads_square one six.neg nine
  have hnonneg : ∀ t ∈ p.terms, 0 ≤ t.exponent := by decide
  have key := remainder_eval_tangent hp.valid hp.integral hnonneg three .standard
  rw [hp.laurent_eq, hpoly] at key
  refine ⟨key.1 _ (reads_rootFactor three) (divisionExact_X_sub_C (by norm_num) 2 (by norm_num))
    (evalExact_monomial (by norm_num) (by norm_num)), ?_⟩
  refine key.2 _ hsquare (divisionExact_square (by norm_num) (by norm_num))
    ⟨?_, fun n => ?_, ?_, ?_, ?_⟩
  · exact evalExact_monomial (by norm_num) (by norm_num)
  · rw [coeff_monomial]
    split_ifs with h
    · rw [← h]
      norm_num
    · norm_num
  · rw [derivative_monomial]
    exact evalExact_monomial (by norm_num) (by norm_num)
  · rw [derivative_monomial, eval_monomial]
    norm_num
  · rw [derivative_monomial, eval_monomial, eval_monomial]
    norm_num

end Poly

end SparsePoly
