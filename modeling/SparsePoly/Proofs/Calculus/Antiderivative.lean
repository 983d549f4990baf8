import Mathlib
import SparsePoly.Calculus
import SparsePoly.Proofs.Calculus.Derivative

/-!
# Differentiation undoes integration

A term with an integral coefficient and the term that integration makes of it are derivative and
antiderivative of each other (`Primitive`), as long as the quotient of coefficient and exponent is
an integer.  So integration and differentiation are inverse term by term, and what has been
integrated `n` times is found again after `n` differentiations.  The constant that is added once
at the end has vanished after the first of them (`terms_derivative_append`), and a constant that
differentiation loses can be given back (`nthDerivative_nthAntiderivative`).
-/

open SparsePoly.Binary64

namespace SparsePoly

namespace Term

variable {t u : Term} {n k : ℕ}

theorem abs_le_of_abs_mul_le {a b bound : ℤ} (hb : b ≠ 0) (h : |a * b| ≤ bound) : |a| ≤ bound := by
  rw [abs_mul] at h
  exact (le_mul_of_one_le_right (abs_nonneg a) (Int.one_le_abs hb)).trans h

/-! ## Derivative and antiderivative of a term -/

/-- The coefficient of `t` is the product of the coefficient and the exponent of `u`, and its
exponent is the one below. -/
structure Primitive (t u : Term) : Prop where
  exponent : u.exponent.toInt = t.exponent.toInt + 1
  exponent_ne : u.exponent.toInt ≠ 0
  isInt : IsInt u.coefficient (toInt u.coefficient)
  product : IsInt t.coefficient (toInt u.coefficient * u.exponent.toInt)
  le : |toInt u.coefficient * u.exponent.toInt| ≤ 2 ^ 53

theorem Primitive.lowers (h : t.Primitive u) : u.Lowers := by
  have hlow := t.exponent.le_toInt
  have := h.exponent
  unfold Lowers
  omega

theorem Primitive.derived_eq (h : t.Primitive u) (ht : t.isZero = false) : u.derived = t := by
  have hexponent : u.derived.exponent = t.exponent := by
    rw [← Int32.toInt_inj, h.lowers.toInt_derived, h.exponent, add_sub_cancel_right]
  have hproduct : IsInt u.derived.coefficient (toInt u.coefficient * u.exponent.toInt) :=
    h.isInt.mul (isInt_toDouble _) h.le
  have hne : toInt u.coefficient * u.exponent.toInt ≠ 0 := by
    rw [← h.product.toInt_eq]
    exact toInt_ne_zero (by rw [h.product.toInt_eq]; exact h.product) ht
  exact ext (hproduct.eq h.product hne) hexponent

theorem Primitive.antiderivative_eq (h : t.Primitive u) (hu : u.isZero = false) :
    t.antiderivative = .ok u := by
  have hone : (1 : Exponent).toInt = 1 := rfl
  have hplus : t.exponent.plus 1 = .ok u.exponent :=
    Exponent.plus_eq_ok_iff.2 (by rw [h.exponent, hone])
  have hle := abs_le_of_abs_mul_le h.exponent_ne h.le
  have hquotient : t.coefficient / u.exponent.toDouble = u.coefficient :=
    (h.product.div (isInt_toDouble _) h.exponent_ne hle).eq h.isInt (toInt_ne_zero h.isInt hu)
  rw [antiderivative, hplus]
  exact congrArg Except.ok (ext hquotient rfl)

/-! ## Repeated integration of a term -/

/-- The term after `k` integrations without a remainder. -/
def raised (k : ℕ) (t : Term) : Term :=
  ⟨Float.ofInt (toInt t.coefficient / ∏ i ∈ Finset.range k, (t.exponent.toInt + 1 + i)),
    Int32.ofInt (t.exponent.toInt + k)⟩

/-- The term can be integrated `n` times without a remainder.  As its coefficient is not zero, none
of the exponents on the way is. -/
structure Raises (n : ℕ) (t : Term) : Prop where
  isZero : t.isZero = false
  isInt : IsInt t.coefficient (toInt t.coefficient)
  le : |toInt t.coefficient| ≤ 2 ^ 53
  exponent_lt : t.exponent.toInt + n < 2 ^ 31
  dvd : ∏ i ∈ Finset.range n, (t.exponent.toInt + 1 + i) ∣ toInt t.coefficient

theorem Raises.toInt_exponent (h : t.Raises n) (hk : k ≤ n) :
    (t.raised k).exponent.toInt = t.exponent.toInt + k := by
  have hlow := t.exponent.le_toInt
  have hhigh := h.exponent_lt
  exact toInt_ofInt (exists_exponent ⟨by omega, by omega⟩)

/-- What is left of the coefficient after `k` divisions. -/
theorem Raises.exists_quotient (h : t.Raises n) (hk : k ≤ n) :
    ∃ q, toInt t.coefficient = q * ∏ i ∈ Finset.range k, (t.exponent.toInt + 1 + i) ∧
      q ≠ 0 ∧ |q| ≤ 2 ^ 53 ∧ IsInt (t.raised k).coefficient q := by
  have hdvd := (Finset.prod_dvd_prod_of_subset _ _ (fun i : ℕ => t.exponent.toInt + 1 + i)
    (Finset.range_subset_range.2 hk)).trans h.dvd
  obtain ⟨q, hq⟩ := exists_eq_mul_left_of_dvd hdvd
  have hc := toInt_ne_zero h.isInt h.isZero
  obtain ⟨hq₀, hprod⟩ := mul_ne_zero_iff.1 (hq ▸ hc)
  have hle : |q| ≤ 2 ^ 53 := abs_le_of_abs_mul_le hprod (hq ▸ h.le)
  refine ⟨q, hq, hq₀, hle, ?_⟩
  obtain ⟨hf, hv⟩ := toRat_ofInt (abs_intCast_lt hle)
  rw [raised, hq, Int.mul_ediv_cancel _ hprod]
  exact ⟨hf, hv.trans (rounded_intCast hle)⟩

theorem Raises.isZero_raised (h : t.Raises n) (hk : k ≤ n) : (t.raised k).isZero = false := by
  obtain ⟨q, -, hq, -, hint⟩ := h.exists_quotient hk
  rw [Term.isZero, ← Bool.not_eq_true, hint.beq_zero]
  exact hq

theorem Raises.raised_zero (h : t.Raises n) : t.raised 0 = t := by
  obtain ⟨q, hq, hq₀, -, hint⟩ := h.exists_quotient (Nat.zero_le n)
  rw [Finset.prod_range_zero, mul_one] at hq
  refine ext (hint.eq (hq ▸ h.isInt) hq₀) ?_
  rw [← Int32.toInt_inj, h.toInt_exponent (Nat.zero_le n), Nat.cast_zero, add_zero]

/-- Each integration divides the coefficient by the next exponent. -/
theorem Raises.primitive (h : t.Raises n) (hk : k + 1 ≤ n) :
    (t.raised k).Primitive (t.raised (k + 1)) := by
  obtain ⟨q, hq, hq₀, hle, hint⟩ := h.exists_quotient (Nat.le_of_succ_le hk)
  obtain ⟨r, hr, -, -, hint'⟩ := h.exists_quotient hk
  have hexponent := h.toInt_exponent (Nat.le_of_succ_le hk)
  have hexponent' := h.toInt_exponent hk
  push_cast at hexponent'
  have hprod : ∏ i ∈ Finset.range k, (t.exponent.toInt + 1 + i) ≠ 0 := by
    intro h₀
    rw [h₀, mul_zero] at hq
    exact toInt_ne_zero h.isInt h.isZero hq
  -- the quotients before and after the step differ by the factor that the product gains
  have hstep : q = r * (t.raised (k + 1)).exponent.toInt := by
    refine mul_right_cancel₀ hprod ?_
    rw [← hq, hr, Finset.prod_range_succ, hexponent']
    ring
  refine ⟨by omega, fun h₀ => hq₀ (by rw [hstep, h₀, mul_zero]), ?_, ?_, ?_⟩
  · rwa [hint'.toInt_eq]
  · rwa [hint'.toInt_eq, ← hstep]
  · rwa [hint'.toInt_eq, ← hstep]

end Term

open Term

namespace Poly

variable {p q : Poly} {t : Term} {ts : List Term} {f g : Term → Term}

/-! ## One step -/

/-- Integration goes from the derivatives to the antiderivatives. -/
theorem exists_antiderivative (hp : p.Valid) (hterms : p.terms = ts.map f)
    (h : ∀ t ∈ ts, (f t).Primitive (g t)) (hz : ∀ t ∈ ts, (g t).isZero = false) :
    ∃ q, p.antiderivative = .ok q ∧ q.Valid ∧ q.terms = ts.map g := by
  have hmap : p.terms.mapM Term.antiderivative = .ok (ts.map g) := by
    rw [hterms, List.mapM_map]
    exact mapM_ok fun t ht => (h t ht).antiderivative_eq (hz t ht)
  have hdescending : StrictlyDescending (ts.map g) := by
    have hd := hp.strictlyDescending
    rw [hterms] at hd
    refine List.pairwise_map.2 ((List.pairwise_map.1 hd).imp_of_mem fun {a b} ha hb hab => ?_)
    rw [Int32.lt_iff_toInt_lt] at hab ⊢
    rw [(h a ha).exponent, (h b hb).exponent]
    omega
  refine ⟨ofTerms (ts.map g), ?_, valid_ofTerms _, ?_⟩
  · rw [antiderivative, hmap]
    rfl
  · rw [terms_ofTerms hdescending, nonzero_eq_self (List.forall_mem_map.2 hz)]

/-- Differentiation goes back. -/
theorem exists_derivative (hq : q.Valid) (hterms : q.terms = ts.map g)
    (h : ∀ t ∈ ts, (f t).Primitive (g t)) (hz : ∀ t ∈ ts, (f t).isZero = false) :
    ∃ p, q.derivative = .ok p ∧ p.Valid ∧ p.terms = ts.map f := by
  have hlowers : ∀ u ∈ q.terms, u.Lowers := by
    rw [hterms]
    exact List.forall_mem_map.2 fun t ht => (h t ht).lowers
  have hderived : (ts.map g).map derived = ts.map f := by
    rw [List.map_map]
    exact List.map_congr_left fun t ht => (h t ht).derived_eq (hz t ht)
  refine ⟨_, derivative_eq_ok hlowers, valid_ofTerms _, ?_⟩
  rw [terms_derivative hq hlowers, hterms, hderived, nonzero_eq_self (List.forall_mem_map.2 hz)]

/-! ## The constant -/

/-- A term with a new exponent is added to the terms. -/
theorem Valid.mem_append (hp : p.Valid) (ht : t.isZero = false)
    (hne : ∀ u ∈ p.terms, u.exponent ≠ t.exponent) {u : Term} :
    u ∈ (p.append t).terms ↔ u ∈ p.terms ∨ u = t := by
  have hlists := (hp.append t).lists_terms.congr (hp.represents.append t).sums
  have hp' := lists_self hp.strictlyDescending hp.isZero_eq_false
  have hself : Term.nonzero [t] = [t] := nonzero_eq_self (by simpa using ht)
  rw [hlists.mem_iff, nonzero_append, nonzero_eq_self hp.isZero_eq_false, hself,
    sumAt_append_singleton _ ht, hp'.mem_iff]
  split_ifs with he
  · have habsent : sumAt p.terms u.exponent = 0.0 := sumAt_eq_zero fun v hv => he ▸ hne v hv
    rw [habsent, zero_add_of_ne (x := 0.0) rfl ht]
    constructor
    · rintro ⟨-, hc⟩
      exact Or.inr (ext hc he.symm)
    · rintro (⟨hz, hc⟩ | rfl)
      · rw [Term.isZero, hc] at hz
        cases hz
      · exact ⟨ht, rfl⟩
  · have hu : u ≠ t := fun h => he (by rw [h])
    rw [or_iff_left hu]

/-- A finite constant vanishes. -/
theorem isZero_derived_constant {c : Float} (hc : c.isFinite = true) :
    (derived ⟨c, 0⟩).isZero = true := by
  have hzero : IsInt (0 : Exponent).toDouble 0 := isInt_toDouble 0
  have hprod : toRat c * toRat (0 : Exponent).toDouble = 0 := by
    rw [hzero.toRat_eq, Int.cast_zero, mul_zero]
  obtain ⟨hf, hv⟩ := toRat_mul hc hzero.finite (by
    rw [hprod, rounded_zero, abs_zero]
    exact zpow_pos two_pos _)
  show (c * (0 : Exponent).toDouble == 0.0) = true
  rw [beq_zero_iff_toRat hf, hv, hprod, rounded_zero]

/-- Differentiation forgets a constant. -/
theorem exists_derivative_append {c : Float} (hp : p.Valid) (hc : c.isFinite = true)
    (hne : ∀ t ∈ p.terms, t.exponent ≠ 0) (hq : p.derivative = .ok q) :
    ∃ d, (p.append ⟨c, 0⟩).derivative = .ok d ∧ d.Valid ∧ d.terms = q.terms := by
  obtain ⟨hlowers, heq⟩ | herror := p.derivative_cases
  case inr => rw [herror] at hq; cases hq
  obtain rfl := Except.ok.inj (heq.symm.trans hq)
  cases hz : Term.isZero ⟨c, 0⟩ with
  | true =>
    rw [append_of_isZero hz]
    exact ⟨_, hq, valid_ofTerms _, rfl⟩
  | false =>
    have hmem {u : Term} := hp.mem_append (t := ⟨c, 0⟩) hz hne (u := u)
    have hlowers' : ∀ u ∈ (p.append ⟨c, 0⟩).terms, u.Lowers := by
      intro u hu
      obtain hu | rfl := hmem.1 hu
      · exact hlowers u hu
      · exact (by decide : (-2 ^ 31 : ℤ) < (0 : Exponent).toInt)
    refine ⟨_, derivative_eq_ok hlowers', valid_ofTerms _, ?_⟩
    refine (valid_ofTerms _).strictlyDescending.eq_of_mem_iff
      (valid_ofTerms _).strictlyDescending fun u => ?_
    rw [terms_derivative (hp.append _) hlowers', terms_derivative hp hlowers, mem_nonzero,
      mem_nonzero, List.mem_map, List.mem_map]
    refine and_congr_left fun hu => exists_congr fun v => ?_
    rw [hmem, or_and_right]
    refine or_iff_left ?_
    rintro ⟨rfl, rfl⟩
    rw [isZero_derived_constant hc] at hu
    cases hu

/-- The constant term is all that was missing. -/
theorem terms_append_constantTerm (hp : p.Valid) (hq : q.Valid)
    (hterms : q.terms = p.terms.filter (·.exponent ≠ 0)) :
    (q.append ⟨p.constantTerm, 0⟩).terms = p.terms := by
  have hne : ∀ t ∈ q.terms, t.exponent ≠ 0 := by
    intro t ht
    rw [hterms] at ht
    simpa using (List.mem_filter.1 ht).2
  refine (hq.append _).strictlyDescending.eq_of_mem_iff hp.strictlyDescending fun t => ?_
  have hmem : t ∈ q.terms ↔ t ∈ p.terms ∧ t.exponent ≠ 0 := by
    rw [hterms, List.mem_filter, decide_eq_true_eq]
  cases hz : Term.isZero ⟨p.constantTerm, 0⟩ with
  | true =>
    -- then there is no constant term among those of `p`
    rw [append_of_isZero hz, hmem]
    refine and_iff_left_of_imp fun ht he => ?_
    obtain ⟨hz', hc⟩ := (hp.lists_coefficient.mem_iff t).1 ht
    rw [he] at hc
    rw [Term.isZero, hc] at hz'
    exact Bool.noConfusion (hz'.symm.trans hz)
  | false =>
    rw [hq.mem_append hz hne, hmem]
    by_cases he : t.exponent = 0
    · have hconstant : t = ⟨p.constantTerm, 0⟩ ↔ t ∈ p.terms := by
        rw [hp.lists_coefficient.mem_iff, he]
        constructor
        · rintro rfl
          exact ⟨hz, rfl⟩
        · rintro ⟨-, hc⟩
          exact ext hc he
      rw [hconstant]
      tauto
    · have : t ≠ ⟨p.constantTerm, 0⟩ := fun h => he (by rw [h])
      tauto

/-! ## Repeated steps -/

/-- Integration step by step. -/
theorem exists_iteratedAntiderivative {n : ℕ} (h : ∀ t ∈ ts, t.Raises n) :
    ∀ {m k : ℕ} {p : Poly}, p.Valid → p.terms = ts.map (raised k) → k + m ≤ n →
      ∃ q, p.iteratedAntiderivative m = .ok q ∧ q.Valid ∧ q.terms = ts.map (raised (k + m))
  | 0, k, p, hp, hterms, _ => ⟨p, rfl, hp, hterms⟩
  | m + 1, k, p, hp, hterms, hk => by
    obtain ⟨q, hq, hvalid, hterms'⟩ := exists_antiderivative hp hterms
      (fun t ht => (h t ht).primitive (by omega))
      (fun t ht => (h t ht).isZero_raised (k := k + 1) (by omega))
    obtain ⟨r, hr, hr'⟩ := exists_iteratedAntiderivative h (m := m) hvalid hterms' (by omega)
    refine ⟨r, ?_, by rwa [Nat.add_right_comm] at hr'⟩
    rw [iteratedAntiderivative, hq]
    exact hr

/-- Nothing is lost by stopping at a derivative that is zero. -/
theorem exists_nthDerivative_succ {d r : Poly} {n : ℕ} (hd : p.derivative = .ok d)
    (hr : d.nthDerivative n = .ok r) :
    ∃ r', p.nthDerivative (n + 1) = .ok r' ∧ r'.terms = r.terms := by
  rw [nthDerivative]
  cases hz : p.isZero with
  | true =>
    have hp : p.terms = [] := List.isEmpty_iff.1 hz
    rw [derivative, hp] at hd
    cases hd
    refine ⟨p, rfl, ?_⟩
    cases n <;> cases hr <;> exact hp
  | false =>
    rw [hd]
    exact ⟨r, hr, rfl⟩

/-- Differentiation step by step. -/
theorem exists_nthDerivative {n : ℕ} (h : ∀ t ∈ ts, t.Raises n) :
    ∀ {k : ℕ} {q : Poly}, q.Valid → q.terms = ts.map (raised k) → k ≤ n →
      ∃ r, q.nthDerivative k = .ok r ∧ r.terms = ts.map (raised 0)
  | 0, q, _, hterms, _ => ⟨q, rfl, hterms⟩
  | k + 1, q, hq, hterms, hk => by
    obtain ⟨d, hd, hvalid, hterms'⟩ := exists_derivative hq hterms
      (fun t ht => (h t ht).primitive hk)
      (fun t ht => (h t ht).isZero_raised (Nat.le_of_succ_le hk))
    obtain ⟨r, hr, hr'⟩ := exists_nthDerivative h hvalid hterms' (Nat.le_of_succ_le hk)
    obtain ⟨s, hs, hs'⟩ := exists_nthDerivative_succ hd hr
    exact ⟨s, hs, hs'.trans hr'⟩

/-! ## Inverse operations -/

theorem exists_nthDerivative_nthAntiderivative (hp : p.Valid) {n : ℕ} {c : Float}
    (hc : c.isFinite = true) (h : ∀ t ∈ p.terms, t.Raises n) :
    ∃ q r, p.nthAntiderivative n c = .ok q ∧ q.nthDerivative n = .ok r ∧ r.terms = p.terms := by
  have hstart : p.terms.map (raised 0) = p.terms :=
    (List.map_congr_left fun t ht => (h t ht).raised_zero).trans (List.map_id _)
  cases n with
  | zero => exact ⟨p, p, rfl, rfl, rfl⟩
  | succ m =>
    obtain ⟨q, hq, hvalid, hterms⟩ :=
      exists_iteratedAntiderivative h (m := m + 1) hp hstart.symm (by omega)
    rw [Nat.zero_add] at hterms
    have hprimitive (t : Term) (ht : t ∈ p.terms) := (h t ht).primitive (k := m) le_rfl
    have hz (t : Term) (ht : t ∈ p.terms) := (h t ht).isZero_raised (Nat.le_succ m)
    have hne : ∀ u ∈ q.terms, u.exponent ≠ 0 := by
      rw [hterms]
      refine List.forall_mem_map.2 fun t ht he => (hprimitive t ht).exponent_ne ?_
      rw [he]
      rfl
    -- the first derivative is that of the antiderivative without the constant
    obtain ⟨d₀, hd₀, -, hterms₀⟩ := exists_derivative hvalid hterms hprimitive hz
    obtain ⟨d, hd, hdvalid, hdterms⟩ := exists_derivative_append hvalid hc hne hd₀
    obtain ⟨r, hr, hrterms⟩ :=
      exists_nthDerivative h hdvalid (hdterms.trans hterms₀) (Nat.le_succ m)
    obtain ⟨s, hs, hsterms⟩ := exists_nthDerivative_succ hd hr
    refine ⟨q.append ⟨c, 0⟩, s, ?_, hs, by rw [hsterms, hrterms, hstart]⟩
    rw [nthAntiderivative, if_neg (Nat.succ_ne_zero m), hq]
    rfl

/-- The derivatives of the terms that are not constant. -/
theorem terms_derivative_of_integral (hp : p.Valid) (hi : p.Integral)
    (h : ∀ t ∈ p.terms, t.Lowers)
    (hle : ∀ t ∈ p.terms, |toInt t.coefficient * t.exponent.toInt| ≤ 2 ^ 53) :
    (ofTerms (p.terms.map derived)).terms =
      (p.terms.filter (·.exponent ≠ 0)).map derived := by
  rw [terms_derivative hp h, Term.nonzero, List.filter_map]
  congr 1
  refine List.filter_congr fun t ht => ?_
  have hproduct := (hi t ht).mul (isInt_toDouble t.exponent) (hle t ht)
  have hc := toInt_ne_zero (hi t ht) (hp.isZero_eq_false t ht)
  have hzero : t.derived.isZero = true ↔ t.exponent = 0 := by
    rw [Term.isZero, derived, hproduct.beq_zero, mul_eq_zero, or_iff_right hc, ← Int32.toInt_inj]
    rfl
  rw [Bool.eq_iff_iff, decide_eq_true_eq, Function.comp_apply, Bool.not_eq_true', ne_eq, ← hzero,
    Bool.not_eq_true]

/-- Integration gives the terms back that differentiation does not lose. -/
theorem exists_antiderivative_derivative (hp : p.Valid) (hi : p.Integral)
    (h : ∀ t ∈ p.terms, t.Lowers)
    (hle : ∀ t ∈ p.terms, |toInt t.coefficient * t.exponent.toInt| ≤ 2 ^ 53) :
    ∃ d q, p.derivative = .ok d ∧ d.antiderivative = .ok q ∧ q.Valid ∧
      q.terms = p.terms.filter (·.exponent ≠ 0) := by
  have hsub : ∀ t ∈ p.terms.filter (·.exponent ≠ 0), t ∈ p.terms ∧ t.exponent.toInt ≠ 0 := by
    intro t ht
    obtain ⟨hmem, hne⟩ := List.mem_filter.1 ht
    rw [decide_eq_true_eq] at hne
    exact ⟨hmem, fun he => hne (Int32.toInt_inj.1 he)⟩
  have hprimitive : ∀ t ∈ p.terms.filter (·.exponent ≠ 0), t.derived.Primitive (id t) := by
    intro t ht
    obtain ⟨hmem, hne⟩ := hsub t ht
    refine ⟨?_, hne, hi t hmem, (hi t hmem).mul (isInt_toDouble _) (hle t hmem), hle t hmem⟩
    rw [(h t hmem).toInt_derived, sub_add_cancel]
    rfl
  obtain ⟨q, hq, hvalid, hterms⟩ := exists_antiderivative (valid_ofTerms _)
    (terms_derivative_of_integral hp hi h hle) hprimitive
    (fun t ht => hp.isZero_eq_false t (hsub t ht).1)
  rw [List.map_id] at hterms
  exact ⟨_, q, derivative_eq_ok h, hq, hvalid, hterms⟩

theorem exists_nthAntiderivative_derivative (hp : p.Valid) (hi : p.Integral)
    (h : ∀ t ∈ p.terms, t.Lowers)
    (hle : ∀ t ∈ p.terms, |toInt t.coefficient * t.exponent.toInt| ≤ 2 ^ 53) :
    ∃ d q, p.derivative = .ok d ∧ d.nthAntiderivative 1 p.constantTerm = .ok q ∧
      q.terms = p.terms := by
  obtain ⟨d, q, hd, hq, hvalid, hterms⟩ := exists_antiderivative_derivative hp hi h hle
  refine ⟨d, q.append ⟨p.constantTerm, 0⟩, hd, ?_, terms_append_constantTerm hp hvalid hterms⟩
  rw [nthAntiderivative, if_neg one_ne_zero, iteratedAntiderivative, hq]
  rfl

/-- Differentiation undoes integration, and integration undoes differentiation up to the constant.

The derivative of order `n` of the antiderivative of order `n` with any finite constant has the
terms of the polynomial, if its coefficients are integers of at most `2 ^ 53` that the exponents on
the way divide; none of these exponents can be zero then.  The antiderivative of the derivative with
the constant term has the terms of the polynomial, if the products of its coefficients and exponents
are at most `2 ^ 53`. -/
theorem nthDerivative_nthAntiderivative (hp : p.Valid) (hi : p.Integral) :
    (∀ (n : ℕ) (c : Float), c.isFinite = true →
      (∀ t ∈ p.terms, t.exponent.toInt + n < 2 ^ 31 ∧ |toInt t.coefficient| ≤ 2 ^ 53 ∧
        ∏ i ∈ Finset.range n, (t.exponent.toInt + 1 + i) ∣ toInt t.coefficient) →
      ∃ q r, p.nthAntiderivative n c = .ok q ∧ q.nthDerivative n = .ok r ∧ r.terms = p.terms) ∧
    ((∀ t ∈ p.terms, -2 ^ 31 < t.exponent.toInt ∧
        |toInt t.coefficient * t.exponent.toInt| ≤ 2 ^ 53) →
      ∃ d q, p.derivative = .ok d ∧ d.nthAntiderivative 1 p.constantTerm = .ok q ∧
        q.terms = p.terms) := by
  refine ⟨fun n c hc h => ?_, fun h => ?_⟩
  · refine exists_nthDerivative_nthAntiderivative hp hc fun t ht => ?_
    obtain ⟨hexponent, hle, hdvd⟩ := h t ht
    exact ⟨hp.isZero_eq_false t ht, hi t ht, hle, hexponent, hdvd⟩
  · exact exists_nthAntiderivative_derivative hp hi (fun t ht => (h t ht).1) fun t ht => (h t ht).2

/-- `6 x + 12 x ^ -4` can be integrated twice, first to `3 x ^ 2 - 4 x ^ -3` and then to
`x ^ 3 + 2 x ^ -2`, and the constant `4` stands between the two terms. -/
theorem nthDerivative_nthAntiderivative_reciprocal :
    let p := ofTerms [⟨6.0, 1⟩, ⟨12.0, -4⟩]
    (∃ q r, p.nthAntiderivative 2 4.0 = .ok q ∧ q.nthDerivative 2 = .ok r ∧ r.terms = p.terms) ∧
    ∃ d q, p.derivative = .ok d ∧ d.nthAntiderivative 1 p.constantTerm = .ok q ∧
      q.terms = p.terms := by
  intro p
  have six : IsInt 6.0 6 := isInt_of_isNat (by decide)
  have twelve : IsInt 12.0 12 := isInt_of_isNat (by decide)
  have hterms : p.terms = [⟨6.0, 1⟩, ⟨12.0, -4⟩] := by decide
  have hi : p.Integral := by
    simp only [Poly.Integral, hterms, Term.Integral, List.forall_mem_cons, six.toInt_eq,
      twelve.toInt_eq]
    exact ⟨six, twelve, by simp⟩
  have hone : (1 : Exponent).toInt = 1 := rfl
  have hfour : (-4 : Exponent).toInt = -4 := rfl
  obtain ⟨integrated, derived⟩ := nthDerivative_nthAntiderivative (valid_ofTerms _) hi
  refine ⟨integrated 2 4.0 (by decide) ?_, derived ?_⟩
  · rw [hterms]
    simp only [List.forall_mem_cons, six.toInt_eq, twelve.toInt_eq, hone, hfour,
      Finset.prod_range_succ, Finset.prod_range_zero]
    norm_num
  · rw [hterms]
    simp only [List.forall_mem_cons, six.toInt_eq, twelve.toInt_eq, hone, hfour]
    norm_num

end Poly

end SparsePoly
