import Mathlib
import SparsePoly.Proofs.Binary64.Status
import SparsePoly.Proofs.Calculus.Derivative
import SparsePoly.Proofs.Poly.Descent

/-!
# Differentiating past the degree

The derivative of order `n` has the terms that are differentiated `n` times each, without those that
are zero by then (`exists_nthDerivative_nonzero`).  A term becomes zero one step after its exponent
has, if its coefficient is still finite by that time (`settles`).  If it has overflowed, the
infinity times zero is a NaN, and the NaN stays while the exponent goes down as far as exponents go
(`nthDerivative_past_degree`).
-/

namespace SparsePoly

open Binary64

namespace Binary64

variable {x y : Float}

/-- A product with an infinity is not a number if the other factor is zero. -/
theorem isNaN_mul_of_isInf (hx : x.isInf = true) (hy : y.isNaN = false) :
    (x * y).isNaN = (y == 0.0) := by
  rw [Bool.eq_iff_iff, isNaN_mul_iff, isNaN_eq_false_of_isInf hx, hx, hy,
    beq_zero_eq_false_of_isInf hx]
  simp

end Binary64

namespace Term

variable {t : Term} {k n : ℕ}

/-! ## A term that is differentiated again and again -/

theorem isZero_derived_of_isZero (h : t.isZero = true) : t.derived.isZero = true := by
  have hz := isInt_zero_of_beq h
  refine mul_beq_zero hz.finite (isInt_toDouble t.exponent).finite ?_
  rw [hz.toRat_eq, Int.cast_zero, zero_mul]

theorem isZero_iterate_derived (h : t.isZero = true) (n : ℕ) : (derived^[n] t).isZero = true := by
  induction n with
  | zero => exact h
  | succ n ih =>
    rw [Function.iterate_succ_apply']
    exact isZero_derived_of_isZero ih

theorem toInt_iterate_derived (h : k ≤ t.exponent.toInt + 2 ^ 31) :
    (derived^[k] t).exponent.toInt = t.exponent.toInt - k := by
  induction k with
  | zero => simp
  | succ k ih =>
    push_cast at h ⊢
    have hk := ih (by omega)
    have hlowers : (derived^[k] t).Lowers := by
      unfold Lowers
      omega
    rw [Function.iterate_succ_apply', hlowers.toInt_derived]
    omega

theorem lowers_iterate_derived_iff (h : k ≤ t.exponent.toInt + 2 ^ 31) :
    (derived^[k] t).Lowers ↔ k < t.exponent.toInt + 2 ^ 31 := by
  unfold Lowers
  rw [toInt_iterate_derived h]
  omega

/-- A power of the unknown with a finite factor that is not zero. -/
structure Ordinary (t : Term) : Prop where
  nonzero : t.isZero = false
  finite : t.coefficient.isFinite = true
  nonneg : 0 ≤ t.exponent.toInt

/-- Down to the exponent zero a coefficient neither vanishes nor becomes undefined. -/
theorem Ordinary.iterate_derived (h : t.Ordinary) (hk : k ≤ t.exponent.toInt) :
    (derived^[k] t).isZero = false ∧ (derived^[k] t).coefficient.isNaN = false := by
  induction k with
  | zero => exact ⟨h.nonzero, isNaN_eq_false_of_isFinite h.finite⟩
  | succ k ih =>
    obtain ⟨hzero, hnumber⟩ := ih (by omega)
    have hexponent : 1 ≤ (derived^[k] t).exponent.toInt := by
      rw [toInt_iterate_derived (by omega)]
      omega
    rw [Function.iterate_succ_apply']
    refine ⟨isZero_derived hzero hexponent, ?_⟩
    have hint := isInt_toDouble (derived^[k] t).exponent
    rcases finite_or_isInf_or_isNaN (derived^[k] t).coefficient with hf | hi | hn
    · exact isNaN_mul_of_isFinite hf hint.finite
    · show ((derived^[k] t).coefficient * _).isNaN = false
      rw [isNaN_mul_of_isInf hi (isNaN_eq_false_of_isFinite hint.finite), ← Bool.not_eq_true,
        hint.beq_zero]
      omega
    · rw [hn] at hnumber
      cases hnumber

/-- The coefficient is finite at the time when the exponent has come down to zero. -/
def settles (t : Term) : Bool := (derived^[t.exponent.toInt.toNat] t).coefficient.isFinite

/-- A coefficient that has stayed finite becomes zero, and stays zero. -/
theorem Ordinary.isZero_of_settles (h : t.Ordinary) (hs : t.settles = true)
    (hn : t.exponent.toInt < n) : (derived^[n] t).isZero = true := by
  obtain ⟨d, hd⟩ := Int.eq_ofNat_of_zero_le h.nonneg
  obtain ⟨j, rfl⟩ : ∃ j, n = j + (d + 1) := ⟨n - (d + 1), by omega⟩
  rw [settles, hd, Int.toNat_natCast] at hs
  have hexponent : (derived^[d] t).exponent.toInt = 0 := by
    rw [toInt_iterate_derived (by omega)]
    omega
  have hint := isInt_toDouble (derived^[d] t).exponent
  have hzero : (derived^[d] t).derived.isZero = true :=
    mul_beq_zero hs hint.finite (by rw [hint.toRat_eq, hexponent, Int.cast_zero, mul_zero])
  rw [Function.iterate_add_apply, Function.iterate_succ_apply']
  exact isZero_iterate_derived hzero j

/-- A coefficient that has overflowed becomes a NaN, and stays one. -/
theorem Ordinary.isNaN_of_not_settles (h : t.Ordinary) (hs : t.settles = false)
    (hn : t.exponent.toInt < n) : (derived^[n] t).coefficient.isNaN = true := by
  obtain ⟨d, hd⟩ := Int.eq_ofNat_of_zero_le h.nonneg
  obtain ⟨j, rfl⟩ : ∃ j, n = d + 1 + j := ⟨n - (d + 1), by omega⟩
  rw [settles, hd, Int.toNat_natCast] at hs
  induction j with
  | zero =>
    have hexponent : (derived^[d] t).exponent.toInt = 0 := by
      rw [toInt_iterate_derived (by omega)]
      omega
    have hint := isInt_toDouble (derived^[d] t).exponent
    have hinf : (derived^[d] t).coefficient.isInf = true := by
      have hnumber := (h.iterate_derived (k := d) (by omega)).2
      have := finite_or_isInf_or_isNaN (derived^[d] t).coefficient
      rw [hs, hnumber] at this
      exact (this.resolve_left Bool.false_ne_true).resolve_right Bool.false_ne_true
    rw [Nat.add_zero, Function.iterate_succ_apply']
    show ((derived^[d] t).coefficient * _).isNaN = true
    rw [isNaN_mul_of_isInf hinf (isNaN_eq_false_of_isFinite hint.finite), hint.beq_zero, hexponent]
  | succ j ih =>
    rw [← Nat.add_assoc, Function.iterate_succ_apply']
    show ((derived^[d + 1 + j] t).coefficient * _).isNaN = true
    rw [mul_eq_left_of_isNaN (ih (by omega))]
    exact ih (by omega)

/-- What becomes of a term whose coefficient overflows. -/
theorem Ordinary.eq_of_not_settles (h : t.Ordinary) (hs : t.settles = false)
    (hn : t.exponent.toInt < n) (hle : n ≤ t.exponent.toInt + 2 ^ 31) :
    derived^[n] t = ⟨nan, Int32.ofInt (t.exponent.toInt - n)⟩ := by
  have hc := eq_nan (h.isNaN_of_not_settles hs hn)
  rw [← toInt_iterate_derived hle, Int32.ofInt_toInt, ← hc]

theorem Ordinary.isZero_iterate (h : t.Ordinary) (hn : t.exponent.toInt < n) :
    (derived^[n] t).isZero = t.settles := by
  cases hs : t.settles with
  | true => exact h.isZero_of_settles hs hn
  | false =>
    rw [isZero, eq_nan (h.isNaN_of_not_settles hs hn)]
    rfl

end Term

open Term

/-! ## Repeated differentiation -/

namespace Poly

variable {p : Poly} {t : Term} {ts : List Term} {k m n : ℕ}

/-- Terms that are zero may be dropped before a function that keeps them zero, or afterwards. -/
theorem nonzero_map_nonzero {f : Term → Term} (hf : ∀ t, t.isZero = true → (f t).isZero = true)
    (ts : List Term) : Term.nonzero ((Term.nonzero ts).map f) = Term.nonzero (ts.map f) := by
  induction ts with
  | nil => rfl
  | cons t ts ih =>
    unfold Term.nonzero at ih ⊢
    cases ht : t.isZero with
    | true => simp [ht, hf t ht, ih]
    | false => simp only [List.filter_cons, ht, Bool.not_false, if_true, List.map_cons, ih]

theorem nthDerivative_of_isZero (h : p.isZero = true) (n : ℕ) : p.nthDerivative n = .ok p := by
  cases n with
  | zero => rfl
  | succ n => rw [nthDerivative, if_pos h]

/-- Differentiating `m` times and `n` times more. -/
theorem nthDerivative_add (p : Poly) (m n : ℕ) :
    p.nthDerivative (m + n) = p.nthDerivative m >>= (·.nthDerivative n) := by
  induction m generalizing p with
  | zero => rw [Nat.zero_add]; rfl
  | succ m ih =>
    cases hz : p.isZero with
    | true =>
      rw [nthDerivative_of_isZero hz, nthDerivative_of_isZero hz]
      exact (nthDerivative_of_isZero hz n).symm
    | false =>
      rw [Nat.succ_add, nthDerivative, nthDerivative, hz]
      cases p.derivative with
      | error e => rfl
      | ok slope => exact ih slope

/-- The derivative exists as long as no term that is there has the least exponent.  Its terms are
those that are not zero after as many differentiations. -/
theorem exists_nthDerivative_nonzero (hp : p.Valid)
    (h : ∀ k < n, ∀ t ∈ p.terms, (derived^[k] t).isZero = false → (derived^[k] t).Lowers) :
    ∃ q, p.nthDerivative n = .ok q ∧ q.terms = Term.nonzero (p.terms.map derived^[n]) := by
  induction n generalizing p with
  | zero =>
    refine ⟨p, rfl, ?_⟩
    rw [Function.iterate_zero, List.map_id, nonzero_eq_self hp.isZero_eq_false]
  | succ n ih =>
    cases hz : p.isZero with
    | true =>
      refine ⟨p, nthDerivative_of_isZero hz _, ?_⟩
      rw [isZero, List.isEmpty_iff] at hz
      rw [hz]
      rfl
    | false =>
      have hlowers : ∀ t ∈ p.terms, t.Lowers := fun t ht =>
        h 0 (Nat.succ_pos n) t ht (hp.isZero_eq_false t ht)
      have hterms := terms_derivative hp hlowers
      have hslope : ∀ k < n, ∀ u ∈ (ofTerms (p.terms.map derived)).terms,
          (derived^[k] u).isZero = false → (derived^[k] u).Lowers := by
        intro k hk u hu
        rw [hterms, mem_nonzero, List.mem_map] at hu
        obtain ⟨⟨t, ht, rfl⟩, -⟩ := hu
        rw [← Function.iterate_succ_apply]
        exact h (k + 1) (by omega) t ht
      obtain ⟨q, hq, hqterms⟩ := ih (valid_ofTerms _) hslope
      refine ⟨q, ?_, ?_⟩
      · rw [nthDerivative, hz, derivative_eq_ok hlowers]
        exact hq
      · rw [hqterms, hterms, nonzero_map_nonzero fun t ht => isZero_iterate_derived ht n,
          List.map_map, ← Function.iterate_succ]

/-- A term with the least exponent cannot be differentiated once more. -/
theorem nthDerivative_eq_error (hp : p.Valid) (ht : t ∈ p.terms)
    (hz : (derived^[k] t).isZero = false) (hl : ¬ (derived^[k] t).Lowers) (hkn : k < n) :
    p.nthDerivative n = .error (.exponentOverflow .subtraction) := by
  induction k using Nat.strong_induction_on generalizing t with
  | _ k ih =>
    by_cases h : ∀ j < k, ∀ u ∈ p.terms, (derived^[j] u).isZero = false → (derived^[j] u).Lowers
    · obtain ⟨q, hq, hterms⟩ := exists_nthDerivative_nonzero hp h
      have hmem : derived^[k] t ∈ q.terms := by
        rw [hterms, mem_nonzero]
        exact ⟨List.mem_map_of_mem ht, hz⟩
      have hne : q.isZero = false := by
        rw [isZero, List.isEmpty_eq_false_iff]
        exact List.ne_nil_of_mem hmem
      obtain ⟨j, rfl⟩ : ∃ j, n = k + (j + 1) := ⟨n - (k + 1), by omega⟩
      rw [nthDerivative_add, hq]
      show q.nthDerivative (j + 1) = _
      rw [nthDerivative, hne, derivative,
        mapM_derivative_of_not_lowers fun h' => hl (h' _ hmem)]
      rfl
    · push Not at h
      obtain ⟨j, hj, u, hu, huz, hul⟩ := h
      exact ih j hj hu huz hul (by omega)

/-- As long as the exponents last, the terms whose coefficients overflow are what is left. -/
theorem terms_nthDerivative (hp : p.Valid) (hordinary : ∀ t ∈ p.terms, t.Ordinary)
    (hpast : ∀ t ∈ p.terms, t.exponent.toInt < n)
    (hlast : ∀ t ∈ p.terms, t.settles = true ∨ n ≤ t.exponent.toInt + 2 ^ 31) :
    ∃ q, p.nthDerivative n = .ok q ∧ q.terms =
      (p.terms.filter (!·.settles)).map fun t => ⟨nan, Int32.ofInt (t.exponent.toInt - n)⟩ := by
  have hlowers : ∀ k < n, ∀ t ∈ p.terms, (derived^[k] t).isZero = false →
      (derived^[k] t).Lowers := by
    intro k hk t ht hz
    have hk' : k < t.exponent.toInt + 2 ^ 31 := by
      rcases hlast t ht with hs | hs
      · by_contra hlt
        rw [(hordinary t ht).isZero_of_settles hs (by omega)] at hz
        cases hz
      · omega
    exact (lowers_iterate_derived_iff hk'.le).2 hk'
  obtain ⟨q, hq, hterms⟩ := exists_nthDerivative_nonzero hp hlowers
  refine ⟨q, hq, ?_⟩
  have hzero : ∀ t ∈ p.terms, ((!·.isZero) ∘ derived^[n]) t = !t.settles := fun t ht =>
    congrArg (!·) ((hordinary t ht).isZero_iterate (hpast t ht))
  rw [hterms, Term.nonzero, List.filter_map, List.filter_congr hzero]
  refine List.map_congr_left fun t ht => ?_
  obtain ⟨ht, hs⟩ := List.mem_filter.1 ht
  rw [Bool.not_eq_true'] at hs
  refine (hordinary t ht).eq_of_not_settles hs (hpast t ht) ((hlast t ht).resolve_left ?_)
  rw [hs]
  exact Bool.false_ne_true

/-- A NaN whose exponent has come down to the least one stops the differentiation. -/
theorem nthDerivative_eq_error_of_not_settles (hp : p.Valid) (ht : t ∈ p.terms) (h : t.Ordinary)
    (hs : t.settles = false) (hn : t.exponent.toInt + 2 ^ 31 < n) :
    p.nthDerivative n = .error (.exponentOverflow .subtraction) := by
  have hnonneg := h.nonneg
  obtain ⟨k, hk⟩ := Int.eq_ofNat_of_zero_le (by omega : 0 ≤ t.exponent.toInt + 2 ^ 31)
  refine nthDerivative_eq_error (k := k) hp ht ?_ ?_ (by omega)
  · rw [h.isZero_iterate (by omega), hs]
  · rw [lowers_iterate_derived_iff hk.ge]
    omega

/-- Differentiating past the degree gives zero if and only if every coefficient is still finite when
its exponent has come down to zero.  A coefficient that has overflowed leaves a term whose
coefficient is NaN, until its exponent can go down no further. -/
theorem nthDerivative_past_degree (hp : p.Valid)
    (hfinite : ∀ t ∈ p.terms, t.coefficient.isFinite = true)
    (hexponent : ∀ t ∈ p.terms, 0 ≤ t.exponent.toInt) (hn : p.degree.toInt < n) :
    ((∃ q, p.nthDerivative n = .ok q ∧ q.isZero = true) ↔ ∀ t ∈ p.terms, t.settles = true) ∧
    ((∀ t ∈ p.terms, t.settles = true ∨ n ≤ t.exponent.toInt + 2 ^ 31) →
      ∃ q, p.nthDerivative n = .ok q ∧ q.terms =
        (p.terms.filter (!·.settles)).map fun t => ⟨nan, Int32.ofInt (t.exponent.toInt - n)⟩) ∧
    ((∃ t ∈ p.terms, t.settles = false ∧ t.exponent.toInt + 2 ^ 31 < n) →
      p.nthDerivative n = .error (.exponentOverflow .subtraction)) := by
  have hordinary : ∀ t ∈ p.terms, t.Ordinary := fun t ht =>
    ⟨hp.isZero_eq_false t ht, hfinite t ht, hexponent t ht⟩
  have hpast : ∀ t ∈ p.terms, t.exponent.toInt < n := fun t ht =>
    (Int32.le_iff_toInt_le.1 (hp.le_degree t ht)).trans_lt hn
  have hok := terms_nthDerivative hp hordinary hpast
  have herror : (∃ t ∈ p.terms, t.settles = false ∧ t.exponent.toInt + 2 ^ 31 < n) →
      p.nthDerivative n = .error (.exponentOverflow .subtraction) := by
    rintro ⟨t, ht, hs, hlt⟩
    exact nthDerivative_eq_error_of_not_settles hp ht (hordinary t ht) hs hlt
  have hzero {q : Poly} (hq : q.terms = (p.terms.filter (!·.settles)).map fun t =>
      ⟨nan, Int32.ofInt (t.exponent.toInt - n)⟩) :
      q.isZero = true ↔ ∀ t ∈ p.terms, t.settles = true := by
    rw [isZero, hq, List.isEmpty_iff, List.map_eq_nil_iff, List.filter_eq_nil_iff]
    simp
  refine ⟨⟨?_, fun h => ?_⟩, hok, herror⟩
  · rintro ⟨q, hq, hqzero⟩
    by_cases hlast : ∀ t ∈ p.terms, t.settles = true ∨ n ≤ t.exponent.toInt + 2 ^ 31
    · obtain ⟨q', hq', hterms⟩ := hok hlast
      obtain rfl := Except.ok.inj (hq.symm.trans hq')
      exact (hzero hterms).1 hqzero
    · push Not at hlast
      obtain ⟨t, ht, hs, hlt⟩ := hlast
      rw [herror ⟨t, ht, Bool.eq_false_iff.2 hs, hlt⟩] at hq
      cases hq
  · obtain ⟨q, hq, hterms⟩ := hok fun t ht => Or.inl (h t ht)
    exact ⟨q, hq, (hzero hterms).2 h⟩

/-- The third derivative of `1e308 * x ^ 2 + x` has a term in `x ^ -1`, because `2e308` is beyond
the range; that of `1e307 * x ^ 2 + x` is zero. -/
theorem nthDerivative_past_degree_three :
    (∃ q, (ofTerms [⟨1e308, 2⟩, ⟨1.0, 1⟩]).nthDerivative 3 = .ok q ∧ q.terms = [⟨nan, -1⟩]) ∧
      ∃ q, (ofTerms [⟨1e307, 2⟩, ⟨1.0, 1⟩]).nthDerivative 3 = .ok q ∧ q.isZero = true := by
  have hlarge := nthDerivative_past_degree (n := 3) (valid_ofTerms [⟨1e308, 2⟩, ⟨1.0, 1⟩])
    (by decide +kernel) (by decide +kernel) (by decide +kernel)
  have hsmall := nthDerivative_past_degree (n := 3) (valid_ofTerms [⟨1e307, 2⟩, ⟨1.0, 1⟩])
    (by decide +kernel) (by decide +kernel) (by decide +kernel)
  refine ⟨?_, hsmall.1.2 (by decide +kernel)⟩
  obtain ⟨q, hq, hterms⟩ := hlarge.2.1 (by decide +kernel)
  refine ⟨q, hq, hterms.trans ?_⟩
  decide +kernel

end Poly

end SparsePoly
