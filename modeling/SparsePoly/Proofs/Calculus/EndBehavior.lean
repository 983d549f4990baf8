import Mathlib
import SparsePoly.Calculus
import SparsePoly.Proofs.Poly.Valid

/-!
# Signs far from zero

A polynomial with finite coefficients is read as a function on the real numbers, where negative
exponents stand for poles at zero (`Poly.realValue`).  Divided by its leading power it tends to its
leading coefficient on both sides, so that far from zero it has the sign of its leading term
(`eventually_sign_realValue`), and the quadrants in which its graph ends are those of the leading
term (`endBehavior_sign`).
-/

open Filter Bornology Topology SparsePoly.Binary64

namespace SparsePoly

/-! ## Values at real numbers -/

namespace Term

variable {t : Term} {ts : List Term} {d : ℤ} {x : ℝ}

/-- The exact value of a list of terms at a real number other than zero. -/
noncomputable def realValue (ts : List Term) (x : ℝ) : ℝ :=
  (ts.map fun t => (toRat t.coefficient : ℝ) * x ^ t.exponent.toInt).sum

@[simp] theorem realValue_nil (x : ℝ) : realValue [] x = 0 := rfl

@[simp] theorem realValue_cons (t : Term) (ts : List Term) (x : ℝ) : realValue (t :: ts) x =
    (toRat t.coefficient : ℝ) * x ^ t.exponent.toInt + realValue ts x := by
  simp [realValue]

/-! ## The leading term -/

theorem tendsto_zpow_cobounded (h : d < 0) :
    Tendsto (fun x : ℝ => x ^ d) (cobounded ℝ) (𝓝 0) := by
  obtain ⟨k, rfl⟩ := Int.eq_negSucc_of_lt_zero h
  have hinv := (tendsto_inv₀_cobounded (α := ℝ)).pow (k + 1)
  rw [zero_pow (Nat.succ_ne_zero k)] at hinv
  simpa only [zpow_negSucc, inv_pow] using hinv

/-- Lower terms vanish beside a higher power. -/
theorem tendsto_realValue_div (h : ∀ t ∈ ts, t.exponent.toInt < d) :
    Tendsto (fun x => realValue ts x / x ^ d) (cobounded ℝ) (𝓝 0) := by
  induction ts with
  | nil => simp
  | cons t ts ih =>
    obtain ⟨ht, hts⟩ := List.forall_mem_cons.1 h
    have hsum := ((tendsto_zpow_cobounded (sub_neg.2 ht)).const_mul
      (toRat t.coefficient : ℝ)).add (ih hts)
    rw [mul_zero, add_zero] at hsum
    refine hsum.congr' ?_
    filter_upwards [eventually_ne_cobounded (0 : ℝ)] with x hx
    rw [realValue_cons, add_div, mul_div_assoc, zpow_sub₀ hx]

/-- Far from zero a list of terms has the sign of its leading term. -/
theorem eventually_sign_realValue (h : StrictlyDescending (t :: ts))
    (ht : toRat t.coefficient ≠ 0) :
    ∀ᶠ x in cobounded ℝ, SignType.sign (realValue (t :: ts) x) =
      SignType.sign ((toRat t.coefficient : ℝ) * x ^ t.exponent.toInt) := by
  have hlower : ∀ u ∈ ts, u.exponent.toInt < t.exponent.toInt := fun u hu =>
    Int32.lt_iff_toInt_lt.1 ((List.pairwise_cons.1 h).1 u hu)
  have hquotient := (tendsto_realValue_div hlower).const_add (toRat t.coefficient : ℝ)
  rw [add_zero] at hquotient
  have hne : (toRat t.coefficient : ℝ) ≠ 0 := by exact_mod_cast ht
  have hsign := (continuousAt_sign_of_ne_zero hne).tendsto.comp hquotient
  rw [nhds_discrete, tendsto_pure] at hsign
  filter_upwards [hsign, eventually_ne_cobounded (0 : ℝ)] with x hx hx₀
  have hfactor : realValue (t :: ts) x =
      ((toRat t.coefficient : ℝ) + realValue ts x / x ^ t.exponent.toInt) *
        x ^ t.exponent.toInt := by
    rw [realValue_cons, add_mul, div_mul_cancel₀ _ (zpow_ne_zero _ hx₀)]
  rw [hfactor, sign_mul, sign_mul]
  exact congrArg (· * _) hx

end Term

open Term

namespace Poly

variable {p : Poly}

/-- The exact value of a polynomial at a real number other than zero. -/
noncomputable def realValue (p : Poly) (x : ℝ) : ℝ := Term.realValue p.terms x

/-! ## The ends of the graph -/

theorem endBehavior_right (p : Poly) :
    p.endBehavior.right = if 0.0 < p.leadingCoefficient then .I else .IV := by
  unfold endBehavior
  split_ifs with h <;> cases p.degree.toInt % 2 == 0 <;> simp [h]

theorem endBehavior_left (p : Poly) : p.endBehavior.left =
    if (0.0 < p.leadingCoefficient ↔ Even p.degree.toInt) then .II else .III := by
  unfold endBehavior
  rcases Int.even_or_odd p.degree.toInt with hd | hd
  · by_cases h : 0.0 < p.leadingCoefficient <;> simp [h, hd, Int.even_iff.1 hd]
  · by_cases h : 0.0 < p.leadingCoefficient <;>
      simp [h, Int.not_even_iff_odd.2 hd, Int.odd_iff.1 hd]

theorem exists_terms_eq_cons (hz : p.isZero = false) : ∃ t ts, p.terms = t :: ts ∧
    p.leadingCoefficient = t.coefficient ∧ p.degree = t.exponent := by
  obtain ⟨t, ts, hts⟩ := List.exists_cons_of_ne_nil (List.isEmpty_eq_false_iff.1 hz)
  have hlead : p.leadingTerm? = some t := by rw [leadingTerm?, hts, List.head?_cons]
  exact ⟨t, ts, hts, leadingCoefficient_eq_of_leadingTerm hlead, degree_eq_of_leadingTerm hlead⟩

/-- The leading coefficient is finite and not zero. -/
theorem Valid.leadingCoefficient_spec (hp : p.Valid)
    (hf : ∀ t ∈ p.terms, t.coefficient.isFinite = true) (hz : p.isZero = false) :
    p.leadingCoefficient.isFinite = true ∧ toRat p.leadingCoefficient ≠ 0 := by
  obtain ⟨t, ts, hts, hlead, -⟩ := exists_terms_eq_cons hz
  have ht : t ∈ p.terms := by simp [hts]
  rw [hlead]
  exact ⟨hf t ht, toRat_ne_zero (hf t ht) (hp.isZero_eq_false t ht)⟩

/-- Far from zero a polynomial has the sign of its leading term. -/
theorem eventually_sign_realValue (hp : p.Valid)
    (hf : ∀ t ∈ p.terms, t.coefficient.isFinite = true) (hz : p.isZero = false) :
    ∀ᶠ x in cobounded ℝ, SignType.sign (p.realValue x) =
      SignType.sign ((toRat p.leadingCoefficient : ℝ) * x ^ p.degree.toInt) := by
  have hne := (hp.leadingCoefficient_spec hf hz).2
  obtain ⟨t, ts, hts, hlead, hdegree⟩ := exists_terms_eq_cons hz
  rw [hlead] at hne ⊢
  rw [hdegree]
  unfold realValue
  rw [hts]
  exact Term.eventually_sign_realValue (hts ▸ hp.strictlyDescending) hne

section Leading

variable {x : ℝ}

/-- The leading term to the right of zero. -/
theorem leading_pos_iff_right (hf : p.leadingCoefficient.isFinite = true) (hx : 0 < x) :
    0 < (toRat p.leadingCoefficient : ℝ) * x ^ p.degree.toInt ↔ p.endBehavior.right = .I := by
  have hpos : 0.0 < p.leadingCoefficient ↔ 0 < toRat p.leadingCoefficient := lt_iff_toRat rfl hf
  rw [mul_pos_iff_of_pos_right (zpow_pos hx _), Rat.cast_pos, ← hpos, endBehavior_right]
  split_ifs with h <;> simp [h]

/-- The leading term to the left of zero. -/
theorem leading_pos_iff_left (hf : p.leadingCoefficient.isFinite = true)
    (hne : toRat p.leadingCoefficient ≠ 0) (hx : x < 0) :
    0 < (toRat p.leadingCoefficient : ℝ) * x ^ p.degree.toInt ↔ p.endBehavior.left = .II := by
  have hpos : 0.0 < p.leadingCoefficient ↔ 0 < toRat p.leadingCoefficient := lt_iff_toRat rfl hf
  have hleft : p.endBehavior.left = .II ↔
      (0 < toRat p.leadingCoefficient ↔ Even p.degree.toInt) := by
    rw [← hpos, endBehavior_left]
    split_ifs with h <;> simp [h]
  rw [hleft]
  rcases Int.even_or_odd p.degree.toInt with hd | hd
  · rw [mul_pos_iff_of_pos_right (hd.zpow_pos hx.ne), Rat.cast_pos, iff_true_right hd]
  · rw [← neg_mul_neg, mul_pos_iff_of_pos_right (neg_pos.2 (hd.zpow_neg hx)), neg_pos,
      Rat.cast_lt_zero, iff_false_right (Int.not_even_iff_odd.2 hd), not_lt, hne.le_iff_lt]

end Leading

/-- A graph ends in the quadrants that are given for it: far to the right the values are positive
if it ends in the first quadrant and negative if it ends in the fourth, and far to the left they are
positive if it ends in the second quadrant and negative if it ends in the third. -/
theorem endBehavior_sign (hp : p.Valid) (hf : ∀ t ∈ p.terms, t.coefficient.isFinite = true)
    (hz : p.isZero = false) : ∃ M : ℝ, 0 ≤ M ∧
      (∀ x, M < x → (0 < p.realValue x ↔ p.endBehavior.right = .I) ∧
        (p.realValue x < 0 ↔ p.endBehavior.right = .IV)) ∧
      ∀ x, x < -M → (0 < p.realValue x ↔ p.endBehavior.left = .II) ∧
        (p.realValue x < 0 ↔ p.endBehavior.left = .III) := by
  obtain ⟨hlead, hne⟩ := hp.leadingCoefficient_spec hf hz
  obtain ⟨M, -, hM⟩ := hasBasis_cobounded_norm.eventually_iff.1
    (eventually_sign_realValue hp hf hz)
  -- far from zero the value is positive or negative like the leading term, which is not zero
  have hsign {x : ℝ} (hx : max M 0 < |x|) : (0 < p.realValue x ↔
      0 < (toRat p.leadingCoefficient : ℝ) * x ^ p.degree.toInt) ∧
      (p.realValue x < 0 ↔ ¬ 0 < (toRat p.leadingCoefficient : ℝ) * x ^ p.degree.toInt) := by
    obtain ⟨hMx, hx₀⟩ := max_lt_iff.1 hx
    have heq := hM (x := x) hMx.le
    have hterm : (toRat p.leadingCoefficient : ℝ) * x ^ p.degree.toInt ≠ 0 :=
      mul_ne_zero (by exact_mod_cast hne) (zpow_ne_zero _ (abs_pos.1 hx₀))
    rw [← sign_eq_one_iff, ← sign_eq_one_iff, ← sign_eq_neg_one_iff, heq, sign_eq_neg_one_iff,
      sign_eq_one_iff, not_lt, hterm.le_iff_lt]
    exact ⟨Iff.rfl, Iff.rfl⟩
  refine ⟨max M 0, le_max_right M 0, fun x hx => ?_, fun x hx => ?_⟩
  · have hx₀ : 0 < x := (le_max_right M 0).trans_lt hx
    obtain ⟨hpos, hneg⟩ := hsign (by rwa [abs_of_pos hx₀])
    rw [hpos, hneg, leading_pos_iff_right hlead hx₀, endBehavior_right]
    split_ifs <;> simp
  · have hx₀ : x < 0 := by linarith [le_max_right M 0]
    obtain ⟨hpos, hneg⟩ := hsign (by rw [abs_of_neg hx₀]; linarith)
    rw [hpos, hneg, leading_pos_iff_left hlead hne hx₀, endBehavior_left]
    split_ifs <;> simp

/-- The cubes cancel, and `-2 / x` leads. -/
theorem endBehavior_sign_reciprocal :
    let p := ofTerms [⟨1.0, 3⟩, ⟨-1.0, 3⟩, ⟨-2.0, -1⟩, ⟨5.0, -4⟩]
    ∃ M : ℝ, 0 ≤ M ∧ (∀ x, M < x → p.realValue x < 0) ∧ ∀ x, x < -M → 0 < p.realValue x := by
  intro p
  have hterms : p.terms = [⟨-2.0, -1⟩, ⟨5.0, -4⟩] := by decide
  have hends : p.endBehavior = ⟨.II, .IV⟩ := by decide
  obtain ⟨M, hM, hright, hleft⟩ := endBehavior_sign (p := p) (valid_ofTerms _)
    (by rw [hterms]; decide) (by rw [isZero, hterms]; rfl)
  rw [hends] at hright hleft
  exact ⟨M, hM, fun x hx => (hright x hx).2.2 rfl, fun x hx => (hleft x hx).1.2 rfl⟩

end Poly

end SparsePoly
