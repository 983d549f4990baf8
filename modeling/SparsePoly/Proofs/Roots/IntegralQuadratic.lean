import Mathlib
import SparsePoly.Proofs.Poly.Pointwise
import SparsePoly.Proofs.Roots.Descent
import SparsePoly.Proofs.Roots.Quadratic

/-!
# Quadratic polynomials with integral roots

The formula is exact for `a * (x - r) * (x - s)` with integers `a`, `r` and `s` as long as nothing
under the square root has more than 53 bits: the number under the square root is the square of
`a * (r - s)`, and both numerators are multiples of `2 * a` (`Factors.isInt_roots`).  The bounds say
nothing of `a` alone if both roots are zero.  Four times `a` must not overflow then, because the
product of an infinity and zero is not a number (`roots_integral`).
-/

namespace SparsePoly

open Binary64 Term ClosedForm

/-! ## Coefficients of a list of terms -/

namespace Poly

variable {p : Poly} {t u : Term} {ts us : List Term}

theorem eq_of_exponent_eq (h : StrictlyDescending us) (ht : t ∈ us) (hu : u ∈ us)
    (he : t.exponent = u.exponent) : t = u := by
  have hnodup : (us.map Term.exponent).Nodup :=
    List.pairwise_map.2 (h.imp fun hlt => (Int32.ne_of_lt hlt).symm)
  exact List.inj_on_of_nodup_map hnodup ht hu he

/-- The order in which terms of different exponents were appended does not matter. -/
theorem Represents.terms_eq_of_perm (h : p.Represents ts) (hu : StrictlyDescending us)
    (hts : (Term.nonzero ts).Perm (Term.nonzero us)) : p.terms = Term.nonzero us := by
  have hlists := lists_self hu.nonzero fun t ht => (mem_nonzero.1 ht).2
  rw [h.terms_eq]
  refine (lists_normalForm ts).unique (hlists.congr fun e => Or.inl ?_)
  have hperm : (coefficientsAt (Term.nonzero us) e).Perm (coefficientsAt (Term.nonzero ts) e) :=
    (hts.symm.filter _).map _
  have hlength := hu.nonzero.length_coefficientsAt_le e
  unfold sumAt
  match coefficientsAt (Term.nonzero us) e, hlength, hperm with
  | [], _, hperm => rw [List.nil_perm.1 hperm]
  | [c], _, hperm => rw [List.singleton_perm.1 hperm]

/-- A coefficient is read back up to the sign of zero. -/
theorem Valid.agree_coefficient (hp : p.Valid) (hu : StrictlyDescending us)
    (hterms : p.terms = Term.nonzero us) (ht : t ∈ us) :
    Agree (p.coefficient t.exponent) t.coefficient := by
  cases hz : t.isZero with
  | false =>
    have hmem : t ∈ p.terms := by
      rw [hterms]
      exact mem_nonzero.2 ⟨ht, hz⟩
    exact Or.inl (hp.coefficient_of_mem hmem)
  | true =>
    refine Or.inr ⟨?_, hz⟩
    by_contra hne
    have hmem := mem_of_coefficient (Bool.not_eq_true _ ▸ hne)
    rw [hterms] at hmem
    obtain ⟨hmem, hcoefficient⟩ := mem_nonzero.1 hmem
    rw [eq_of_exponent_eq hu hmem ht rfl, hz] at hcoefficient
    cases hcoefficient

end Poly

/-! ## The formula -/

namespace ClosedForm

variable {a b c r s : ℤ} {A B C : Float}

/-- `a * x ^ 2 + b * x + c` is `a * (x - r) * (x - s)`, and what stands under the square root is
formed from integers of at most 53 bits. -/
structure Factors (a b c r s : ℤ) : Prop where
  lead : a ≠ 0
  linear : b = -a * (r + s)
  constant : c = a * r * s
  square : b ^ 2 ≤ 2 ^ 53
  product : |4 * a * c| ≤ 2 ^ 53
  discriminant : b ^ 2 - 4 * a * c ≤ 2 ^ 53

theorem Factors.symm (h : Factors a b c r s) : Factors a b c s r where
  lead := h.lead
  linear := by rw [h.linear, add_comm]
  constant := by rw [h.constant, mul_right_comm]
  square := h.square
  product := h.product
  discriminant := h.discriminant

theorem factors_zero (ha : a ≠ 0) : Factors a 0 0 0 0 where
  lead := ha
  linear := by rw [add_zero, mul_zero]
  constant := by rw [mul_zero]
  square := by decide
  product := by rw [mul_zero, abs_zero]; decide
  discriminant := by rw [mul_zero]; decide

theorem Factors.discriminant_eq (h : Factors a b c r s) :
    b ^ 2 - 4 * a * c = |a * (r - s)| ^ 2 := by
  rw [sq_abs, h.linear, h.constant]
  ring

theorem abs_le_of_sq_le {n : ℤ} (h : n ^ 2 ≤ 2 ^ 53) : |n| ≤ 2 ^ 27 :=
  abs_le_of_sq_le_sq (h.trans (by norm_num)) (by norm_num)

theorem Factors.abs_linear_le (h : Factors a b c r s) : |b| ≤ 2 ^ 27 := abs_le_of_sq_le h.square

theorem Factors.abs_root_le (h : Factors a b c r s) : |a * (r - s)| ≤ 2 ^ 27 := by
  have hle := h.discriminant
  rw [h.discriminant_eq] at hle
  simpa using abs_le_of_sq_le hle

/-- Only if both roots are zero, the leading coefficient can be large. -/
theorem Factors.eq_zero (h : Factors a b c r s) (ha : 2 ^ 27 < |a|) : r = 0 ∧ s = 0 := by
  have hsmall {n : ℤ} (hn : |a * n| ≤ 2 ^ 27) : n = 0 := by
    refine Int.abs_lt_one_iff.1 (lt_of_mul_lt_mul_left ?_ (abs_nonneg a))
    rw [← abs_mul, mul_one]
    exact hn.trans_lt ha
  have hsum : r + s = 0 := by
    refine hsmall ?_
    rw [← abs_neg, ← neg_mul, ← h.linear]
    exact h.abs_linear_le
  have hdifference := hsmall h.abs_root_le
  omega

/-- Nothing is rounded under the square root, and the square root is exact. -/
theorem Factors.isInt_sqrt (h : Factors a b c r s) (hA : IsInt A a) (hB : IsInt B b)
    (hC : IsInt C c) (hlt : |4 * a| < 2 ^ 1024) :
    IsInt (radicand A B C).sqrt |a * (r - s)| := by
  have hfour : IsInt 4.0 (2 ^ 2) := isInt_of_isNat (by decide)
  have hsquare : IsInt (B * B) (b ^ 2) := by
    rw [sq]
    exact hB.mul hB (by rw [← sq, abs_of_nonneg (sq_nonneg b)]; exact h.square)
  have hproduct : IsInt (4.0 * A * C) (4 * a * c) :=
    ((hfour.two_pow_mul hA).1 hlt).mul hC h.product
  have hle : |b ^ 2 - 4 * a * c| ≤ 2 ^ 53 := by
    rw [abs_of_nonneg (h.discriminant_eq ▸ sq_nonneg _)]
    exact h.discriminant
  have hradicand := hsquare.sub hproduct hle
  rw [h.discriminant_eq] at hradicand
  exact hradicand.sqrt (abs_nonneg _) (h.abs_root_le.trans (by norm_num))

/-- A quotient by twice the leading coefficient. -/
theorem isInt_quotient {x y : Float} {n : ℤ} (ha : a ≠ 0) (hx : IsInt x (n * (2 * a)))
    (hy : IsInt y (2 * a)) (hn : |n * (2 * a)| ≤ 2 ^ 28) : IsInt (x / y) n := by
  have ha' : 2 * a ≠ 0 := mul_ne_zero two_ne_zero ha
  refine hx.div hy ha' ?_
  rw [abs_mul] at hn
  nlinarith [abs_nonneg n, Int.one_le_abs ha']

/-- Both roots are exact.  The first one is the larger one if `a` is positive. -/
theorem Factors.isInt_roots (h : Factors a b c r s) (hA : IsInt A a) (hB : IsInt B b)
    (hC : IsInt C c) (hlt : |4 * a| < 2 ^ 1024) (hrs : 0 ≤ a * (r - s)) :
    IsInt (plusRoot A B C) r ∧ IsInt (minusRoot A B C) s := by
  have htwo : IsInt 2.0 (2 ^ 1) := isInt_of_isNat (by decide)
  have hroot := h.isInt_sqrt hA hB hC hlt
  have hdouble : IsInt (2.0 * A) (2 * a) := by
    refine (htwo.two_pow_mul hA).1 (lt_of_le_of_lt ?_ hlt)
    rw [abs_mul, abs_mul]
    exact mul_le_mul_of_nonneg_right (by norm_num) (abs_nonneg a)
  have hplus := abs_add_le (-b) |a * (r - s)|
  have hminus := abs_sub (-b) |a * (r - s)|
  rw [abs_neg, abs_abs] at hplus hminus
  have hle : |b| + |a * (r - s)| ≤ 2 ^ 28 := by linarith [h.abs_linear_le, h.abs_root_le]
  have hsum := hB.neg.add hroot (by linarith)
  have hdifference := hB.neg.sub hroot (by linarith)
  have hr : -b + |a * (r - s)| = r * (2 * a) := by
    rw [abs_of_nonneg hrs, h.linear]
    ring
  have hs : -b - |a * (r - s)| = s * (2 * a) := by
    rw [abs_of_nonneg hrs, h.linear]
    ring
  rw [hr] at hsum hplus
  rw [hs] at hdifference hminus
  exact ⟨isInt_quotient h.lead hsum hdouble (hplus.trans hle),
    isInt_quotient h.lead hdifference hdouble (hminus.trans hle)⟩

/-- Both roots in order, after snapping. -/
theorem Factors.isInt_ordered (h : Factors a b c r s) (hA : IsInt A a) (hB : IsInt B b)
    (hC : IsInt C c) (hlt : |4 * a| < 2 ^ 1024) (policy : SnapPolicy) :
    (0 < a → IsInt (policy.snap (plusRoot A B C)) (max r s) ∧
      IsInt (policy.snap (minusRoot A B C)) (min r s)) ∧
    (a < 0 → IsInt (policy.snap (plusRoot A B C)) (min r s) ∧
      IsInt (policy.snap (minusRoot A B C)) (max r s)) := by
  have hexact {u v : ℤ} (huv : Factors a b c u v) (hle : 0 ≤ a * (u - v)) :
      IsInt (policy.snap (plusRoot A B C)) u ∧ IsInt (policy.snap (minusRoot A B C)) v := by
    obtain ⟨hplus, hminus⟩ := huv.isInt_roots hA hB hC hlt hle
    rw [hplus.snap, hminus.snap]
    exact ⟨hplus, hminus⟩
  constructor
  · intro ha
    rcases le_total s r with hle | hle
    · rw [max_eq_left hle, min_eq_right hle]
      exact hexact h (mul_nonneg ha.le (sub_nonneg.2 hle))
    · rw [max_eq_right hle, min_eq_left hle]
      exact hexact h.symm (mul_nonneg ha.le (sub_nonneg.2 hle))
  · intro ha
    rcases le_total s r with hle | hle
    · rw [max_eq_left hle, min_eq_right hle]
      exact hexact h.symm (mul_nonneg_of_nonpos_of_nonpos ha.le (sub_nonpos.2 hle))
    · rw [max_eq_right hle, min_eq_left hle]
      exact hexact h (mul_nonneg_of_nonpos_of_nonpos ha.le (sub_nonpos.2 hle))

/-- If four times the leading coefficient overflows, an infinity is multiplied with the constant
coefficient, which is zero. -/
theorem Factors.isNaN_roots (h : Factors a b c r s) (hA : IsInt A a) (hC : IsInt C c)
    (hle : 2 ^ 1024 ≤ |4 * a|) :
    r = 0 ∧ s = 0 ∧ (plusRoot A B C).isNaN = true ∧ (minusRoot A B C).isNaN = true := by
  have hfour : IsInt 4.0 (2 ^ 2) := isInt_of_isNat (by decide)
  have ha : 2 ^ 27 < |a| := by
    have hlarge : 2 ^ 30 ≤ |4 * a| := (pow_le_pow_right₀ one_le_two (by norm_num)).trans hle
    rw [abs_mul] at hlarge
    norm_num at hlarge ⊢
    linarith
  obtain ⟨rfl, rfl⟩ := h.eq_zero ha
  have hzero : (C == 0.0) = true := hC.beq_zero.2 (by rw [h.constant, mul_zero])
  have hproduct : (4.0 * A * C).isNaN = true :=
    isNaN_mul_iff.2 (Or.inr (Or.inr (Or.inl ⟨(hfour.two_pow_mul hA).2 hle, hzero⟩)))
  have hroot : (radicand A B C).sqrt.isNaN = true :=
    isNaN_sqrt_iff.2 (Or.inl (isNaN_sub_right _ hproduct))
  exact ⟨rfl, rfl, isNaN_div_left (isNaN_add_right _ hroot) _,
    isNaN_div_left (isNaN_sub_right _ hroot) _⟩

end ClosedForm

/-! ## The search -/

namespace RootFinder

variable {a b c r s : ℤ} {A B C : Float} {p : Poly} {ts : List Term}

/-- The solver is exact for integral quadratic polynomials with integral roots, however their terms
were appended and whatever the snap policy is: the first root is the larger one if the leading
coefficient is positive, and the smaller one if it is negative.  If four times the leading
coefficient overflows, both roots are zero, but what is computed is not a number. -/
theorem roots_integral (h : Factors a b c r s) (hA : IsInt A a) (hB : IsInt B b) (hC : IsInt C c)
    (hp : p.Represents ts)
    (hts : (Term.nonzero ts).Perm (Term.nonzero [⟨A, 2⟩, ⟨B, 1⟩, ⟨C, 0⟩])) (finder : RootFinder) :
    ∃ x y, finder.roots p = .ok [x, y] ∧
      (|4 * a| < 2 ^ 1024 →
        (0 < a → IsInt x (max r s) ∧ IsInt y (min r s)) ∧
        (a < 0 → IsInt x (min r s) ∧ IsInt y (max r s))) ∧
      (2 ^ 1024 ≤ |4 * a| → r = 0 ∧ s = 0 ∧ x.isNaN = true ∧ y.isNaN = true) := by
  have hdescending : StrictlyDescending [⟨A, 2⟩, ⟨B, 1⟩, ⟨C, 0⟩] := by
    simp [StrictlyDescending]
  have hterms := hp.terms_eq_of_perm hdescending hts
  have hread {t : Term} (ht : t ∈ [⟨A, 2⟩, ⟨B, 1⟩, ⟨C, 0⟩]) :=
    hp.valid.agree_coefficient hdescending hterms ht
  have hA' : IsInt (p.coefficient 2) a := (hread (t := ⟨A, 2⟩) (by simp)).isInt hA
  have hB' : IsInt (p.coefficient 1) b := (hread (t := ⟨B, 1⟩) (by simp)).isInt hB
  have hC' : IsInt (p.coefficient 0) c := (hread (t := ⟨C, 0⟩) (by simp)).isInt hC
  have hlead : p.leadingTerm? = some ⟨A, 2⟩ := by
    have hz : Term.isZero ⟨A, 2⟩ = false := by
      rw [← Bool.not_eq_true]
      exact fun hz => h.lead (hA.beq_zero.1 hz)
    rw [Poly.leadingTerm?, hterms]
    simp [Term.nonzero, hz]
  have hdegree : p.degree.toInt = 2 := by
    rw [Poly.degree_eq_of_leadingTerm hlead]
    rfl
  have hroots := roots_of_degree_two hdegree finder
  rw [solveQuadratic_eq] at hroots
  have hordered := h.isInt_ordered hA' hB' hC'
  refine ⟨_, _, hroots, fun hlt => hordered hlt finder.policy, fun hle => ?_⟩
  obtain ⟨hr, hs, hplus, hminus⟩ := h.isNaN_roots (B := p.coefficient 1) hA' hC' hle
  refine ⟨hr, hs, ?_, ?_⟩
  · rwa [isNaN_snap]
  · rwa [isNaN_snap]

/-- `-2 * x ^ 2 + 10 * x`, stored in reverse and with a term that is zero, has the roots `0` and
`5`.  For `2 ^ 1022 * x ^ 2` nothing is a number, although it has the root `0` twice. -/
theorem roots_integral_overflow :
    let finder : RootFinder := ⟨Newton.standard.refine, .standard, .system⟩
    let p := Poly.ofTerms [⟨0.0, 0⟩, ⟨10.0, 1⟩, ⟨-2.0, 2⟩]
    let q := Poly.ofTerms [⟨Float.ofInt (2 ^ 1022), 2⟩]
    (∃ x y, finder.roots p = .ok [x, y] ∧ IsInt x 0 ∧ IsInt y 5) ∧
    ∃ x y, finder.roots q = .ok [x, y] ∧ x.isNaN = true ∧ y.isNaN = true := by
  intro finder p q
  have hzero : IsInt 0.0 0 := isInt_zero_of_beq (by decide)
  have htwo : IsInt 2.0 2 := isInt_of_isNat (by decide)
  have hten : IsInt 10.0 10 := isInt_of_isNat (by decide)
  have hlarge : IsInt (Float.ofInt (2 ^ 1022)) (2 ^ 1022) := by
    exact_mod_cast isInt_of_isNat (k := 2 ^ 1022) (by decide +kernel)
  have hsmall : |4 * -2| < (2 : ℤ) ^ 1024 := by
    calc |4 * -2| = (2 : ℤ) ^ 3 := by decide
      _ < 2 ^ 1024 := pow_lt_pow_right₀ one_lt_two (by norm_num)
  have hoverflow : (2 : ℤ) ^ 1024 ≤ |4 * 2 ^ 1022| := by
    rw [abs_of_pos (by positivity), pow_add 2 2 1022]
    exact le_rfl
  have hlead : (Term.nonzero [⟨Float.ofInt (2 ^ 1022), 2⟩]).Perm
      (Term.nonzero ([⟨Float.ofInt (2 ^ 1022), 2⟩] ++ [⟨0.0, 1⟩, ⟨0.0, 0⟩])) := by
    rw [nonzero_append]
    exact List.Perm.of_eq (List.append_nil _).symm
  have hfactors : Factors (2 ^ 1022) 0 0 0 0 := factors_zero (pow_ne_zero _ two_ne_zero)
  have hreverse : (Term.nonzero [⟨0.0, 0⟩, ⟨10.0, 1⟩, ⟨-2.0, 2⟩]).Perm
      (Term.nonzero [⟨-2.0, 2⟩, ⟨10.0, 1⟩, ⟨0.0, 0⟩]) :=
    (List.reverse_perm ([⟨-2.0, 2⟩, ⟨10.0, 1⟩, ⟨0.0, 0⟩] : List Term)).filter _
  obtain ⟨x, y, hxy, hexact, -⟩ := roots_integral (a := -2) (b := 10) (c := 0) (r := 0) (s := 5)
    ⟨by decide, by decide, by decide, by decide, by decide, by decide⟩ htwo.neg hten hzero
    (Poly.represents_ofTerms [⟨0.0, 0⟩, ⟨10.0, 1⟩, ⟨-2.0, 2⟩]) hreverse finder
  obtain ⟨v, w, hvw, -, hnan⟩ := roots_integral hfactors hlarge hzero hzero
    (Poly.represents_ofTerms [⟨Float.ofInt (2 ^ 1022), 2⟩]) hlead finder
  exact ⟨⟨x, y, hxy, (hexact hsmall).2 (by decide)⟩, v, w, hvw, (hnan hoverflow).2.2⟩

end RootFinder

end SparsePoly
