import Mathlib
import SparsePoly.Proofs.Binary64.Bounds
import SparsePoly.Proofs.Calculus.Antiderivative
import SparsePoly.Proofs.Calculus.Homomorphism

/-!
# The fundamental theorem of calculus

Integration gives back what differentiation leaves of an integral polynomial, all but the constant
term (`Reads.exists_primitive`), and the difference of two values does not depend on a constant.  So
the integral of the derivative is the difference of the values of the polynomial
(`definiteIntegral_derivative`): the two differences round the same number, even where they are too
large to be exact.
-/

open Polynomial SparsePoly.Binary64 SparsePoly.Laurent
open scoped LaurentPolynomial

namespace SparsePoly

/-! ## Without the constant -/

section

variable {f : ℤ[X]} {a : ℤ}

theorem eval_erase_zero (f : ℤ[X]) (a : ℤ) : (f.erase 0).eval a = f.eval a - f.coeff 0 := by
  have h := congrArg (Polynomial.eval a) (f.monomial_add_erase 0)
  rw [eval_add, eval_monomial, pow_zero, mul_one] at h
  rw [← h, add_sub_cancel_left]

theorem coeff_toLaurent_erase_zero (f : ℤ[X]) (n : ℤ) :
    (toLaurent (f.erase 0)).coeff n = if n = 0 then 0 else (toLaurent f).coeff n := by
  rcases lt_or_ge n 0 with hn | hn
  · have hzero (g : ℤ[X]) : (toLaurent g).coeff n = 0 := by
      by_contra h
      exact absurd (nonneg_of_coeff_toLaurent_ne_zero h) (not_le.2 hn)
    rw [hzero, hzero, ite_self]
  · lift n to ℕ using hn
    rw [coeff_toLaurent, coeff_toLaurent, coeff_erase]
    simp only [Nat.cast_eq_zero]

/-- What a value forms without the constant, it forms with it. -/
theorem EvalExact.erase_zero (h : EvalExact f a) : EvalExact (f.erase 0) a where
  powers n hn := by
    rw [coeff_erase] at hn
    split_ifs at hn
    · exact absurd rfl hn
    · exact h.powers n hn
  products n := by
    rw [coeff_erase]
    split_ifs
    · simp
    · exact h.products n
  sums k := by
    have hsupport : (f.erase 0).support.filter (k ≤ ·) = f.support.filter (max k 1 ≤ ·) := by
      ext n
      simp only [support_erase, Finset.mem_filter, Finset.mem_erase, max_le_iff,
        Nat.one_le_iff_ne_zero]
      tauto
    rw [hsupport]
    refine le_of_eq_of_le (congrArg _ (Finset.sum_congr rfl fun n hn => ?_)) (h.sums (max k 1))
    have hn₁ := (max_le_iff.1 (Finset.mem_filter.1 hn).2).2
    rw [coeff_erase, if_neg (by omega)]

end

open Term

namespace Term

theorem coeff_laurent_filter (ts : List Term) (n : ℤ) :
    (laurent (ts.filter (·.exponent ≠ 0))).coeff n = if n = 0 then 0 else (laurent ts).coeff n := by
  induction ts with
  | nil => simp
  | cons t ts ih =>
    have hzero : t.exponent = 0 ↔ t.exponent.toInt = 0 := Int32.toInt_inj.symm
    rw [laurent_cons, AddMonoidAlgebra.coeff_add, Finsupp.add_apply, coeff_monomial]
    by_cases ht : t.exponent = 0
    · rw [List.filter_cons_of_neg (by simpa using ht), ih, hzero.1 ht]
      split_ifs <;> simp_all
    · rw [List.filter_cons_of_pos (by simpa using ht), laurent_cons, AddMonoidAlgebra.coeff_add,
        Finsupp.add_apply, coeff_monomial, ih]
      have := mt hzero.2 ht
      split_ifs <;> simp_all

end Term

namespace Poly

variable {p q : Poly} {f : ℤ[X]} {x y : Float} {a b : ℤ}

/-! ## The primitive of the derivative -/

/-- Integration gives back the derived polynomial without its constant. -/
theorem Reads.exists_primitive (h : p.Reads (toLaurent f))
    (hc : ∀ n : ℕ, |f.coeff n * n| ≤ 2 ^ 53) :
    ∃ d q, p.derivative = .ok d ∧ d.antiderivative = .ok q ∧
      q.Reads (toLaurent (f.erase 0)) := by
  have hproducts : ∀ t ∈ p.terms, |toInt t.coefficient * t.exponent.toInt| ≤ 2 ^ 53 := by
    intro t ht
    have := hc t.exponent.toInt.toNat
    rwa [h.coeff_toNat ht, Int.toNat_of_nonneg (h.nonneg_exponent ht)] at this
  obtain ⟨d, q, hd, hq, hvalid, hterms⟩ := exists_antiderivative_derivative h.valid h.integral
    (h.lowers (derivativeExact_toLaurent hc)) hproducts
  refine ⟨d, q, hd, hq, hvalid, fun t ht => ?_, ?_⟩
  · rw [hterms] at ht
    exact h.integral t (List.mem_of_mem_filter ht)
  · ext n
    rw [laurent, hterms, coeff_laurent_filter, h.laurent_terms, coeff_toLaurent_erase_zero]

/-- The difference of two values does not depend on the constant. -/
theorem Reads.toRat_eval_sub (h : q.Reads (toLaurent (f.erase 0))) (hx : IsInt x a)
    (hy : IsInt y b) (ha : EvalExact f a) (hb : EvalExact f b) :
    (q.eval y - q.eval x).isFinite = true ∧
      toRat (q.eval y - q.eval x) = Binary64.rounded (f.eval b - f.eval a : ℤ) := by
  have hsub := (h.isInt_eval hy hb.erase_zero).toRat_sub (h.isInt_eval hx ha.erase_zero)
    hb.erase_zero.abs_eval_le ha.erase_zero.abs_eval_le
  rwa [eval_erase_zero, eval_erase_zero, sub_sub_sub_cancel_right] at hsub

theorem definiteIntegral_eq (h : p.antiderivative = .ok q) (x y : Float) :
    p.definiteIntegral x y = .ok (q.eval y - q.eval x) := by
  rw [definiteIntegral, h]
  rfl

/-! ## The theorem -/

/-- The integral of the derivative is the difference of the values, and the integrals over two
neighboring intervals add up to the integral over both. -/
theorem definiteIntegral_derivative (hp : p.Valid) (hi : p.Integral)
    (hn : ∀ t ∈ p.terms, 0 ≤ t.exponent) (hc : ∀ n : ℕ, |p.polynomial.coeff n * n| ≤ 2 ^ 53) :
    ∃ d, p.derivative = .ok d ∧ ∀ (x y : Float) (a b : ℤ), IsInt x a → IsInt y b →
      EvalExact p.polynomial a → EvalExact p.polynomial b →
      ∃ i, d.definiteIntegral x y = .ok i ∧ (i == p.eval y - p.eval x) = true ∧
        (|p.polynomial.eval b - p.polynomial.eval a| ≤ 2 ^ 53 →
          IsInt i (p.polynomial.eval b - p.polynomial.eval a) ∧
          ∀ (z : Float) (c : ℤ), IsInt z c → EvalExact p.polynomial c →
            |p.polynomial.eval c - p.polynomial.eval b| ≤ 2 ^ 53 →
            ∃ j k, d.definiteIntegral y z = .ok j ∧ d.definiteIntegral x z = .ok k ∧
              (i + j == k) = true) := by
  have hread := reads_polynomial hp hi hn
  obtain ⟨d, q, hd, hq, hprimitive⟩ := hread.exists_primitive hc
  have exact_of_le {x y : Float} {a b : ℤ} (hx : IsInt x a) (hy : IsInt y b)
      (ha : EvalExact p.polynomial a) (hb : EvalExact p.polynomial b)
      (h : |p.polynomial.eval b - p.polynomial.eval a| ≤ 2 ^ 53) :
      IsInt (q.eval y - q.eval x) (p.polynomial.eval b - p.polynomial.eval a) := by
    obtain ⟨hf, hv⟩ := hprimitive.toRat_eval_sub hx hy ha hb
    exact ⟨hf, hv.trans (rounded_intCast h)⟩
  refine ⟨d, hd, fun x y a b hx hy ha hb => ⟨_, definiteIntegral_eq hq x y, ?_, fun hab => ?_⟩⟩
  · obtain ⟨hf, hv⟩ := hprimitive.toRat_eval_sub hx hy ha hb
    obtain ⟨hf', hv'⟩ := (hread.isInt_eval hy hb).toRat_sub (hread.isInt_eval hx ha)
      hb.abs_eval_le ha.abs_eval_le
    exact (beq_iff_toRat hf hf').2 (hv.trans hv'.symm)
  · have hi := exact_of_le hx hy ha hb hab
    refine ⟨hi, fun z c hz hc hbc => ⟨_, _, definiteIntegral_eq hq y z,
      definiteIntegral_eq hq x z, ?_⟩⟩
    have hj := exact_of_le hy hz hb hc hbc
    obtain ⟨hf, hv⟩ := hi.toRat_add hj hab hbc
    obtain ⟨hf', hv'⟩ := hprimitive.toRat_eval_sub hx hz ha hc
    refine (beq_iff_toRat hf hf').2 (hv.trans (Eq.trans ?_ hv'.symm))
    rw [sub_add_sub_cancel']

/-- The derivative of `2 x ^ 3 - 4 x + 7` from `-2` to `3`, from `3` back to `1` and from `-2`
to `1`. -/
theorem definiteIntegral_derivative_cubic :
    let p := ofTerms [⟨2.0, 3⟩, ⟨-4.0, 1⟩, ⟨7.0, 0⟩]
    ∃ d i j k, p.derivative = .ok d ∧ d.definiteIntegral (-2.0) 3.0 = .ok i ∧
      d.definiteIntegral 3.0 1.0 = .ok j ∧ d.definiteIntegral (-2.0) 1.0 = .ok k ∧
      (i == p.eval 3.0 - p.eval (-2.0)) = true ∧ IsInt i 50 ∧ (i + j == k) = true := by
  intro p
  have one : IsInt 1.0 1 := isInt_of_isNat (by decide)
  have two : IsInt 2.0 2 := isInt_of_isNat (by decide)
  have three : IsInt 3.0 3 := isInt_of_isNat (by decide)
  have four : IsInt 4.0 4 := isInt_of_isNat (by decide)
  have seven : IsInt 7.0 7 := isInt_of_isNat (by decide)
  have hterms : p.terms = [⟨2.0, 3⟩, ⟨-4.0, 1⟩, ⟨7.0, 0⟩] := by decide
  have hi : p.Integral := by
    simp only [Poly.Integral, hterms, Term.Integral, List.forall_mem_cons, two.toInt_eq,
      four.neg.toInt_eq, seven.toInt_eq]
    exact ⟨two, four.neg, seven, by simp⟩
  have hn : ∀ t ∈ p.terms, 0 ≤ t.exponent := by
    rw [hterms]
    decide
  have hf : p.polynomial = C 2 * X ^ 3 + C (-4) * X + C 7 := by
    have h₃ : (3 : Exponent).toInt = 3 := rfl
    have h₁ : (1 : Exponent).toInt = 1 := rfl
    have h₀ : (0 : Exponent).toInt = 0 := rfl
    rw [Poly.polynomial, hterms, polynomial_cons, polynomial_cons, polynomial_cons,
      trunc_monomial (by decide), trunc_monomial (by decide), trunc_monomial (by decide),
      two.toInt_eq, four.neg.toInt_eq, seven.toInt_eq, h₃, h₁, h₀, ← C_mul_X_pow_eq_monomial,
      ← C_mul_X_pow_eq_monomial, ← C_mul_X_pow_eq_monomial, Term.polynomial, laurent_nil, map_zero]
    simp [add_assoc]
  have hexact (a : ℤ) (ha : ∑ n ∈ Finset.range 4,
      |(C 2 * X ^ 3 + C (-4) * X + C 7 : ℤ[X]).coeff n * a ^ n| ≤ 2 ^ 53) :
      EvalExact p.polynomial a := by
    rw [hf]
    exact evalExact_of_sum_le (by compute_degree!) ha
  have hsum : ∀ a ∈ [(-2 : ℤ), 3, 1], ∑ n ∈ Finset.range 4,
      |(C 2 * X ^ 3 + C (-4) * X + C 7 : ℤ[X]).coeff n * a ^ n| ≤ 2 ^ 53 := by
    simp [Finset.sum_range_succ, coeff_X]
  have hc (n : ℕ) : |p.polynomial.coeff n * n| ≤ 2 ^ 53 := by
    rw [hf]
    rcases n with _ | _ | _ | _ | n <;> simp [coeff_X]
  have heval (a : ℤ) : p.polynomial.eval a = 2 * a ^ 3 - 4 * a + 7 := by
    rw [hf]
    simp [sub_eq_add_neg]
  obtain ⟨d, hd, hint⟩ := definiteIntegral_derivative (valid_ofTerms _) hi hn hc
  obtain ⟨i, hxy, hval, hadd⟩ := hint (-2.0) 3.0 (-2) 3 two.neg three
    (hexact _ (hsum (-2) (by simp))) (hexact _ (hsum 3 (by simp)))
  rw [heval, heval] at hadd
  obtain ⟨hi₅₀, hadd⟩ := hadd (by norm_num)
  obtain ⟨j, k, hyz, hxz, hadded⟩ := hadd 1.0 1 one (hexact _ (hsum 1 (by simp)))
    (by rw [heval]; norm_num)
  exact ⟨d, i, j, k, hd, hxy, hyz, hxz, hval, hi₅₀, hadded⟩

end Poly

end SparsePoly
