import Mathlib
import SparsePoly.Proofs.Calculus.EndBehavior
import SparsePoly.Proofs.Calculus.Opposite

/-!
# Symmetric graphs

A polynomial whose exponents are all even has the same value at opposite doubles
(`eval_neg_of_isEven`), and one whose exponents are all odd has opposite values, up to the sign of
zero (`agree_eval_neg_of_isOdd`).  Over the real numbers nothing else is symmetric, because a
polynomial that vanishes everywhere has no terms (`eq_nil_of_realValue_eq_zero`).
-/

open Filter Bornology SparsePoly.Binary64

namespace SparsePoly

/-! ## Terms -/

namespace Term

variable {t : Term} {ts : List Term}

theorem eval_neg_of_even (x : Float) (h : Even t.exponent.toInt) : t.eval (-x) = t.eval x := by
  rw [eval, eval, pow_neg_of_even x h]

theorem eval_neg_of_odd (x : Float) (h : Odd t.exponent.toInt) : t.eval (-x) = -t.eval x := by
  rw [eval, eval, pow_neg_of_odd x h, mul_neg]

/-- The terms with even exponents keep their values, and those with odd exponents change sign. -/
theorem realValue_parity (ts : List Term) (x : ℝ) :
    realValue ts x = realValue (ts.filter fun t => Even t.exponent.toInt) x +
      realValue (ts.filter fun t => Odd t.exponent.toInt) x ∧
    realValue ts (-x) = realValue (ts.filter fun t => Even t.exponent.toInt) x -
      realValue (ts.filter fun t => Odd t.exponent.toInt) x := by
  induction ts with
  | nil => simp
  | cons t ts ih =>
    rw [realValue_cons, realValue_cons, ih.1, ih.2]
    rcases Int.even_or_odd t.exponent.toInt with h | h
    · rw [List.filter_cons_of_pos (by simpa using h), List.filter_cons_of_neg (by simpa using h),
        realValue_cons, h.neg_zpow]
      constructor <;> ring
    · rw [List.filter_cons_of_neg (by simpa using h), List.filter_cons_of_pos (by simpa using h),
        realValue_cons, h.neg_zpow]
      constructor <;> ring

/-- Distinct powers are independent. -/
theorem eq_nil_of_realValue_eq_zero (h : StrictlyDescending ts)
    (hne : ∀ t ∈ ts, toRat t.coefficient ≠ 0) (hzero : ∀ x : ℝ, x ≠ 0 → realValue ts x = 0) :
    ts = [] := by
  cases ts with
  | nil => rfl
  | cons t ts =>
    have ht := hne t List.mem_cons_self
    obtain ⟨x, hsign, hx⟩ := ((eventually_sign_realValue h ht).and
      (eventually_ne_cobounded (0 : ℝ))).exists
    rw [hzero x hx, sign_zero, eq_comm, sign_eq_zero_iff] at hsign
    exact absurd hsign (mul_ne_zero (by exact_mod_cast ht) (zpow_ne_zero _ hx))

end Term

open Term

/-! ## Polynomials -/

namespace Poly

variable {p : Poly}

theorem isEven_iff : p.isEven = true ↔ ∀ t ∈ p.terms, Even t.exponent.toInt := by
  simp only [isEven, List.all_eq_true, beq_iff_eq, Int.even_iff]

theorem isOdd_iff : p.isOdd = true ↔ ∀ t ∈ p.terms, Odd t.exponent.toInt := by
  simp only [isOdd, List.all_eq_true, bne_iff_ne, ← Int.not_even_iff_odd, Int.even_iff]

theorem eval_neg_of_isEven (h : p.isEven = true) (x : Float) : p.eval (-x) = p.eval x :=
  congrArg sum (List.map_congr_left fun t ht => eval_neg_of_even x (isEven_iff.1 h t ht))

theorem agree_eval_neg_of_isOdd (h : p.isOdd = true) (x : Float) :
    Agree (p.eval (-x)) (-p.eval x) := by
  refine agree_neg_sum ?_
  rw [List.forall₂_map_left_iff, List.forall₂_map_right_iff]
  exact List.forall₂_same.2 fun t ht => .inl (eval_neg_of_odd x (isOdd_iff.1 h t ht))

/-- Some terms of a polynomial vanish together only if there are none. -/
theorem Valid.forall_not_iff_realValue (hp : p.Valid)
    (hf : ∀ t ∈ p.terms, t.coefficient.isFinite = true) (r : Term → Prop) [DecidablePred r] :
    (∀ t ∈ p.terms, ¬ r t) ↔
      ∀ x : ℝ, x ≠ 0 → Term.realValue (p.terms.filter fun t => r t) x = 0 := by
  have hnil : p.terms.filter (fun t => r t) = [] ↔ ∀ t ∈ p.terms, ¬ r t := by simp
  rw [← hnil]
  constructor
  · intro h x _
    rw [h, realValue_nil]
  · refine eq_nil_of_realValue_eq_zero (hp.strictlyDescending.filter _) fun t ht => ?_
    have ht := List.mem_of_mem_filter ht
    exact toRat_ne_zero (hf t ht) (hp.isZero_eq_false t ht)

theorem Valid.isEven_iff_realValue (hp : p.Valid)
    (hf : ∀ t ∈ p.terms, t.coefficient.isFinite = true) :
    p.isEven = true ↔ ∀ x : ℝ, x ≠ 0 → p.realValue (-x) = p.realValue x := by
  simp only [isEven_iff, ← Int.not_odd_iff_even]
  rw [hp.forall_not_iff_realValue hf]
  refine forall₂_congr fun x _ => ?_
  obtain ⟨hx, hneg⟩ := realValue_parity p.terms x
  rw [realValue, realValue, hx, hneg, sub_eq_iff_eq_add, add_assoc, left_eq_add,
    add_self_eq_zero]

theorem Valid.isOdd_iff_realValue (hp : p.Valid)
    (hf : ∀ t ∈ p.terms, t.coefficient.isFinite = true) :
    p.isOdd = true ↔ ∀ x : ℝ, x ≠ 0 → p.realValue (-x) = -p.realValue x := by
  simp only [isOdd_iff, ← Int.not_even_iff_odd]
  rw [hp.forall_not_iff_realValue hf]
  refine forall₂_congr fun x _ => ?_
  obtain ⟨hx, hneg⟩ := realValue_parity p.terms x
  rw [realValue, realValue, hx, hneg, neg_add', sub_left_inj, self_eq_neg]

/-- Even exponents give the same value at opposite doubles, and odd ones opposite values, without
any difference in rounding.  Conversely the exponents of a polynomial that is symmetric over the
real numbers are even or odd. -/
theorem eval_neg_symmetric (p : Poly) :
    (p.isEven = true → ∀ x : Float, p.eval (-x) = p.eval x) ∧
    (p.isOdd = true → ∀ x : Float, Agree (p.eval (-x)) (-p.eval x)) ∧
    (p.Valid → (∀ t ∈ p.terms, t.coefficient.isFinite = true) →
      (p.isEven = true ↔ ∀ x : ℝ, x ≠ 0 → p.realValue (-x) = p.realValue x) ∧
      (p.isOdd = true ↔ ∀ x : ℝ, x ≠ 0 → p.realValue (-x) = -p.realValue x)) :=
  ⟨eval_neg_of_isEven, agree_eval_neg_of_isOdd, fun hp hf =>
    ⟨hp.isEven_iff_realValue hf, hp.isOdd_iff_realValue hf⟩⟩

/-- An even polynomial with an infinite coefficient, an odd one with a pole, and one that is
neither. -/
theorem eval_neg_symmetric_poles :
    let even := ofTerms [⟨3.0, 2⟩, ⟨1.0 / 0.0, -2⟩]
    let odd := ofTerms [⟨1.0, 3⟩, ⟨-5.0, -1⟩]
    let neither := ofTerms [⟨1.0, 2⟩, ⟨4.0, -1⟩]
    (∀ x : Float, even.eval (-x) = even.eval x) ∧
    (∀ x : Float, Agree (odd.eval (-x)) (-odd.eval x)) ∧
    (∃ x : ℝ, x ≠ 0 ∧ neither.realValue (-x) ≠ neither.realValue x) ∧
    ∃ x : ℝ, x ≠ 0 ∧ neither.realValue (-x) ≠ -neither.realValue x := by
  intro even odd neither
  obtain ⟨heven, hodd⟩ := (eval_neg_symmetric neither).2.2 (valid_ofTerms _) (by decide)
  refine ⟨(eval_neg_symmetric even).1 (by decide), (eval_neg_symmetric odd).2.1 (by decide),
    ?_, ?_⟩
  · by_contra! h
    exact absurd (heven.2 h) (by decide)
  · by_contra! h
    exact absurd (hodd.2 h) (by decide)

end Poly

end SparsePoly
