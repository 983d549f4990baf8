import Mathlib
import SparsePoly.Proofs.Calculus.Derivative
import SparsePoly.Roots.Finder

/-!
# The search for roots ends

From degree five on the search goes down through the derivatives.  Each of them has the degree below
whatever the coefficients are (`Lowers.exists_derivative`), so the search reaches degree four after
as many differentiations as the degree exceeds it, every closed form is asked for the degree that
it solves, and nothing fails (`roots_total`).  `Search` is the search with its differentiations
counted.
-/

namespace SparsePoly

open Term

/-! ## Repeated differentiation -/

namespace Poly

variable {p : Poly} {k : ℕ}

/-- The polynomial can be differentiated `k` times. -/
def Lowers (p : Poly) (k : ℕ) : Prop := ∀ t ∈ p.terms, -2 ^ 31 + k ≤ t.exponent.toInt

theorem Lowers.mono {j : ℕ} (h : p.Lowers k) (hjk : j ≤ k) : p.Lowers j := by
  intro t ht
  have := h t ht
  omega

/-- One differentiation. -/
theorem Lowers.exists_derivative (h : p.Lowers (k + 1)) (hp : p.Valid) :
    ∃ q, p.derivative = .ok q ∧ q.Valid ∧ q.Lowers k ∧
      (1 ≤ p.degree.toInt → q.degree.toInt = p.degree.toInt - 1) := by
  have hterms : ∀ t ∈ p.terms, t.Lowers := by
    intro t ht
    have := h t ht
    unfold Term.Lowers
    push_cast at this
    omega
  refine ⟨_, derivative_eq_ok hterms, valid_ofTerms _, ?_, degree_derivative hp hterms⟩
  intro u hu
  obtain ⟨t, ht, hexponent⟩ := exists_of_mem_derivative hp hterms hu
  have := h t ht
  push_cast at this
  omega

theorem isZero_eq_false_of_degree (h : 1 ≤ p.degree.toInt) : p.isZero = false := by
  rw [isZero]
  cases hts : p.terms with
  | nil =>
    rw [degree, leadingTerm?, hts] at h
    exact absurd h (by decide)
  | cons t ts => rfl

/-- Each differentiation takes one off the degree, as long as the degree is above zero. -/
theorem Lowers.exists_nthDerivative : ∀ {k : ℕ} {p : Poly}, p.Lowers k → p.Valid →
    k ≤ p.degree.toInt → ∃ q, p.nthDerivative k = .ok q ∧ q.degree.toInt = p.degree.toInt - k
  | 0, p, _, _, _ => ⟨p, rfl, by simp⟩
  | k + 1, p, h, hp, hk => by
    push_cast at hk
    obtain ⟨slope, hslope, hvalid, hlowers, hdegree⟩ := h.exists_derivative hp
    have hdegree := hdegree (by omega)
    obtain ⟨q, hq, hqd⟩ := hlowers.exists_nthDerivative hvalid (by omega)
    refine ⟨q, ?_, by push_cast; omega⟩
    rw [nthDerivative, isZero_eq_false_of_degree (by omega), hslope]
    exact hq

end Poly

/-! ## The search -/

/-- The search for the roots of a polynomial with its result, and the number of differentiations on
the way.  At each level it goes by the degree of the polynomial at hand. -/
inductive Search (finder : RootFinder) : Poly → ℕ → List Float → Prop
  | none {p : Poly} (h : p.degree.toInt ≤ 0) : Search finder p 0 []
  | linear {p : Poly} {xs : List Float} (h : p.degree.toInt = 1)
      (hxs : p.linearRoots finder.policy = .ok xs) : Search finder p 0 xs
  | quadratic {p : Poly} {xs : List Float} (h : p.degree.toInt = 2)
      (hxs : p.quadraticRoots finder.policy = .ok xs) : Search finder p 0 xs
  | cubic {p : Poly} {xs : List Float} (h : p.degree.toInt = 3)
      (hxs : p.cubicRoots finder.functions finder.policy = .ok xs) : Search finder p 0 xs
  | quartic {p : Poly} {xs : List Float} (h : p.degree.toInt = 4)
      (hxs : p.quarticRoots finder.functions finder.policy = .ok xs) : Search finder p 0 xs
  /-- The critical points are found first, and then the guesses between them are refined. -/
  | descend {p slope : Poly} {n : ℕ} {critical : List Float} (h : 5 ≤ p.degree.toInt)
      (hslope : p.derivative = .ok slope) (hcritical : Search finder slope n critical) :
      Search finder p (n + 1) (finder.refineAll p slope (RootFinder.bracketGuesses critical))

namespace RootFinder

variable {p : Poly}

/-- A closed form does not fail at its own degree. -/
theorem checkDegree_bind {α : Type} {n : ℤ} (h : p.degree.toInt = n) (a : α) :
    (do ClosedForm.checkDegree p n; return a) = Except.ok a := by
  rw [ClosedForm.checkDegree, if_pos h]
  rfl

theorem roots_of_degree_two (h : p.degree.toInt = 2) (finder : RootFinder) :
    finder.roots p = .ok (finder.policy.snapAll
      (ClosedForm.solveQuadratic (p.coefficient 2) (p.coefficient 1) (p.coefficient 0))) := by
  rw [roots, h]
  exact checkDegree_bind h _

/-- The search ends with roots if the derivatives down to degree four exist. -/
theorem exists_search (finder : RootFinder) : ∀ (d : ℕ) {p : Poly}, p.Valid →
    p.degree.toInt.toNat = d → p.Lowers (d - 4) →
    ∃ xs, finder.rootsOfDegree d p = .ok xs ∧ Search finder p (d - 4) xs
  | 0, p, _, hd, _ => ⟨[], rfl, .none (by omega)⟩
  | 1, p, _, hd, _ => by
    have hdegree : p.degree.toInt = 1 := by omega
    have hxs : p.linearRoots finder.policy = .ok _ := checkDegree_bind hdegree _
    exact ⟨_, hxs, .linear hdegree hxs⟩
  | 2, p, _, hd, _ => by
    have hdegree : p.degree.toInt = 2 := by omega
    have hxs : p.quadraticRoots finder.policy = .ok _ := checkDegree_bind hdegree _
    exact ⟨_, hxs, .quadratic hdegree hxs⟩
  | 3, p, _, hd, _ => by
    have hdegree : p.degree.toInt = 3 := by omega
    have hxs : p.cubicRoots finder.functions finder.policy = .ok _ := checkDegree_bind hdegree _
    exact ⟨_, hxs, .cubic hdegree hxs⟩
  | 4, p, _, hd, _ => by
    have hdegree : p.degree.toInt = 4 := by omega
    have hxs : p.quarticRoots finder.functions finder.policy = .ok _ := checkDegree_bind hdegree _
    exact ⟨_, hxs, .quartic hdegree hxs⟩
  | d + 5, p, hp, hd, h => by
    obtain ⟨slope, hslope, hvalid, hlowers, hdegree⟩ := Poly.Lowers.exists_derivative (k := d) h hp
    have hdegree := hdegree (by omega)
    obtain ⟨critical, hroots, hsearch⟩ := finder.exists_search (d + 4) hvalid (by omega) hlowers
    refine ⟨finder.refineAll p slope (bracketGuesses critical), ?_,
      .descend (by omega) hslope hsearch⟩
    rw [rootsOfDegree, hslope]
    show (do let critical ← finder.rootsOfDegree (d + 4) slope; _) = _
    rw [hroots]
    rfl

/-- From degree five on, guesses are refined with one differentiation. -/
theorem exists_rootsFrom (finder : RootFinder) (guesses : List Float) {xs : List Float}
    (hp : p.Valid) (h : 5 ≤ p.degree.toInt → p.Lowers 1) (hroots : finder.roots p = .ok xs) :
    ∃ ys, finder.rootsFrom p guesses = .ok ys := by
  unfold rootsFrom
  split_ifs with hguesses
  · exact ⟨xs, hroots⟩
  · have hdegree : 5 ≤ p.degree.toInt := by
      simp only [Bool.or_eq_true, decide_eq_true_eq, not_or] at hguesses
      omega
    obtain ⟨slope, hslope, -⟩ := (h hdegree).exists_derivative hp
    rw [hslope]
    exact ⟨_, rfl⟩

/-- The search for roots ends and does not fail, whatever the refiner, the snap policy, the guesses
and the coefficients are.  From degree five on it reaches degree four after as many differentiations
as the degree exceeds four, with one degree less after each of them. -/
theorem roots_total (hp : p.Valid)
    (hmin : ∀ t ∈ p.terms, 0 ≤ t.exponent.toInt ∨ -2 ^ 31 + p.degree.toInt - 5 < t.exponent.toInt)
    (finder : RootFinder) :
    (∃ xs, finder.roots p = .ok xs ∧ Search finder p (p.degree.toInt - 4).toNat xs) ∧
    (∀ guesses, ∃ xs, finder.rootsFrom p guesses = .ok xs) ∧
    ∀ k : ℕ, k ≤ p.degree.toInt - 4 →
      ∃ q, p.nthDerivative k = .ok q ∧ q.degree.toInt = p.degree.toInt - k := by
  have hlowers {k : ℕ} (hk : k = 0 ∨ k ≤ p.degree.toInt - 4) : p.Lowers k := by
    intro t ht
    have hlow := t.exponent.le_toInt
    have hhigh := p.degree.toInt_lt
    rcases hmin t ht with h | h
    · omega
    · omega
  have hdepth : p.degree.toInt.toNat - 4 = (p.degree.toInt - 4).toNat := by omega
  obtain ⟨xs, hroots, hsearch⟩ := finder.exists_search _ hp rfl (hlowers (by omega))
  rw [hdepth] at hsearch
  refine ⟨⟨xs, hroots, hsearch⟩, fun guesses => ?_, fun k hk => ?_⟩
  · exact finder.exists_rootsFrom guesses hp (fun hd => hlowers (by omega)) hroots
  · exact (hlowers (Or.inr hk)).exists_nthDerivative hp (by omega)

/-- The roots of `x ^ 5 + ∞`, of which the derivative has a NaN at `x ^ -1`. -/
theorem roots_total_infinity :
    let p := Poly.ofTerms [⟨1.0, 5⟩, ⟨Binary64.infinity, 0⟩]
    let finder : RootFinder := ⟨Newton.standard.refine, .standard, .system⟩
    (∃ xs, finder.roots p = .ok xs ∧ Search finder p 1 xs) ∧
    (∀ guesses, ∃ xs, finder.rootsFrom p guesses = .ok xs) ∧
    ∃ q, p.nthDerivative 1 = .ok q ∧ q.degree.toInt = 4 := by
  intro p finder
  have hdegree : p.degree.toInt = 5 := by decide
  obtain ⟨hroots, hguesses, hderivative⟩ := roots_total (Poly.valid_ofTerms _)
    (p := p) (by decide) finder
  rw [hdegree] at hroots hderivative
  exact ⟨hroots, hguesses, hderivative 1 (by decide)⟩

end RootFinder

end SparsePoly
