import Mathlib
import SparsePoly.Proofs.Roots.Descent

/-!
# The number of roots

No more roots are found than the degree allows.  The closed forms give at most as many as their
degree, and from degree five on each guess leads to at most one root (`length_refineAll_le`).  The
guesses are at most one more than the critical points (`length_bracketGuesses_le`), and these are
the roots of a polynomial of the degree below.  The search may stop without a result only where an
exponent overflows (`length_roots_le`).
-/

namespace SparsePoly

/-- An exponent left its range on the way. -/
def Overflows {α : Type} (x : Except Error α) : Prop :=
  ∃ operation, x = .error (.exponentOverflow operation)

/-- The computation gives at most `n` numbers, unless an exponent overflows. -/
def AtMost (n : ℤ) (x : Except Error (List Float)) : Prop :=
  ¬ Overflows x → ∃ xs, x = .ok xs ∧ xs.length ≤ n

variable {x : Except Error (List Float)} {xs : List Float} {m n : ℤ}

theorem atMost_ok (h : xs.length ≤ n) : AtMost n (.ok xs) := fun _ => ⟨xs, rfl, h⟩

theorem atMost_of_overflow {operation : Overflow} (h : x = .error (.exponentOverflow operation)) :
    AtMost n x := fun hx => absurd ⟨operation, h⟩ hx

theorem not_overflows_of_ok (h : x = .ok xs) : ¬ Overflows x := by
  rintro ⟨operation, ho⟩
  rw [h] at ho
  cases ho

/-- What is computed from at most `m` numbers. -/
theorem AtMost.bind {f : List Float → List Float} (h : AtMost m x)
    (hf : ∀ xs : List Float, xs.length ≤ m → (f xs).length ≤ n) :
    AtMost n (do return f (← x)) := by
  cases x with
  | ok xs =>
    obtain ⟨ys, hys, hlen⟩ := h (not_overflows_of_ok rfl)
    obtain rfl := Except.ok.inj hys
    exact atMost_ok (hf xs hlen)
  | error e =>
    intro hx
    obtain ⟨ys, hys, -⟩ := h fun ⟨operation, ho⟩ => hx ⟨operation, by rw [ho]; rfl⟩
    cases hys

/-! ## Closed forms -/

namespace ClosedForm

theorem length_snapAll (policy : SnapPolicy) (xs : List Float) :
    (policy.snapAll xs).length = xs.length := List.length_map ..

/-- A cubic polynomial has one root or three. -/
theorem length_solveCubic_le (fn : Elementary) (a b c d : Float) :
    (solveCubic fn a b c d).length ≤ 3 := by
  unfold solveCubic
  simp only
  split_ifs <;> simp

/-- A quartic polynomial has four roots or none. -/
theorem length_solveQuartic_le (fn : Elementary) (policy : SnapPolicy) (b c d e : Float) :
    (solveQuartic fn policy b c d e).length ≤ 4 := by
  unfold solveQuartic
  simp only
  split <;> simp

end ClosedForm

namespace RootFinder

open ClosedForm

variable {p : Poly}

/-! ## Refined roots -/

theorem length_addDistinct_le (epsilon : Float) (found : List Float) (root : Float) :
    (addDistinct epsilon found root).length ≤ found.length + 1 := by
  unfold addDistinct
  split_ifs <;> simp

/-- A loop that adds at most one number for each guess. -/
theorem length_foldl_le {step : List Float → Float → List Float}
    (h : ∀ found guess, (step found guess).length ≤ found.length + 1) (guesses : List Float) :
    ∀ found, (guesses.foldl step found).length ≤ found.length + guesses.length := by
  induction guesses with
  | nil => exact fun found => le_rfl
  | cons guess guesses ih =>
    intro found
    have hstep := h found guess
    have hrest := ih (step found guess)
    rw [List.foldl_cons, List.length_cons]
    omega

/-- Each guess leads to at most one root. -/
theorem length_refineAll_le (finder : RootFinder) (p slope : Poly) (guesses : List Float) :
    (finder.refineAll p slope guesses).length ≤ guesses.length := by
  refine (length_foldl_le (fun found guess => ?_) guesses []).trans_eq (Nat.zero_add _)
  split
  · exact length_addDistinct_le _ _ _
  · exact Nat.le_succ _

theorem length_midpoints : ∀ xs : List Float, (midpoints xs).length = xs.length - 1
  | [] => rfl
  | [_] => rfl
  | _ :: b :: rest => by
    rw [midpoints, List.length_cons, length_midpoints (b :: rest)]
    rfl

/-- There is at most one guess more than critical points, and at least one. -/
theorem length_bracketGuesses_le (critical : List Float) :
    (bracketGuesses critical).length ≤ critical.length + 1 := by
  have hpoints : (Binary64.sorted (critical.filter Float.isFinite)).length ≤ critical.length := by
    rw [Binary64.sorted, List.length_mergeSort]
    exact List.length_filter_le _ _
  unfold bracketGuesses
  simp only
  generalize Binary64.sorted (critical.filter Float.isFinite) = points at hpoints ⊢
  cases points with
  | nil => simp
  | cons a rest =>
    rw [List.head?_cons, List.getLast?_cons]
    simp only [List.length_cons, List.length_append, List.length_nil, length_midpoints]
    simp only [List.length_cons] at hpoints
    omega

/-! ## The search -/

/-- A closed form gives as many roots as the formula, at its own degree. -/
theorem atMost_closedForm {d : ℤ} (hd : p.degree.toInt = d) (policy : SnapPolicy)
    (h : xs.length ≤ n) : AtMost n (do checkDegree p d; return policy.snapAll xs) := by
  rw [checkDegree_bind hd]
  exact atMost_ok (by rwa [length_snapAll])

theorem atMost_rootsOfDegree (finder : RootFinder) : ∀ (d : ℕ) {p : Poly}, p.Valid →
    p.degree.toInt.toNat = d → AtMost d (finder.rootsOfDegree d p)
  | 0, p, _, _ => atMost_ok (by simp)
  | 1, p, _, hd => atMost_closedForm (by omega) finder.policy le_rfl
  | 2, p, _, hd => atMost_closedForm (by omega) finder.policy le_rfl
  | 3, p, _, hd =>
    atMost_closedForm (by omega) finder.policy (by exact_mod_cast length_solveCubic_le ..)
  | 4, p, _, hd =>
    atMost_closedForm (by omega) finder.policy (by exact_mod_cast length_solveQuartic_le ..)
  | d + 5, p, hp, hd => by
    rw [rootsOfDegree]
    rcases p.derivative_cases with ⟨hlowers, hslope⟩ | hslope
    · have hdegree := Poly.degree_derivative hp hlowers (by omega)
      have ih := finder.atMost_rootsOfDegree (d + 4)
        (p := Poly.ofTerms (p.terms.map Term.derived)) (Poly.valid_ofTerms _) (by omega)
      rw [hslope]
      refine ih.bind fun critical hcritical => ?_
      have hrefine := finder.length_refineAll_le p (Poly.ofTerms (p.terms.map Term.derived))
        (bracketGuesses critical)
      have hguesses := length_bracketGuesses_le critical
      push_cast at hcritical ⊢
      omega
    · exact atMost_of_overflow (by rw [hslope]; rfl)

theorem atMost_roots (hp : p.Valid) (finder : RootFinder) :
    AtMost (max p.degree.toInt 0) (finder.roots p) := by
  rw [← Int.toNat_eq_max]
  exact finder.atMost_rootsOfDegree _ hp rfl

theorem atMost_criticalPoints (hp : p.Valid) (finder : RootFinder) (hd : 1 ≤ p.degree.toInt) :
    AtMost (max (p.degree.toInt - 1) 0) (finder.criticalPoints p) := by
  rw [criticalPoints]
  rcases p.derivative_cases with ⟨hlowers, hslope⟩ | hslope
  · rw [hslope, ← Poly.degree_derivative hp hlowers hd]
    exact atMost_roots (Poly.valid_ofTerms _) finder
  · exact atMost_of_overflow (by rw [hslope]; rfl)

theorem atMost_rootsFrom (finder : RootFinder) {guesses : List Float} (hd : 5 ≤ p.degree.toInt)
    (hguesses : guesses ≠ []) : AtMost guesses.length (finder.rootsFrom p guesses) := by
  have hsearch : ¬ (guesses.isEmpty || decide (p.degree.toInt < 5)) = true := by
    simp [hguesses, hd]
  rw [rootsFrom, if_neg hsearch]
  rcases p.derivative_cases with ⟨-, hslope⟩ | hslope
  · rw [hslope]
    exact atMost_ok (by exact_mod_cast finder.length_refineAll_le _ _ _)
  · exact atMost_of_overflow (by rw [hslope]; rfl)

/-- Unless an exponent overflows, no more roots are found than the degree allows and no more
critical points than the degree below.  With guesses there are no more roots than guesses from
degree five on, and up to degree four the guesses do not matter. -/
theorem length_roots_le (hp : p.Valid) (finder : RootFinder) :
    AtMost (max p.degree.toInt 0) (finder.roots p) ∧
    (1 ≤ p.degree.toInt → AtMost (max (p.degree.toInt - 1) 0) (finder.criticalPoints p)) ∧
    (∀ guesses, 5 ≤ p.degree.toInt → guesses ≠ [] →
      AtMost guesses.length (finder.rootsFrom p guesses)) ∧
    ∀ guesses, p.degree.toInt ≤ 4 → finder.rootsFrom p guesses = finder.roots p := by
  refine ⟨atMost_roots hp finder, atMost_criticalPoints hp finder,
    fun guesses => finder.atMost_rootsFrom, fun guesses hd => ?_⟩
  have hlow : p.degree.toInt < 5 := by omega
  rw [rootsFrom, if_pos (by simp [hlow])]

/-- The search for the roots of `x ^ 5 - x` does not overflow. -/
theorem length_roots_le_quintic :
    let p := Poly.ofTerms [⟨1.0, 5⟩, ⟨-1.0, 1⟩]
    let finder : RootFinder := ⟨Newton.standard.refine, .standard, .system⟩
    p.Valid ∧ (∃ xs, finder.roots p = .ok xs ∧ xs.length ≤ (5 : ℤ)) ∧
      (∃ xs, finder.criticalPoints p = .ok xs ∧ xs.length ≤ (4 : ℤ)) ∧
      ∃ xs, finder.rootsFrom p [0.9, 1.1] = .ok xs ∧ xs.length ≤ (2 : ℤ) := by
  intro p finder
  have hp : p.Valid := Poly.valid_ofTerms _
  have hdegree : p.degree.toInt = 5 := by decide
  have hlowers : p.Lowers 1 := by
    show ∀ t ∈ p.terms, _
    decide
  obtain ⟨hroots, hcritical, hguesses, -⟩ := length_roots_le hp finder
  rw [hdegree] at hroots hcritical hguesses
  obtain ⟨xs, hxs, -⟩ := finder.exists_search 5 hp (by rw [hdegree]; rfl) hlowers
  obtain ⟨slope, hslope, hvalid, hlowers', hd⟩ := hlowers.exists_derivative (k := 0) hp
  have hd := hd (by omega)
  obtain ⟨ys, hys, -⟩ := finder.exists_search 4 hvalid (by omega) hlowers'
  have hp₀ : finder.roots p = .ok xs := by
    rw [roots, hdegree]
    exact hxs
  have hp₁ : finder.criticalPoints p = .ok ys := by
    rw [criticalPoints, hslope]
    show finder.rootsOfDegree slope.degree.toInt.toNat slope = _
    rw [hd, hdegree]
    exact hys
  refine ⟨hp, hroots (not_overflows_of_ok hp₀), hcritical (by norm_num) (not_overflows_of_ok hp₁),
    hguesses [0.9, 1.1] le_rfl (List.cons_ne_nil _ _) ?_⟩
  rw [rootsFrom, if_neg (by rw [hdegree]; decide), hslope]
  exact not_overflows_of_ok rfl

end RootFinder

end SparsePoly
