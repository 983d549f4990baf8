import Mathlib
import SparsePoly.Proofs.Roots.Distinct

/-!
# Refined roots are apart

The loop over the guesses keeps a root if it is farther than the distance from every root that it
has kept.  So it only ever adds roots at the end (`prefix_foldl`), what it has kept stays apart
(`apart_foldl`), and a root that it has seen once is not kept again (`foldl_eq_self`).  From that,
guesses that repeat earlier ones add nothing (`rootsFrom_separated`).
-/

namespace SparsePoly.RootFinder

open Binary64

variable {epsilon x y : Float} {found xs ys : List Float}

/-! ## One root -/

/-- The roots are farther apart than the distance, in either order of the difference. -/
def Apart (epsilon x y : Float) : Prop := epsilon < (x - y).abs ∧ epsilon < (y - x).abs

/-- A root that has been found is not farther than the distance. -/
def Taken (epsilon : Float) (found : List Float) (x : Float) : Prop :=
  ∃ r ∈ found, ¬ epsilon < (r - x).abs

theorem not_taken_iff : ¬ Taken epsilon found x ↔ ∀ r ∈ found, epsilon < (r - x).abs := by
  simp [Taken]

theorem addDistinct_of_taken (h : Taken epsilon found x) : addDistinct epsilon found x = found := by
  refine if_neg fun hall => ?_
  simp only [List.all_eq_true, decide_eq_true_eq] at hall
  exact not_taken_iff.2 hall h

theorem addDistinct_of_not_taken (h : ¬ Taken epsilon found x) :
    addDistinct epsilon found x = found ++ [x] := by
  refine if_pos ?_
  simpa using not_taken_iff.1 h

theorem apart_of_lt (h : epsilon < (x - y).abs) : Apart epsilon x y :=
  ⟨h, ((Agree.refl epsilon).lt_iff (agree_abs_sub_comm x y)).1 h⟩

theorem prefix_addDistinct (epsilon : Float) (found : List Float) (x : Float) :
    found <+: addDistinct epsilon found x := by
  by_cases h : Taken epsilon found x
  · rw [addDistinct_of_taken h]
  · rw [addDistinct_of_not_taken h]
    exact List.prefix_append found [x]

theorem addDistinct_sublist (epsilon : Float) (found : List Float) (x : Float) :
    (addDistinct epsilon found x).Sublist (found ++ [x]) := by
  by_cases h : Taken epsilon found x
  · rw [addDistinct_of_taken h]
    exact List.sublist_append_left found [x]
  · rw [addDistinct_of_not_taken h]

theorem apart_addDistinct (h : found.Pairwise (Apart epsilon)) (x : Float) :
    (addDistinct epsilon found x).Pairwise (Apart epsilon) := by
  by_cases hx : Taken epsilon found x
  · rwa [addDistinct_of_taken hx]
  · rw [addDistinct_of_not_taken hx, List.pairwise_append]
    refine ⟨h, List.pairwise_singleton _ x, fun r hr y hy => ?_⟩
    rw [List.mem_singleton.1 hy]
    exact apart_of_lt (not_taken_iff.1 hx r hr)

theorem Taken.mono (h : Taken epsilon found x) (hsub : found ⊆ ys) : Taken epsilon ys x := by
  obtain ⟨r, hr, hclose⟩ := h
  exact ⟨r, hsub hr, hclose⟩

/-- A root that has been seen is taken, by itself if by no other. -/
theorem taken_addDistinct (he : ¬ epsilon < 0.0) (found : List Float) (x : Float) :
    Taken epsilon (addDistinct epsilon found x) x := by
  by_cases h : Taken epsilon found x
  · rwa [addDistinct_of_taken h]
  · rw [addDistinct_of_not_taken h]
    exact ⟨x, by simp, not_lt_abs_sub_self he x⟩

/-! ## The loop -/

theorem prefix_foldl (epsilon : Float) (xs : List Float) :
    ∀ found, found <+: xs.foldl (addDistinct epsilon) found := by
  induction xs with
  | nil => exact List.prefix_refl
  | cons x xs ih => exact fun found => (prefix_addDistinct epsilon found x).trans (ih _)

theorem foldl_sublist (epsilon : Float) (xs : List Float) :
    ∀ found, (xs.foldl (addDistinct epsilon) found).Sublist (found ++ xs) := by
  induction xs with
  | nil => simp
  | cons x xs ih =>
    intro found
    calc (xs.foldl (addDistinct epsilon) (addDistinct epsilon found x)).Sublist
          (addDistinct epsilon found x ++ xs) := ih _
      List.Sublist _ (found ++ [x] ++ xs) :=
        (addDistinct_sublist epsilon found x).append_right xs
      _ = found ++ x :: xs := by simp

theorem apart_foldl (xs : List Float) (h : found.Pairwise (Apart epsilon)) :
    (xs.foldl (addDistinct epsilon) found).Pairwise (Apart epsilon) := by
  induction xs generalizing found with
  | nil => exact h
  | cons x xs ih => exact ih (apart_addDistinct h x)

/-- Each root that the loop has seen is taken in the end. -/
theorem taken_foldl (he : ¬ epsilon < 0.0) (hx : x ∈ xs) :
    ∀ found, Taken epsilon (xs.foldl (addDistinct epsilon) found) x := by
  induction xs with
  | nil => simp at hx
  | cons y ys ih =>
    intro found
    rcases List.mem_cons.1 hx with rfl | hx
    · exact (taken_addDistinct he found x).mono (prefix_foldl epsilon ys _).subset
    · exact ih hx _

/-- Roots that are taken change nothing. -/
theorem foldl_eq_self (h : ∀ y ∈ ys, Taken epsilon found y) :
    ys.foldl (addDistinct epsilon) found = found := by
  induction ys with
  | nil => rfl
  | cons y ys ih =>
    rw [List.foldl_cons, addDistinct_of_taken (h y (by simp))]
    exact ih fun z hz => h z (by simp [hz])

/-! ## Refined roots -/

variable {p slope : Poly} {guesses more : List Float}

/-- The snapped refinements, all of them. -/
def candidates (finder : RootFinder) (p slope : Poly) (guesses : List Float) : List Float :=
  (finder.refinements p slope guesses).map finder.policy.snap

theorem refineAll_eq_foldl (finder : RootFinder) (p slope : Poly) (guesses : List Float) :
    finder.refineAll p slope guesses =
      (finder.candidates p slope guesses).foldl (addDistinct finder.policy.epsilon) [] :=
  finder.refineAll_eq p slope guesses

theorem candidates_append (finder : RootFinder) (p slope : Poly) (guesses more : List Float) :
    finder.candidates p slope (guesses ++ more) =
      finder.candidates p slope guesses ++ finder.candidates p slope more := by
  simp [candidates, refinements]

theorem candidates_subset (finder : RootFinder) (p slope : Poly) (h : more ⊆ guesses) :
    finder.candidates p slope more ⊆ finder.candidates p slope guesses :=
  List.map_subset _ (List.filterMap_subset _ h)

theorem refineAll_sublist (finder : RootFinder) (p slope : Poly) (guesses : List Float) :
    (finder.refineAll p slope guesses).Sublist (finder.candidates p slope guesses) := by
  rw [refineAll_eq_foldl]
  exact foldl_sublist finder.policy.epsilon _ []

/-- The first refinement is kept. -/
theorem head?_refineAll (finder : RootFinder) (p slope : Poly) (guesses : List Float) :
    (finder.refineAll p slope guesses).head? = (finder.candidates p slope guesses).head? := by
  rw [refineAll_eq_foldl]
  cases finder.candidates p slope guesses with
  | nil => rfl
  | cons x xs =>
    have hprefix : [x] <+: xs.foldl (addDistinct finder.policy.epsilon) [x] := prefix_foldl _ _ _
    obtain ⟨rest, hrest⟩ := hprefix
    show (xs.foldl (addDistinct finder.policy.epsilon) [x]).head? = _
    rw [← hrest]
    rfl

theorem apart_refineAll (finder : RootFinder) (p slope : Poly) (guesses : List Float) :
    (finder.refineAll p slope guesses).Pairwise (Apart finder.policy.epsilon) := by
  rw [refineAll_eq_foldl]
  exact apart_foldl _ List.Pairwise.nil

theorem taken_refineAll (finder : RootFinder) (hx : x ∈ finder.candidates p slope guesses) :
    Taken finder.policy.epsilon (finder.refineAll p slope guesses) x := by
  rw [refineAll_eq_foldl]
  exact taken_foldl finder.policy.nonneg hx []

/-- Guesses that were made before add nothing. -/
theorem refineAll_append (finder : RootFinder) (p slope : Poly) (h : more ⊆ guesses) :
    finder.refineAll p slope (guesses ++ more) = finder.refineAll p slope guesses := by
  rw [refineAll_eq_foldl, candidates_append, List.foldl_append, ← refineAll_eq_foldl]
  exact foldl_eq_self fun y hy =>
    finder.taken_refineAll (finder.candidates_subset p slope h hy)

/-- From degree five on guesses are refined. -/
theorem rootsFrom_eq (finder : RootFinder) (hd : 5 ≤ p.degree.toInt) (hg : guesses ≠ []) :
    finder.rootsFrom p guesses = do return finder.refineAll p (← p.derivative) guesses :=
  if_neg (by simpa [hg] using hd)

/-- Given guesses lead to roots, unless an exponent of the derivative overflows. -/
theorem rootsFrom_cases (finder : RootFinder) (hd : 5 ≤ p.degree.toInt) :
    (∃ t ∈ p.terms, ¬ t.Lowers) ∧ (∀ guesses ≠ [],
        finder.rootsFrom p guesses = .error (.exponentOverflow .subtraction)) ∨
      ∃ slope, p.derivative = .ok slope ∧ ∀ guesses ≠ [],
        finder.rootsFrom p guesses = .ok (finder.refineAll p slope guesses) := by
  rcases p.derivative_cases with ⟨-, hslope⟩ | hslope
  · refine Or.inr ⟨_, hslope, fun guesses hg => ?_⟩
    rw [finder.rootsFrom_eq hd hg, hslope]
    rfl
  · refine Or.inl ⟨?_, fun guesses hg => ?_⟩
    · by_contra! hlowers
      rw [Poly.derivative_eq_ok hlowers] at hslope
      cases hslope
    · rw [finder.rootsFrom_eq hd hg, hslope]
      rfl

/-- From degree five on, without guesses, the critical points tell where to guess. -/
theorem roots_eq (finder : RootFinder) (hp : p.Valid) (hd : 5 ≤ p.degree.toInt) :
    finder.roots p = do
      let slope ← p.derivative
      let critical ← finder.criticalPoints p
      return finder.refineAll p slope (bracketGuesses critical) := by
  obtain ⟨d, hdegree⟩ : ∃ d : ℕ, p.degree.toInt.toNat = d + 5 :=
    ⟨p.degree.toInt.toNat - 5, by omega⟩
  rw [roots, hdegree, rootsOfDegree, criticalPoints]
  rcases p.derivative_cases with ⟨hlowers, hslope⟩ | hslope
  · have hbelow := Poly.degree_derivative hp hlowers (by omega)
    have hslopeDegree : (Poly.ofTerms (p.terms.map Term.derived)).degree.toInt.toNat = d + 4 := by
      omega
    rw [hslope, ← hslopeDegree]
    rfl
  · rw [hslope]
    rfl

/-- From degree five on the roots that guesses lead to are some of the snapped refinements, in the
order of the guesses and the first one among them.  Any two of them are farther apart than the
policy's distance, and each refinement that was left out is not farther from one that was kept.
More guesses lead to the same roots if each of them was made before.  None of this depends on what
the refiner does; only the derivative may overflow. -/
theorem rootsFrom_separated (finder : RootFinder) (hd : 5 ≤ p.degree.toInt) (hg : guesses ≠ []) :
    (∃ t ∈ p.terms, ¬ t.Lowers) ∧
        (∀ more, finder.rootsFrom p (guesses ++ more) = .error (.exponentOverflow .subtraction)) ∨
      ∃ slope xs, p.derivative = .ok slope ∧ finder.rootsFrom p guesses = .ok xs ∧
        xs.Sublist (finder.candidates p slope guesses) ∧
        xs.head? = (finder.candidates p slope guesses).head? ∧
        xs.Pairwise (Apart finder.policy.epsilon) ∧
        (∀ r ∈ finder.candidates p slope guesses, Taken finder.policy.epsilon xs r) ∧
        ∀ more ⊆ guesses, finder.rootsFrom p (guesses ++ more) = .ok xs := by
  rcases finder.rootsFrom_cases hd with ⟨hlowers, herror⟩ | ⟨slope, hslope, hok⟩
  · exact Or.inl ⟨hlowers, fun more => herror _ (by simp [hg])⟩
  · refine Or.inr ⟨slope, finder.refineAll p slope guesses, hslope, hok guesses hg,
      finder.refineAll_sublist p slope guesses, finder.head?_refineAll p slope guesses,
      finder.apart_refineAll p slope guesses, fun r => finder.taken_refineAll, fun more hmore => ?_⟩
    rw [hok _ (by simp [hg]), finder.refineAll_append p slope hmore]

/-- Guesses of which one fails, one is too close to another one, and two are not finite. -/
theorem rootsFrom_separated_echo :
    let p := Poly.ofTerms [⟨1.0, 5⟩]
    let policy : SnapPolicy := ⟨0.25, by decide, by decide⟩
    let refine : Refiner := fun _ _ x => if x < 0.0 then .error (.zeroDerivative x) else .ok x
    let finder : RootFinder := ⟨refine, policy, .system⟩
    let guesses : List Float := [-1.0, 1.5, 1.625, infinity, nan, 3.5]
    ∃ xs, finder.rootsFrom p guesses = .ok xs ∧ xs.Sublist [1.5, 1.625, infinity, nan, 3.5] ∧
      xs.head? = some 1.5 ∧ xs.Pairwise (Apart 0.25) ∧ Taken 0.25 xs 3.5 ∧
      finder.rootsFrom p (guesses ++ [3.5, nan, -1.0, 1.625]) = .ok xs := by
  intro p policy refine finder guesses
  have hd : 5 ≤ p.degree.toInt := by decide
  have hlowers : ¬ ∃ t ∈ p.terms, ¬ t.Lowers := by
    rw [show p.terms = [⟨1.0, 5⟩] by decide]
    simp [Term.Lowers]
  have hg : guesses ≠ [] := List.cons_ne_nil _ _
  have hmore : [3.5, nan, -1.0, 1.625] ⊆ guesses := by simp [guesses]
  obtain ⟨slope, xs, -, hxs, hsub, hhead, hapart, htaken, hsame⟩ :=
    (finder.rootsFrom_separated hd hg).resolve_left fun h => hlowers h.1
  have hcandidates : finder.candidates p slope guesses = [1.5, 1.625, infinity, nan, 3.5] := by
    show List.map policy.snap [1.5, 1.625, infinity, nan, 3.5] = _
    decide
  rw [hcandidates] at hsub hhead htaken
  exact ⟨xs, hxs, hsub, hhead, hapart, htaken 3.5 (by simp), hsame _ hmore⟩

end SparsePoly.RootFinder
