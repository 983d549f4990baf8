import Mathlib
import SparsePoly.Proofs.Binary64.Status
import SparsePoly.Proofs.Calculus.Derivative
import SparsePoly.Roots.Finder

/-!
# Which refined roots are kept

The refined roots are the snapped refinements of the guesses, of which those are left out that are
too close to one found before (`refineAll_eq`).  A root that is left out is covered by one that is
kept (`covers_addDistinct`), as long as all of them are numbers.  A NaN is at no distance from
anything: behind other roots it is left out, and found first it keeps all others out
(`rootsFrom_covers`).
-/

namespace SparsePoly

open Binary64

namespace RootFinder

variable {epsilon x y : Float} {found xs : List Float}

/-! ## Keeping roots apart -/

/-- One of the roots is `x` or lies within the distance of it. -/
def Covers (epsilon : Float) (found : List Float) (x : Float) : Prop :=
  ∃ r ∈ found, r = x ∨ (r - x).abs ≤ epsilon

theorem Covers.append (h : Covers epsilon found x) (ys : List Float) :
    Covers epsilon (found ++ ys) x := by
  obtain ⟨r, hr, hrx⟩ := h
  exact ⟨r, List.mem_append_left ys hr, hrx⟩

/-- A root that is found stays. -/
theorem Covers.addDistinct (h : Covers epsilon found x) (y : Float) :
    Covers epsilon (addDistinct epsilon found y) x := by
  unfold RootFinder.addDistinct
  split_ifs
  · exact h.append [y]
  · exact h

/-- A number is kept or is close to one of the numbers found before. -/
theorem covers_addDistinct (he : epsilon.isNaN = false) (hfound : ∀ r ∈ found, r.isNaN = false)
    (hx : x.isNaN = false) : Covers epsilon (addDistinct epsilon found x) x := by
  unfold RootFinder.addDistinct
  split_ifs with h
  · exact ⟨x, by simp, Or.inl rfl⟩
  · obtain ⟨r, hr, hclose⟩ : ∃ r ∈ found, ¬ epsilon < (r - x).abs := by simpa using h
    refine ⟨r, hr, ?_⟩
    cases hnan : (r - x).isNaN with
    | false => exact Or.inr (le_of_not_lt he (by rwa [isNaN_abs]) hclose)
    | true =>
      -- infinities of the same sign have no distance
      left
      rw [isNaN_sub_iff, hfound r hr, hx] at hnan
      simp only [Bool.false_eq_true, false_or] at hnan
      exact hnan.2

/-- Nothing is far enough from a NaN. -/
theorem addDistinct_of_isNaN_mem (hy : y ∈ found) (hnan : y.isNaN = true) (x : Float) :
    addDistinct epsilon found x = found := by
  refine if_neg fun h => ?_
  have hlt := List.all_eq_true.1 h y hy
  refine not_lt_of_isNaN_right epsilon ?_ (of_decide_eq_true hlt)
  rw [isNaN_abs, isNaN_sub_iff]
  exact Or.inl hnan

/-- A NaN is far enough from nothing. -/
theorem addDistinct_of_isNaN (hx : x.isNaN = true) (hne : found ≠ []) :
    addDistinct epsilon found x = found := by
  obtain ⟨r, hr⟩ := List.exists_mem_of_ne_nil found hne
  refine if_neg fun h => ?_
  have hlt := List.all_eq_true.1 h r hr
  refine not_lt_of_isNaN_right epsilon ?_ (of_decide_eq_true hlt)
  rw [isNaN_abs, isNaN_sub_iff]
  exact Or.inr (Or.inl hx)

/-- The state of the loop once a number has been found. -/
structure Numbers (found : List Float) : Prop where
  ne_nil : found ≠ []
  isNaN_eq_false : ∀ r ∈ found, r.isNaN = false

theorem Numbers.addDistinct (h : Numbers found) (x : Float) :
    Numbers (addDistinct epsilon found x) := by
  cases hx : x.isNaN with
  | true => rwa [addDistinct_of_isNaN hx h.ne_nil]
  | false =>
    unfold RootFinder.addDistinct
    split_ifs
    · refine ⟨by simp, fun r hr => ?_⟩
      rcases List.mem_append.1 hr with hr | hr
      · exact h.isNaN_eq_false r hr
      · rwa [List.mem_singleton.1 hr]
    · exact h

/-- The whole loop covers the numbers that are found before and those that are added. -/
theorem Numbers.covers_foldl (he : epsilon.isNaN = false) (h : Numbers found)
    (hx : Covers epsilon found x ∨ x ∈ xs ∧ x.isNaN = false) :
    Covers epsilon (xs.foldl (RootFinder.addDistinct epsilon) found) x := by
  induction xs generalizing found with
  | nil => exact hx.resolve_right fun hx => List.not_mem_nil hx.1
  | cons y ys ih =>
    refine ih (h.addDistinct y) ?_
    rcases hx with hx | ⟨hmem, hx⟩
    · exact Or.inl (hx.addDistinct y)
    · rcases List.mem_cons.1 hmem with rfl | hmem
      · exact Or.inl (covers_addDistinct he h.isNaN_eq_false hx)
      · exact Or.inr ⟨hmem, hx⟩

/-- A NaN that is found first stays the only root. -/
theorem foldl_addDistinct_of_isNaN (hx : x.isNaN = true) (ys : List Float) :
    ys.foldl (RootFinder.addDistinct epsilon) [x] = [x] := by
  induction ys with
  | nil => rfl
  | cons y ys ih => rwa [List.foldl_cons, addDistinct_of_isNaN_mem (by simp) hx]

/-! ## Refined roots -/

/-- What the guesses are refined to, in their order, without the guesses that fail. -/
def refinements (finder : RootFinder) (p slope : Poly) (guesses : List Float) : List Float :=
  guesses.filterMap fun guess => (finder.refine p.toFunction slope.toFunction guess).toOption

variable {p slope : Poly} {guesses : List Float}

theorem refineAll_eq (finder : RootFinder) (p slope : Poly) (guesses : List Float) :
    finder.refineAll p slope guesses =
      ((finder.refinements p slope guesses).map finder.policy.snap).foldl
        (RootFinder.addDistinct finder.policy.epsilon) [] := by
  rw [refineAll, refinements, List.foldl_map, List.foldl_filterMap]
  congr 1
  funext found guess
  cases finder.refine p.toFunction slope.toFunction guess <;> rfl

/-- Every number that a guess leads to is covered, unless the first refinement is NaN. -/
theorem covers_refineAll (finder : RootFinder) {first r : Float} {rest : List Float}
    (h : finder.refinements p slope guesses = first :: rest) (hfirst : first.isNaN = false)
    (hr : r ∈ first :: rest) (hnan : r.isNaN = false) :
    Covers finder.policy.epsilon (finder.refineAll p slope guesses) (finder.policy.snap r) := by
  have hstart : Numbers [finder.policy.snap first] := by
    refine ⟨by simp, fun q hq => ?_⟩
    rwa [List.mem_singleton.1 hq, isNaN_snap]
  rw [refineAll_eq, h, List.map_cons, List.foldl_cons]
  show Covers _ (List.foldl _ [finder.policy.snap first] _) _
  refine hstart.covers_foldl (isNaN_eq_false_of_isFinite finder.policy.finite) ?_
  rcases List.mem_cons.1 hr with rfl | hr
  · exact Or.inl ⟨_, by simp, Or.inl rfl⟩
  · exact Or.inr ⟨List.mem_map_of_mem hr, by rwa [isNaN_snap]⟩

/-- A NaN as the first refinement is the only root. -/
theorem refineAll_of_isNaN (finder : RootFinder) {first : Float} {rest : List Float}
    (h : finder.refinements p slope guesses = first :: rest) (hfirst : first.isNaN = true) :
    finder.refineAll p slope guesses = [first] := by
  rw [refineAll_eq, h, List.map_cons, snap_of_isNaN _ hfirst, List.foldl_cons]
  exact foldl_addDistinct_of_isNaN hfirst _

/-- From degree five on the given guesses are refined, unless an exponent of the derivative
overflows.  Then every number that a guess leads to is, snapped, in the list or within the distance
of a number in the list, if the first guess that leads anywhere leads to a number.  If that one
leads to a NaN, the list is this NaN alone, whatever the others lead to. -/
theorem rootsFrom_covers (finder : RootFinder) (hd : 5 ≤ p.degree.toInt) (hg : guesses ≠ []) :
    (∃ t ∈ p.terms, ¬ t.Lowers) ∧
        finder.rootsFrom p guesses = .error (.exponentOverflow .subtraction) ∨
      ∃ slope xs, p.derivative = .ok slope ∧ finder.rootsFrom p guesses = .ok xs ∧
        ∀ first rest, finder.refinements p slope guesses = first :: rest →
          (first.isNaN = false → ∀ r ∈ first :: rest, r.isNaN = false →
            Covers finder.policy.epsilon xs (finder.policy.snap r)) ∧
          (first.isNaN = true → xs = [first]) := by
  have hrefined : ¬ (guesses.isEmpty || p.degree.toInt < 5) = true := by simpa [hg] using hd
  unfold rootsFrom
  rw [if_neg hrefined]
  rcases p.derivative_cases with ⟨hlowers, hslope⟩ | hslope
  · right
    refine ⟨_, _, hslope, by rw [hslope]; rfl, fun first rest h => ⟨fun hfirst r hr hnan => ?_, ?_⟩⟩
    · exact finder.covers_refineAll h hfirst hr hnan
    · exact finder.refineAll_of_isNaN h
  · left
    refine ⟨?_, by rw [hslope]; rfl⟩
    by_contra! hlowers
    rw [Poly.derivative_eq_ok hlowers] at hslope
    cases hslope

/-- A refiner that gives the guess back finds `1` and covers `2` behind a NaN, and finds nothing
else than the NaN in front of them. -/
theorem rootsFrom_covers_echo :
    let p := Poly.ofTerms [⟨1.0, 5⟩]
    let finder : RootFinder := ⟨fun _ _ guess => .ok guess, .disabled, .system⟩
    (∃ xs, finder.rootsFrom p [1.0, nan, 2.0] = .ok xs ∧ Covers 0.0 xs 1.0 ∧ Covers 0.0 xs 2.0) ∧
      finder.rootsFrom p [nan, 1.0, 2.0] = .ok [nan] := by
  intro p finder
  have hd : 5 ≤ p.degree.toInt := by decide
  have hlowers : ∀ t ∈ p.terms, t.Lowers := by
    rw [show p.terms = [⟨1.0, 5⟩] by decide]
    simp [Term.Lowers]
  have hlost {guesses : List Float} (hg : guesses ≠ []) :=
    (finder.rootsFrom_covers hd hg).resolve_left fun ⟨⟨t, ht, h⟩, _⟩ => h (hlowers t ht)
  constructor
  · obtain ⟨slope, xs, -, hxs, h⟩ := hlost (List.cons_ne_nil 1.0 [nan, 2.0])
    have hcovers := (h 1.0 [nan, 2.0] rfl).1 (by decide)
    have hone := hcovers 1.0 (by simp) (by decide)
    have htwo := hcovers 2.0 (by simp) (by decide)
    rw [show finder.policy.snap 1.0 = 1.0 by decide] at hone
    rw [show finder.policy.snap 2.0 = 2.0 by decide] at htwo
    exact ⟨xs, hxs, hone, htwo⟩
  · obtain ⟨slope, xs, -, hxs, h⟩ := hlost (List.cons_ne_nil nan [1.0, 2.0])
    rw [hxs, (h nan [1.0, 2.0] rfl).2 (by decide)]

end RootFinder

end SparsePoly
