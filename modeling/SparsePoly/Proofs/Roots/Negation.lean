import Mathlib
import SparsePoly.Proofs.Binary64.Sorted
import SparsePoly.Proofs.Calculus.Opposite
import SparsePoly.Proofs.Roots.ClosedForm
import SparsePoly.Proofs.Roots.Descent
import SparsePoly.Roots.Finder

/-!
# Roots and extrema of the negation

A polynomial and its negation are searched in step.  At each level the derivatives are opposite, the
critical points agree up to the sign of zero, and so do the guesses and what Newton's method makes
of them (`Newton.odd_refine`), because a step divides opposite numbers.  So both searches find the
same roots (`agree_roots`), and the maxima of the one are the minima of the other
(`roots_extrema_negate`).
-/

open SparsePoly.Binary64 SparsePoly.ClosedForm

namespace SparsePoly

/-! ## Refiners -/

/-- Both computations give numbers that agree, or both fail. -/
def SameOutcome : Except Error Float → Except Error Float → Prop
  | .ok x, .ok y => Agree x y
  | .error _, .error _ => True
  | _, _ => False

/-- The functions have opposite values wherever their arguments agree. -/
def OppositeValues (f g : Float → Float) : Prop := ∀ x y, Agree y x → Agree (g y) (-f x)

/-- From guesses that agree the refiner finds the same root of opposite functions. -/
def Refiner.Odd (refine : Refiner) : Prop :=
  ∀ f df g dg, OppositeValues f g → OppositeValues df dg → ∀ x y, Agree y x →
    SameOutcome (refine g dg y) (refine f df x)

namespace Newton

variable {f df g dg : Float → Float} {x y : Float}

/-- Opposite numbers that agree with zero are zeros. -/
theorem beq_zero_of_agree_neg (h : Agree y (-x)) : (y == 0.0) = (x == 0.0) := by
  rw [h.beq (.refl 0.0), neg_beq_zero]

/-- The quotient of opposite numbers is the same, unless one of them is a zero. -/
theorem div_eq_of_agree_neg {x' y' : Float} (hx : Agree x' (-x)) (hy : Agree y' (-y))
    (hx₀ : (x == 0.0) = false) (hy₀ : (y == 0.0) = false) : x' / y' = x / y := by
  have hx : x' = -x := hx.resolve_right fun h => by
    rw [neg_beq_zero, hx₀] at h
    exact Bool.false_ne_true h.2
  have hy : y' = -y := hy.resolve_right fun h => by
    rw [neg_beq_zero, hy₀] at h
    exact Bool.false_ne_true h.2
  rw [hx, hy, neg_div_float, div_neg_float, neg_neg]

/-- From guesses that agree the steps of Newton's method agree. -/
theorem odd_iterate (n : Newton) (hf : OppositeValues f g) (hdf : OppositeValues df dg)
    (guess guess' : Float) (left : ℕ) (hyx : Agree y x) :
    SameOutcome (n.iterate g dg guess' left y) (n.iterate f df guess left x) := by
  -- the quotient in a step is the same for both, so the next guesses agree whatever was left
  induction left generalizing x y with
  | zero => trivial
  | succ left ih =>
    have hvalue := hf x y hyx
    have hslope := hdf x y hyx
    simp only [iterate, beq_zero_of_agree_neg hvalue, beq_zero_of_agree_neg hslope]
    cases hfx : f x == 0.0 with
    | true => exact hyx
    | false =>
      cases hdfx : df x == 0.0 with
      | true => trivial
      | false =>
        have hquotient := div_eq_of_agree_neg hvalue hslope hfx hdfx
        have hnext : Agree (y - g y / dg y) (x - f x / df x) := by
          rw [hquotient]
          exact hyx.sub (.refl _)
        have hlast := ((hnext.sub hyx).abs).lt_iff ((Agree.refl n.tolerance).mul hyx.scaleOf)
        simp only [Bool.false_eq_true, if_false, hnext.isFinite, hlast]
        split_ifs
        · trivial
        · exact hnext
        · exact ih hnext

theorem odd_refine (n : Newton) : Refiner.Odd n.refine :=
  fun _ _ _ _ hf hdf x y hyx => n.odd_iterate hf hdf x y n.maxIterations hyx

end Newton

/-! ## Guesses and distinct roots -/

namespace RootFinder

variable {finder : RootFinder} {xs ys found found' : List Float} {x y : Float}

theorem forall₂_agree_midpoints (h : List.Forall₂ Agree ys xs) :
    List.Forall₂ Agree (midpoints ys) (midpoints xs) := by
  induction h with
  | nil => exact .nil
  | cons hyx hrest ih =>
    cases hrest with
    | nil => exact .nil
    | cons hyx' hrest' => exact .cons ((hyx.add hyx').div 2.0) ih

theorem agree_getLast (h : List.Forall₂ Agree ys xs) (hy : ys ≠ []) (hx : xs ≠ []) :
    Agree (ys.getLast hy) (xs.getLast hx) := by
  induction h with
  | nil => exact absurd rfl hy
  | cons hyx hrest ih =>
    cases hrest with
    | nil => exact hyx
    | cons hyx' hrest' =>
      rw [List.getLast_cons_cons, List.getLast_cons_cons]
      exact ih (List.cons_ne_nil _ _) (List.cons_ne_nil _ _)

theorem forall₂_agree_finite (h : List.Forall₂ Agree ys xs) :
    List.Forall₂ Agree (ys.filter Float.isFinite) (xs.filter Float.isFinite) :=
  List.rel_filter (fun _ _ hyx => Bool.eq_iff_iff.1 hyx.isFinite) h

theorem forall₂_agree_bracketGuesses (h : List.Forall₂ Agree ys xs) :
    List.Forall₂ Agree (bracketGuesses ys) (bracketGuesses xs) := by
  have hsorted := forall₂_agree_sorted (forall₂_agree_finite h)
  unfold bracketGuesses
  generalize sorted (ys.filter Float.isFinite) = points' at hsorted
  generalize sorted (xs.filter Float.isFinite) = points at hsorted
  cases hsorted with
  | nil => exact .cons (.refl _) .nil
  | @cons y x ys xs hfirst hrest =>
    have hpoints : List.Forall₂ Agree (y :: ys) (x :: xs) := .cons hfirst hrest
    have hlast := agree_getLast hpoints (List.cons_ne_nil y ys) (List.cons_ne_nil x xs)
    simp only [List.head?_cons, List.getLast?_eq_some_getLast (List.cons_ne_nil _ _)]
    exact .cons (hfirst.sub (.refl _))
      (List.rel_append (forall₂_agree_midpoints hpoints) (.cons (hlast.add (.refl _)) .nil))

theorem all_far_congr (epsilon : Float) (h : List.Forall₂ Agree ys xs) (hyx : Agree y x) :
    (ys.all fun r => epsilon < (r - y).abs) = xs.all fun r => epsilon < (r - x).abs := by
  induction h with
  | nil => rw [List.all_nil, List.all_nil]
  | cons hr _ ih =>
    have hfar := (Agree.refl epsilon).lt_iff (hr.sub hyx).abs
    rw [List.all_cons, List.all_cons, ih, decide_eq_decide.2 hfar]

theorem forall₂_agree_addDistinct (epsilon : Float) (h : List.Forall₂ Agree ys xs)
    (hyx : Agree y x) :
    List.Forall₂ Agree (addDistinct epsilon ys y) (addDistinct epsilon xs x) := by
  unfold addDistinct
  rw [all_far_congr epsilon h hyx]
  split_ifs
  · exact List.rel_append h (.cons hyx .nil)
  · exact h

theorem forall₂_agree_refineAll {p q slope slope' : Poly} (hodd : finder.refine.Odd)
    (h : p.Opposite q) (hslope : slope.Opposite slope') (hyx : List.Forall₂ Agree ys xs) :
    List.Forall₂ Agree (finder.refineAll q slope' ys) (finder.refineAll p slope xs) := by
  refine List.rel_foldl (P := List.Forall₂ Agree) (fun found' found hfound y x hyx => ?_) .nil hyx
  have hsame := hodd p.toFunction slope.toFunction q.toFunction slope'.toFunction
    (fun _ _ => h.agree_eval) (fun _ _ => hslope.agree_eval) x y hyx
  revert hsame
  cases finder.refine q.toFunction slope'.toFunction y with
  | ok root' =>
    cases finder.refine p.toFunction slope.toFunction x with
    | ok root => exact fun hroot =>
        forall₂_agree_addDistinct finder.policy.epsilon hfound (Agree.snap hroot finder.policy)
    | error e => exact False.elim
  | error e' =>
    cases finder.refine p.toFunction slope.toFunction x with
    | ok root => exact False.elim
    | error e => exact fun _ => hfound

/-! ## The search -/

variable {p q : Poly}

/-- The linear formula. -/
theorem agree_linearRoots (h : p.Opposite q) (policy : SnapPolicy) (hd : p.degree.toInt = 1) :
    ∃ xs ys, p.linearRoots policy = .ok xs ∧ q.linearRoots policy = .ok ys ∧
      List.Forall₂ Agree ys xs := by
  have hq : q.degree.toInt = 1 := by rw [h.degree_eq, hd]
  have hlead := h.coefficient_degree_eq (by omega)
  rw [show p.degree = 1 from Int32.toInt_inj.1 hd] at hlead
  have hroots := solveLinear_agree (-p.coefficient 1) (h.agree_coefficient 0)
  rw [solveLinear_neg, ← hlead] at hroots
  exact ⟨_, _, checkDegree_bind hd _, checkDegree_bind hq _, forall₂_agree_snapAll policy hroots⟩

/-- The quadratic formula gives the roots in the other order. -/
theorem agree_quadraticRoots (h : p.Opposite q) (policy : SnapPolicy) (hd : p.degree.toInt = 2) :
    ∃ xs ys, p.quadraticRoots policy = .ok xs ∧ q.quadraticRoots policy = .ok ys ∧
      List.Forall₂ Agree ys xs.reverse := by
  have hq : q.degree.toInt = 2 := by rw [h.degree_eq, hd]
  have hlead := h.coefficient_degree_eq (by omega)
  rw [show p.degree = 2 from Int32.toInt_inj.1 hd] at hlead
  have hsame := solveQuadratic_agree (-p.coefficient 2) (h.agree_coefficient 1)
    (h.agree_coefficient 0)
  have hroots := forall₂_agree_trans hsame (solveQuadratic_neg _ _ _)
  rw [← hlead] at hroots
  refine ⟨_, _, checkDegree_bind hd _, checkDegree_bind hq _, ?_⟩
  rw [SnapPolicy.snapAll, SnapPolicy.snapAll, ← List.map_reverse]
  exact forall₂_agree_snapAll policy hroots

/-- The cubic formula. -/
theorem agree_cubicRoots (h : p.Opposite q) {fn : Elementary} (hfn : fn.Symmetric)
    (policy : SnapPolicy) (hd : p.degree.toInt = 3) :
    ∃ xs ys, p.cubicRoots fn policy = .ok xs ∧ q.cubicRoots fn policy = .ok ys ∧
      List.Forall₂ Agree ys xs := by
  have hq : q.degree.toInt = 3 := by rw [h.degree_eq, hd]
  have hlead := h.coefficient_degree_eq (by omega)
  rw [show p.degree = 3 from Int32.toInt_inj.1 hd] at hlead
  have hroots := solveCubic_agree hfn (-p.coefficient 3) (h.agree_coefficient 2)
    (h.agree_coefficient 1) (h.agree_coefficient 0)
  rw [solveCubic_neg, ← hlead] at hroots
  exact ⟨_, _, checkDegree_bind hd _, checkDegree_bind hq _, forall₂_agree_snapAll policy hroots⟩

/-- The quartic formula. -/
theorem agree_quarticRoots (h : p.Opposite q) {fn : Elementary} (hfn : fn.Symmetric)
    (policy : SnapPolicy) (hd : p.degree.toInt = 4) :
    ∃ xs ys, p.quarticRoots fn policy = .ok xs ∧ q.quarticRoots fn policy = .ok ys ∧
      List.Forall₂ Agree ys xs := by
  have hq : q.degree.toInt = 4 := by rw [h.degree_eq, hd]
  have hmonic (e : Exponent) : Agree (q.coefficient e / q.leadingCoefficient)
      (p.coefficient e / p.leadingCoefficient) := by
    have hquotient := (h.agree_coefficient e).div (-p.leadingCoefficient)
    rwa [neg_div_float, div_neg_float (p.coefficient e), neg_neg,
      ← h.leadingCoefficient_eq (by omega)] at hquotient
  have hroots := solveQuartic_agree hfn policy (hmonic 3) (hmonic 2) (hmonic 1) (hmonic 0)
  exact ⟨_, _, checkDegree_bind hd _, checkDegree_bind hq _, forall₂_agree_snapAll policy hroots⟩

/-- Opposite polynomials are searched in step. -/
theorem agree_rootsOfDegree (finder : RootFinder) (hodd : finder.refine.Odd)
    (hfn : finder.functions.Symmetric) : ∀ (d : ℕ) {p q : Poly}, p.Opposite q →
    p.degree.toInt.toNat = d → p.Lowers (d - 4) →
    ∃ xs ys, finder.rootsOfDegree d p = .ok xs ∧ finder.rootsOfDegree d q = .ok ys ∧
      List.Forall₂ Agree ys (if d = 2 then xs.reverse else xs)
  | 0, _, _, _, _, _ => ⟨[], [], rfl, rfl, .nil⟩
  | 1, _, _, h, hd, _ => agree_linearRoots h finder.policy (by omega)
  | 2, _, _, h, hd, _ => agree_quadraticRoots h finder.policy (by omega)
  | 3, _, _, h, hd, _ => agree_cubicRoots h hfn finder.policy (by omega)
  | 4, _, _, h, hd, _ => agree_quarticRoots h hfn finder.policy (by omega)
  | d + 5, p, q, h, hd, hlowers => by
    obtain ⟨slope, hslope, -, hlowers, hdegree⟩ :=
      Poly.Lowers.exists_derivative (k := d) hlowers h.left
    have hdegree := hdegree (by omega)
    obtain ⟨slope', hslope', hopposite⟩ := h.derivative hslope
    obtain ⟨critical, critical', hroots, hroots', hagree⟩ :=
      agree_rootsOfDegree finder hodd hfn (d + 4) hopposite (by omega) hlowers
    -- the search ends above the degree whose roots change places
    rw [if_neg (by omega)] at hagree
    refine ⟨finder.refineAll p slope (bracketGuesses critical),
      finder.refineAll q slope' (bracketGuesses critical'), ?_, ?_, ?_⟩
    · rw [rootsOfDegree, hslope]
      show (do let critical ← finder.rootsOfDegree (d + 4) slope; _) = _
      rw [hroots]
      rfl
    · rw [rootsOfDegree, hslope']
      show (do let critical ← finder.rootsOfDegree (d + 4) slope'; _) = _
      rw [hroots']
      rfl
    · rw [if_neg (by omega)]
      exact forall₂_agree_refineAll hodd h hopposite (forall₂_agree_bracketGuesses hagree)

/-! ## Roots and extrema -/

/-- The numbers are the same and as often, up to the sign of zero. -/
def SameValues (ys xs : List Float) : Prop := ∃ zs, List.Forall₂ Agree ys zs ∧ zs.Perm xs

theorem SameValues.filter {keep keep' : Float → Bool} (h : SameValues ys xs)
    (hkeep : ∀ y x, Agree y x → keep' y = keep x) :
    SameValues (ys.filter keep') (xs.filter keep) := by
  obtain ⟨zs, hagree, hperm⟩ := h
  refine ⟨zs.filter keep, List.rel_filter (fun y z hyz => ?_) hagree, hperm.filter keep⟩
  exact Bool.eq_iff_iff.1 (hkeep y z hyz)

theorem SameValues.within (h : SameValues ys xs) (lower upper : Option Float) :
    SameValues (within lower upper ys) (within lower upper xs) := by
  refine h.filter fun y x hyx => ?_
  have hlower (b : Float) : decide (b ≤ y) = decide (b ≤ x) :=
    decide_eq_decide.2 ((Agree.refl b).le_iff hyx)
  have hupper (b : Float) : decide (y ≤ b) = decide (x ≤ b) :=
    decide_eq_decide.2 (hyx.le_iff (.refl b))
  simp only [hlower, hupper]

/-- The searches for the roots of opposite polynomials. -/
theorem agree_roots (finder : RootFinder) (hodd : finder.refine.Odd)
    (hfn : finder.functions.Symmetric) (h : p.Opposite q) (hlowers : p.Lowers (2 ^ 31 - 1)) :
    ∃ xs ys, finder.roots p = .ok xs ∧ finder.roots q = .ok ys ∧
      List.Forall₂ Agree ys (if p.degree.toInt = 2 then xs.reverse else xs) := by
  have hmax := p.degree.toInt_lt
  obtain ⟨xs, ys, hxs, hys, hagree⟩ := finder.agree_rootsOfDegree hodd hfn p.degree.toInt.toNat h
    rfl (hlowers.mono (by omega))
  refine ⟨xs, ys, hxs, ?_, ?_⟩
  · rw [roots, h.degree_eq, hys]
  · have hiff : p.degree.toInt.toNat = 2 ↔ p.degree.toInt = 2 := by omega
    simpa only [hiff] using hagree

/-- If one question is the other one asked of opposite values, it selects the same roots. -/
theorem sameValues_rootsWhere (finder : RootFinder) (hodd : finder.refine.Odd)
    (hfn : finder.functions.Symmetric) (h : p.Opposite q) (hlowers : p.Lowers (2 ^ 31 - 1))
    (asked asked' : Float → Float → Bool)
    (hasked : ∀ l l' r r', Agree l' (-l) → Agree r' (-r) → asked' l' r' = asked l r) :
    ∃ xs ys, finder.rootsWhere p asked = .ok xs ∧ finder.rootsWhere q asked' = .ok ys ∧
      SameValues ys xs := by
  obtain ⟨xs, ys, hxs, hys, hagree⟩ := finder.agree_roots hodd hfn h hlowers
  have hsame : SameValues ys xs := by
    refine ⟨_, hagree, ?_⟩
    split_ifs
    · exact List.reverse_perm xs
    · exact .refl xs
  refine ⟨_, _, ?_, ?_, hsame.filter fun y x hyx => hasked _ _ _ _
    (h.agree_eval (hyx.sub (.refl probeDistance))) (h.agree_eval (hyx.add (.refl probeDistance)))⟩
  · rw [rootsWhere, hxs]
    rfl
  · rw [rootsWhere, hys]
    rfl

/-- The polynomial with the slope `p` is highest where the one with the slope `q` is lowest. -/
theorem sameValues_extrema (finder : RootFinder) (hodd : finder.refine.Odd)
    (hfn : finder.functions.Symmetric) (h : p.Opposite q) (hlowers : p.Lowers (2 ^ 31 - 1))
    (lower upper : Option Float) :
    (∃ us vs, finder.maxima q lower upper = .ok us ∧ finder.minima p lower upper = .ok vs ∧
      SameValues us vs) ∧
    ∃ us vs, finder.minima q lower upper = .ok us ∧ finder.maxima p lower upper = .ok vs ∧
      SameValues us vs := by
  have hpositive {x y : Float} (hyx : Agree y (-x)) : (0.0 < y) = (x < 0.0) := by
    rw [(Agree.refl 0.0).lt_iff hyx, zero_lt_neg_float]
  have hnegative {x y : Float} (hyx : Agree y (-x)) : (y < 0.0) = (0.0 < x) := by
    rw [hyx.lt_iff (.refl 0.0), neg_lt_zero_float]
  constructor
  · obtain ⟨vs, us, hvs, hus, hsame⟩ := finder.sameValues_rootsWhere hodd hfn h hlowers
      (fun left right => left < 0.0 && 0.0 < right) (fun left right => 0.0 < left && right < 0.0)
      (fun l l' r r' hl hr => by simp only [hpositive hl, hnegative hr])
    refine ⟨_, _, ?_, ?_, hsame.within lower upper⟩
    · rw [maxima, hus]
      rfl
    · rw [minima, hvs]
      rfl
  · obtain ⟨vs, us, hvs, hus, hsame⟩ := finder.sameValues_rootsWhere hodd hfn h hlowers
      (fun left right => 0.0 < left && right < 0.0) (fun left right => left < 0.0 && 0.0 < right)
      (fun l l' r r' hl hr => by simp only [hnegative hl, hpositive hr])
    refine ⟨_, _, ?_, ?_, hsame.within lower upper⟩
    · rw [minima, hus]
      rfl
    · rw [maxima, hvs]
      rfl

/-- Negating a polynomial does not change what is found, whatever the snap policy and the tolerance
and budget of Newton's method.  The roots are the same in the same order, except that the two roots
of a quadratic polynomial change places, and the maxima of the negation are the minima of the
polynomial and the other way round.  The coefficients may be of any kind. -/
theorem roots_extrema_negate {fn : Elementary} (hfn : fn.Symmetric) (policy : SnapPolicy)
    (n : Newton) (hp : p.Valid) (hnonneg : ∀ t ∈ p.terms, 0 ≤ t.exponent) :
    let finder : RootFinder := ⟨n.refine, policy, fn⟩
    (∃ xs ys, finder.roots p = .ok xs ∧ finder.roots p.negate = .ok ys ∧
      List.Forall₂ Agree ys (if p.degree.toInt = 2 then xs.reverse else xs)) ∧
    ∃ slope slope', p.derivative = .ok slope ∧ p.negate.derivative = .ok slope' ∧
      ∀ lower upper,
        (∃ us vs, finder.maxima slope' lower upper = .ok us ∧
          finder.minima slope lower upper = .ok vs ∧ SameValues us vs) ∧
        ∃ us vs, finder.minima slope' lower upper = .ok us ∧
          finder.maxima slope lower upper = .ok vs ∧ SameValues us vs := by
  intro finder
  have hodd : finder.refine.Odd := n.odd_refine
  have hnonneg : ∀ t ∈ p.terms, 0 ≤ t.exponent.toInt := fun t ht =>
    Int32.le_iff_toInt_le.1 (hnonneg t ht)
  have hlowers : p.Lowers (2 ^ 31 - 1 + 1) := fun t ht => by
    have := hnonneg t ht
    push_cast
    omega
  have hopposite := Poly.opposite_negate hp hnonneg
  obtain ⟨slope, hslope, -, hslowers, -⟩ := hlowers.exists_derivative hp
  obtain ⟨slope', hslope', hslopes⟩ := hopposite.derivative hslope
  exact ⟨finder.agree_roots hodd hfn hopposite (hlowers.mono (by omega)), slope, slope', hslope,
    hslope', finder.sameValues_extrema hodd hfn hslopes hslowers⟩

/-- The root of `x ^ 3 - 3 x - 8.125` is that of its negation, and the minimum of the one at `1` is
the maximum of the other.  The cube roots that occur are those of `8` and `0.125`. -/
theorem roots_extrema_negate_cubic :
    let fn : Elementary := ⟨fun x => if x.abs == 8.0 then x / 4.0 else x * 4.0, id, id, id⟩
    let finder : RootFinder := ⟨Newton.standard.refine, .standard, fn⟩
    let p := Poly.ofTerms [⟨1.0, 3⟩, ⟨-3.0, 1⟩, ⟨-8.125, 0⟩]
    fn.Symmetric ∧ (∃ ys, finder.roots p.negate = .ok ys ∧ List.Forall₂ Agree ys [2.5]) ∧
    ∃ slope, p.negate.derivative = .ok slope ∧
      ∃ us, finder.maxima slope none none = .ok us ∧ SameValues us [1.0] := by
  intro fn finder p
  have hfn : fn.Symmetric := by
    refine ⟨fun x y h => ?_, fun _ _ h => h, fun _ _ h => h, fun _ _ h => h⟩
    have hsize : (x.abs == 8.0) = (y.abs == 8.0) := by
      rw [h.abs.beq (.refl 8.0), abs_neg_float]
    have hquarter := h.div 4.0
    rw [neg_div_float] at hquarter
    have htimes := h.mul (.refl 4.0)
    rw [neg_mul] at htimes
    show Agree (if (x.abs == 8.0) = true then _ else _) (-(if (y.abs == 8.0) = true then _ else _))
    rw [hsize]
    split_ifs
    · exact hquarter
    · exact htimes
  have hdegree : p.degree.toInt ≠ 2 := by decide
  have hroot : (finder.roots p).toOption = some [2.5] := by decide +kernel
  have hminimum : (do finder.minima (← p.derivative) none none).toOption = some [1.0] := by
    decide +kernel
  obtain ⟨⟨xs, ys, hxs, hys, hroots⟩, slope, slope', hslope, hslope', hextrema⟩ :=
    roots_extrema_negate (p := p) hfn .standard .standard (Poly.valid_ofTerms _) (by decide)
  obtain ⟨⟨us, vs, hus, hvs, hsame⟩, -⟩ := hextrema none none
  rw [hxs] at hroot
  obtain rfl := Option.some.inj hroot
  rw [if_neg hdegree] at hroots
  rw [hslope] at hminimum
  have hvs' : (finder.minima slope none none).toOption = some [1.0] := hminimum
  rw [hvs] at hvs'
  obtain rfl := Option.some.inj hvs'
  exact ⟨hfn, ⟨ys, hys, hroots⟩, slope', hslope', us, hus, hsame⟩

end RootFinder

end SparsePoly
