import Mathlib
import SparsePoly.Proofs.Binary64.Monotone
import SparsePoly.Proofs.Binary64.Sorted
import SparsePoly.Proofs.Poly.Reachable
import SparsePoly.Proofs.Roots.Separated

/-!
# Guesses between the critical points

Without guesses from outside, the search makes its own from the critical points.  In the list of
these guesses and the sorted finite critical points in turn each number is at most the next
(`Interlaced`), because rounding keeps the order: the midpoint of two neighbours lies between them,
and the outer guesses lie beyond the outer points.  Points of at most half the largest double
(`Moderate`) have neither an infinite midpoint nor an infinite outer guess.
-/

namespace SparsePoly

open Binary64

/-! ## Interlaced lists -/

/-- The numbers of both lists in turn, the first list with one more: each is at most the next. -/
inductive Interlaced : List Float → List Float → Prop
  | one (g : Float) : Interlaced [g] []
  | cons {g c g' : Float} {gs cs : List Float} (hg : g ≤ c) (hc : c ≤ g')
      (h : Interlaced (g' :: gs) cs) : Interlaced (g :: g' :: gs) (c :: cs)

variable {guesses points : List Float}

theorem Interlaced.length_eq (h : Interlaced guesses points) :
    guesses.length = points.length + 1 := by
  induction h with
  | one g => rfl
  | cons hg hc h ih => rw [List.length_cons, ih, List.length_cons]

/-- The list with one more is sorted. -/
theorem Interlaced.pairwise (h : Interlaced guesses points)
    (hguesses : ∀ g ∈ guesses, g.isFinite = true) (hpoints : ∀ c ∈ points, c.isFinite = true) :
    guesses.Pairwise (· ≤ ·) := by
  induction h with
  | one g => exact List.pairwise_singleton _ g
  | @cons g c g' gs cs hg hc h ih =>
    obtain ⟨hgf, hgs⟩ := List.forall_mem_cons.1 hguesses
    obtain ⟨hcf, hcs⟩ := List.forall_mem_cons.1 hpoints
    have hsorted := ih hgs hcs
    obtain ⟨hg', hgs'⟩ := List.forall_mem_cons.1 hgs
    have hle : g ≤ g' := le_trans_of_isFinite hgf hcf hg' hg hc
    refine List.pairwise_cons.2 ⟨fun x hx => ?_, hsorted⟩
    rcases List.mem_cons.1 hx with rfl | hx
    · exact hle
    · exact le_trans_of_isFinite hgf hg' (hgs' x hx) hle (List.rel_of_pairwise_cons hsorted hx)

namespace RootFinder

/-! ## Points -/

/-- A finite double of at most half the largest size. -/
structure Moderate (x : Float) : Prop where
  finite : x.isFinite = true
  le : |toRat x| ≤ largest / 2

variable {x y : Float}

theorem Moderate.abs_sum_le (hx : Moderate x) (hy : Moderate y) :
    |toRat x + toRat y| ≤ largest := by
  linarith [abs_add_le (toRat x) (toRat y), hx.le, hy.le]

theorem toRat_guessOffset_pos : 0 < toRat guessOffset := by
  have h := (lt_iff_toRat (x := 0.0) (y := guessOffset) (by decide) (by decide)).1 (by decide)
  rwa [(isInt_zero_of_beq (x := 0.0) (by decide)).toRat_eq, Int.cast_zero] at h

theorem moderate_guessOffset : Moderate guessOffset := by
  have hone : IsInt 1.0 1 := isInt_of_isNat (by decide)
  have h := (lt_iff_toRat (x := guessOffset) (by decide) hone.finite).1 (by decide)
  rw [hone.toRat_eq, Int.cast_one] at h
  refine ⟨by decide, ?_⟩
  rw [abs_of_pos toRat_guessOffset_pos]
  linarith [two_le_largest]

theorem Moderate.neg (h : Moderate x) : Moderate (-x) :=
  ⟨by rw [isFinite_neg, h.finite], by rw [toRat_neg, abs_neg]; exact h.le⟩

/-- The outer guesses are finite and lie beyond the outer points. -/
theorem Moderate.sub_guessOffset_le (hx : Moderate x) :
    (x - guessOffset).isFinite = true ∧ x - guessOffset ≤ x := by
  have h := hx.abs_sum_le moderate_guessOffset.neg
  rw [sub_eq_add_neg_float]
  obtain ⟨hfinite, hvalue⟩ := toRat_add_of_le_largest hx.finite moderate_guessOffset.neg.finite h
  refine ⟨hfinite, ?_⟩
  rw [le_iff_toRat hfinite hx.finite, hvalue, toRat_neg]
  exact rounded_le_toRat (by linarith [toRat_guessOffset_pos])

theorem Moderate.le_add_guessOffset (hx : Moderate x) :
    (x + guessOffset).isFinite = true ∧ x ≤ x + guessOffset := by
  have h := hx.abs_sum_le moderate_guessOffset
  obtain ⟨hfinite, hvalue⟩ := toRat_add_of_le_largest hx.finite moderate_guessOffset.finite h
  refine ⟨hfinite, ?_⟩
  rw [le_iff_toRat hx.finite hfinite, hvalue]
  exact toRat_le_rounded (by linarith [toRat_guessOffset_pos])

/-! ## Midpoints -/

theorem isFinite_of_mem_midpoints : ∀ {points : List Float}, (∀ c ∈ points, Moderate c) →
    ∀ g ∈ midpoints points, g.isFinite = true
  | [], _ | [_], _ => by simp [midpoints]
  | a :: b :: rest, h => by
    obtain ⟨ha, hrest⟩ := List.forall_mem_cons.1 h
    have hb := hrest b (by simp)
    refine List.forall_mem_cons.2 ⟨?_, isFinite_of_mem_midpoints hrest⟩
    exact (toRat_midpoint ha.finite hb.finite (ha.abs_sum_le hb)).1

/-- The midpoints are the exact ones, rounded. -/
theorem map_toRat_midpoints : ∀ {points : List Float}, (∀ c ∈ points, Moderate c) →
    (midpoints points).map toRat =
      List.zipWith (fun a b => rounded ((toRat a + toRat b) / 2)) points points.tail
  | [], _ | [_], _ => rfl
  | a :: b :: rest, h => by
    obtain ⟨ha, hrest⟩ := List.forall_mem_cons.1 h
    have hb := hrest b (by simp)
    rw [midpoints, List.map_cons, map_toRat_midpoints hrest,
      (toRat_midpoint ha.finite hb.finite (ha.abs_sum_le hb)).2]
    rfl

/-- The midpoints of sorted points lie between them. -/
theorem interlaced_midpoints : ∀ {c g last : Float} {cs : List Float},
    (∀ x ∈ c :: cs, Moderate x) → (c :: cs).Pairwise (· ≤ ·) → g ≤ c →
    (c :: cs).getLast (List.cons_ne_nil _ _) ≤ last →
    Interlaced (g :: (midpoints (c :: cs) ++ [last])) (c :: cs)
  | c, g, last, [], _, _, hg, hlast => .cons hg hlast (.one last)
  | c, g, last, d :: cs, h, hsorted, hg, hlast => by
    obtain ⟨hc, hrest⟩ := List.forall_mem_cons.1 h
    have hd := hrest d (by simp)
    obtain ⟨hle, hsorted⟩ := List.pairwise_cons.1 hsorted
    -- the midpoint ends the bracket of `c` and is the guess in front of the other points
    obtain ⟨hleft, hright⟩ :=
      midpoint_between hc.finite hd.finite (hc.abs_sum_le hd) (hle d (by simp))
    exact .cons hg hleft (interlaced_midpoints hrest hsorted hright hlast)

/-! ## Guesses -/

/-- The guesses are finite and sorted, one before the first point, one after the last and one
between each pair of neighbours, which is their rounded midpoint. -/
structure Brackets (guesses points : List Float) : Prop where
  length : guesses.length = points.length + 1
  finite : ∀ g ∈ guesses, g.isFinite = true
  sorted : guesses.Pairwise (· ≤ ·)
  interlaced : Interlaced guesses points
  first : guesses.head? = points.head?.map (· - guessOffset)
  last : guesses.getLast? = points.getLast?.map (· + guessOffset)
  inner : guesses.tail.dropLast.map toRat =
    List.zipWith (fun a b => rounded ((toRat a + toRat b) / 2)) points points.tail

/-- The finite critical points in order. -/
def finitePoints (critical : List Float) : List Float := sorted (critical.filter Float.isFinite)

theorem bracketGuesses_of_nil {critical : List Float} (h : finitePoints critical = []) :
    bracketGuesses critical = [0.0] := by
  unfold finitePoints at h
  rw [bracketGuesses, h]
  rfl

theorem bracketGuesses_of_cons {critical cs : List Float} {c : Float}
    (h : finitePoints critical = c :: cs) :
    bracketGuesses critical = (c - guessOffset) ::
      (midpoints (c :: cs) ++ [(c :: cs).getLast (List.cons_ne_nil _ _) + guessOffset]) := by
  have hlast := List.getLast?_eq_some_getLast (List.cons_ne_nil c cs)
  unfold finitePoints at h
  simp only [bracketGuesses, h, List.head?_cons, hlast]

theorem pairwise_finitePoints (critical : List Float) :
    (finitePoints critical).Pairwise (· ≤ ·) :=
  pairwise_le_sorted fun _ hx => (List.mem_filter.1 hx).2

theorem brackets_bracketGuesses {critical : List Float}
    (h : ∀ c ∈ finitePoints critical, Moderate c) (hne : finitePoints critical ≠ []) :
    Brackets (bracketGuesses critical) (finitePoints critical) := by
  have hsorted := pairwise_finitePoints critical
  obtain ⟨c, cs, hpoints⟩ := List.exists_cons_of_ne_nil hne
  rw [bracketGuesses_of_cons hpoints]
  rw [hpoints] at h hsorted ⊢
  have hlast := h _ (List.getLast_mem (List.cons_ne_nil c cs))
  obtain ⟨hfirst, hfirstLe⟩ := (h c (by simp)).sub_guessOffset_le
  obtain ⟨hfinal, hfinalLe⟩ := hlast.le_add_guessOffset
  have hinterlaced := interlaced_midpoints h hsorted hfirstLe hfinalLe
  have hfinite : ∀ g ∈ (c - guessOffset) :: (midpoints (c :: cs) ++
      [(c :: cs).getLast (List.cons_ne_nil _ _) + guessOffset]), g.isFinite = true := by
    refine List.forall_mem_cons.2 ⟨hfirst, List.forall_mem_append.2 ⟨?_, ?_⟩⟩
    · exact isFinite_of_mem_midpoints h
    · exact List.forall_mem_singleton.2 hfinal
  refine ⟨hinterlaced.length_eq, hfinite, ?_, hinterlaced, rfl, ?_, ?_⟩
  · exact hinterlaced.pairwise hfinite fun x hx => (h x hx).finite
  · rw [← List.cons_append, List.getLast?_concat,
      List.getLast?_eq_some_getLast (List.cons_ne_nil c cs), Option.map_some]
  · rw [List.tail_cons, List.dropLast_concat, map_toRat_midpoints h]

theorem bracketGuesses_ne_nil (critical : List Float) : bracketGuesses critical ≠ [] := by
  cases h : finitePoints critical with
  | nil =>
    rw [bracketGuesses_of_nil h]
    exact List.cons_ne_nil _ _
  | cons c cs =>
    rw [bracketGuesses_of_cons h]
    exact List.cons_ne_nil _ _

variable {p : Poly}

/-- From degree five on, once the critical points are there, the polynomial is refined from one
guess in each bracket: from zero alone if no critical point is finite, and otherwise from guesses
that interlace with the sorted finite critical points, the inner ones being rounded midpoints.
Refining from the same guesses given from outside leads to the same roots. -/
theorem roots_bracketed (finder : RootFinder) (hp : p.Valid) (hd : 5 ≤ p.degree.toInt)
    {critical : List Float} (hcritical : finder.criticalPoints p = .ok critical)
    (hhalf : ∀ c ∈ critical, c.isFinite = true → |toRat c| ≤ largest / 2) :
    (finitePoints critical).Perm (critical.filter Float.isFinite) ∧
      (finitePoints critical).Pairwise (· ≤ ·) ∧
      (finitePoints critical = [] → bracketGuesses critical = [0.0]) ∧
      (finitePoints critical ≠ [] →
        Brackets (bracketGuesses critical) (finitePoints critical)) ∧
      ∃ slope, p.derivative = .ok slope ∧
        finder.roots p = .ok (finder.refineAll p slope (bracketGuesses critical)) ∧
        finder.rootsFrom p (bracketGuesses critical) = finder.roots p := by
  have hmoderate : ∀ c ∈ finitePoints critical, Moderate c := by
    intro c hc
    obtain ⟨hmem, hfinite⟩ := List.mem_filter.1 ((perm_sorted _).mem_iff.1 hc)
    exact ⟨hfinite, hhalf c hmem hfinite⟩
  obtain ⟨slope, hslope, -⟩ := bind_eq_ok.1 hcritical
  have hroots : finder.roots p = .ok (finder.refineAll p slope (bracketGuesses critical)) := by
    rw [finder.roots_eq hp hd, hslope, hcritical]
    rfl
  refine ⟨perm_sorted _, pairwise_finitePoints critical, bracketGuesses_of_nil,
    brackets_bracketGuesses hmoderate, slope, hslope, hroots, ?_⟩
  rw [hroots, finder.rootsFrom_eq hd (bracketGuesses_ne_nil critical), hslope]
  rfl

/-- The guesses for `x ^ 7`, of which a refiner that turns signs finds the critical points in
descending order. -/
theorem roots_bracketed_septic :
    let p := Poly.ofTerms [⟨1.0, 7⟩]
    let policy : SnapPolicy := ⟨0.0, by decide, by decide⟩
    let finder : RootFinder := ⟨fun _ _ x => .ok (-x), policy, ⟨id, id, id, id⟩⟩
    finder.criticalPoints p = .ok [0.1, -0.1] ∧ finitePoints [0.1, -0.1] = [-0.1, 0.1] ∧
      bracketGuesses [0.1, -0.1] = [-0.2, 0.0, 0.2] ∧ Brackets [-0.2, 0.0, 0.2] [-0.1, 0.1] ∧
      ∃ slope, p.derivative = .ok slope ∧
        finder.roots p = .ok (finder.refineAll p slope [-0.2, 0.0, 0.2]) := by
  intro p policy finder
  have hcritical : finder.criticalPoints p = .ok [0.1, -0.1] := by decide +kernel
  have hpoints : finitePoints [0.1, -0.1] = [-0.1, 0.1] := by
    rw [finitePoints, show [0.1, -0.1].filter Float.isFinite = [0.1, -0.1] by decide]
    exact sorted_eq (by decide) (by decide)
  have hguesses : bracketGuesses [0.1, -0.1] = [-0.2, 0.0, 0.2] := by
    rw [bracketGuesses_of_cons hpoints]
    decide
  have hhalf : ∀ c ∈ [0.1, -0.1], c.isFinite = true → |toRat c| ≤ largest / 2 := by
    simp only [List.forall_mem_cons]
    exact ⟨fun _ => moderate_guessOffset.le, fun _ => moderate_guessOffset.neg.le, by simp⟩
  obtain ⟨-, -, -, hbrackets, slope, hslope, hroots, -⟩ :=
    roots_bracketed finder (Poly.valid_ofTerms _) (by decide) hcritical hhalf
  rw [hguesses] at hbrackets hroots
  rw [hpoints] at hbrackets
  exact ⟨hcritical, hpoints, hguesses, hbrackets (List.cons_ne_nil _ _), slope, hslope, hroots⟩

end RootFinder

end SparsePoly
