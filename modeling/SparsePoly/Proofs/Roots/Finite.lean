import Mathlib
import SparsePoly.Proofs.Poly.Reachable
import SparsePoly.Proofs.Roots.Count
import SparsePoly.Proofs.Roots.Newton
import SparsePoly.Proofs.Roots.Separated

/-!
# Newton's method finds finite roots

A polynomial with a positive exponent has no finite value at an infinity or a NaN, whatever its
coefficients and its other exponents are (`isFinite_of_eval`), and so no zero there.  Newton's
method gives back a guess only where the function is zero, and goes on to finite points only.  So
from degree five on the roots that are refined by it are finite (`roots_finite`), although the
guesses may be anything.
-/

namespace SparsePoly

open Binary64

/-! ## Values -/

namespace Poly

variable {p : Poly} {x : Float}

theorem isFinite_of_eval {t : Term} (ht : t ∈ p.terms) (he : 0 < t.exponent.toInt)
    (h : (p.eval x).isFinite = true) : x.isFinite = true := by
  have hvalue : (t.eval x).isFinite = true :=
    (isFinite_of_foldl_add h).2 _ (List.mem_map_of_mem ht)
  exact isFinite_of_pow he (isFinite_of_mul hvalue).2

/-- A polynomial of a degree above zero has its leading term. -/
theorem exists_exponent_eq_degree (h : 0 < p.degree.toInt) :
    ∃ t ∈ p.terms, t.exponent = p.degree := by
  unfold degree leadingTerm? at h ⊢
  cases hts : p.terms with
  | nil =>
    rw [hts] at h
    exact absurd h (by decide)
  | cons t ts => exact ⟨t, by simp, rfl⟩

/-- The zeros of a polynomial of a degree above zero are finite. -/
theorem isFinite_of_eval_beq_zero (hd : 0 < p.degree.toInt) (h : (p.toFunction x == 0.0) = true) :
    x.isFinite = true := by
  obtain ⟨t, ht, hexponent⟩ := exists_exponent_eq_degree hd
  exact isFinite_of_eval ht (by rwa [hexponent]) (isInt_zero_of_beq h).finite

end Poly

/-! ## Roots -/

/-- Newton's method finds finite roots of a function that has no other zeros. -/
theorem Newton.isFinite_of_refine {n : Newton} {f df : Float → Float} {guess r : Float}
    (hzero : ∀ x, (f x == 0.0) = true → x.isFinite = true) (h : n.refine f df guess = .ok r) :
    r.isFinite = true := by
  obtain ⟨k, -, -, ⟨hvalue, -⟩ | hlast⟩ := refine_eq_ok_iff.1 h
  · exact hzero r hvalue
  · exact hlast.finite

/-- The computation gives finite numbers, unless an exponent overflows. -/
def GivesFinite (x : Except Error (List Float)) : Prop :=
  ¬ Overflows x → ∃ xs, x = .ok xs ∧ ∀ r ∈ xs, r.isFinite = true

theorem AtMost.givesFinite {m : ℤ} {x : Except Error (List Float)} (h : AtMost m x)
    (hfinite : ∀ xs, x = .ok xs → ∀ r ∈ xs, r.isFinite = true) : GivesFinite x := by
  intro hx
  obtain ⟨xs, hxs, -⟩ := h hx
  exact ⟨xs, hxs, hfinite xs hxs⟩

namespace RootFinder

variable {p slope : Poly} {guesses : List Float}

/-- A root comes from a guess that was refined. -/
theorem exists_refine_of_mem {finder : RootFinder} {r : Float}
    (hr : r ∈ finder.refineAll p slope guesses) :
    ∃ guess ∈ guesses, ∃ root, finder.refine p.toFunction slope.toFunction guess = .ok root ∧
      r = finder.policy.snap root := by
  obtain ⟨root, hroot, rfl⟩ := List.mem_map.1 ((finder.refineAll_sublist p slope guesses).subset hr)
  obtain ⟨guess, hguess, hsome⟩ := List.mem_filterMap.1 hroot
  refine ⟨guess, hguess, root, ?_, rfl⟩
  cases h : finder.refine p.toFunction slope.toFunction guess with
  | ok y => rw [h] at hsome; exact congrArg _ (Option.some.inj hsome)
  | error e => rw [h] at hsome; cases hsome

theorem isFinite_of_mem_refineAll {n : Newton} {policy : SnapPolicy} {fn : Elementary}
    (hd : 0 < p.degree.toInt) {r : Float}
    (hr : r ∈ refineAll ⟨n.refine, policy, fn⟩ p slope guesses) : r.isFinite = true := by
  obtain ⟨guess, -, root, hroot, rfl⟩ := exists_refine_of_mem hr
  rw [isFinite_snap]
  exact Newton.isFinite_of_refine (fun x => p.isFinite_of_eval_beq_zero hd) hroot

/-- From degree five on all roots that are refined by Newton's method are finite, those from the
automatic guesses and those from given guesses, which may be infinite or not a number.  The
coefficients, the tolerance and the number of iterations do not matter. -/
theorem roots_finite (n : Newton) (policy : SnapPolicy) (fn : Elementary) (hp : p.Valid)
    (hd : 5 ≤ p.degree.toInt) :
    let finder : RootFinder := ⟨n.refine, policy, fn⟩
    GivesFinite (finder.roots p) ∧ ∀ guesses, GivesFinite (finder.rootsFrom p guesses) := by
  intro finder
  have hroots : GivesFinite (finder.roots p) := by
    refine (atMost_roots hp finder).givesFinite fun xs hxs => ?_
    rw [finder.roots_eq hp hd] at hxs
    obtain ⟨slope, -, hxs⟩ := bind_eq_ok.1 hxs
    obtain ⟨critical, -, hxs⟩ := bind_eq_ok.1 hxs
    rw [← Except.ok.inj hxs]
    exact fun r => isFinite_of_mem_refineAll (by omega)
  refine ⟨hroots, fun guesses => ?_⟩
  by_cases hg : guesses = []
  · rw [hg]
    exact hroots
  · refine (finder.atMost_rootsFrom hd hg).givesFinite fun xs hxs => ?_
    rcases finder.rootsFrom_cases hd with ⟨-, herror⟩ | ⟨slope, -, hok⟩
    · rw [herror guesses hg] at hxs
      cases hxs
    · rw [← Except.ok.inj ((hok guesses hg).symm.trans hxs)]
      exact fun r => isFinite_of_mem_refineAll (by omega)

/-- The roots of `x ^ 5 + ∞ x ^ -1 + NaN`, also from guesses that are not finite. -/
theorem roots_finite_nan :
    let p := Poly.ofTerms [⟨1.0, 5⟩, ⟨nan, 0⟩, ⟨infinity, -1⟩]
    let finder : RootFinder := ⟨Newton.standard.refine, .standard, .system⟩
    (∃ xs, finder.roots p = .ok xs ∧ ∀ r ∈ xs, r.isFinite = true) ∧
      ∃ xs, finder.rootsFrom p [nan, infinity, 0.0] = .ok xs ∧ ∀ r ∈ xs, r.isFinite = true := by
  intro p finder
  have hp : p.Valid := Poly.valid_ofTerms _
  obtain ⟨⟨xs, hxs, -⟩, hguesses, -⟩ := roots_total hp (by decide) finder
  obtain ⟨ys, hys⟩ := hguesses [nan, infinity, 0.0]
  obtain ⟨hroots, hfrom⟩ := roots_finite .standard .standard .system hp (by decide)
  exact ⟨hroots (not_overflows_of_ok hxs), hfrom _ (not_overflows_of_ok hys)⟩

end RootFinder

end SparsePoly
