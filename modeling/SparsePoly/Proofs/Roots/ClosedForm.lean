import Mathlib
import SparsePoly.Proofs.Binary64.Opposite
import SparsePoly.Roots.ClosedForm

/-!
# Closed forms and signs

The roots of a polynomial are those of the polynomial with the opposite coefficients.  The formulas
give the same numbers for both, the quadratic one in the other order (`solveLinear_neg`,
`solveQuadratic_neg`, `solveCubic_neg`).  Beside that they do not tell the two zeros apart as
coefficients (`solveCubic_agree`, `solveQuartic_agree`): the leading coefficient, by which they
divide, is the same.
-/

namespace SparsePoly

open Binary64

/-- The symmetry of the library functions that the formulas rely on.  The cube root is odd, and none
of the functions tells the two zeros apart. -/
structure Elementary.Symmetric (fn : Elementary) : Prop where
  cbrt : ∀ x y, Agree x (-y) → Agree (fn.cbrt x) (-fn.cbrt y)
  acos : ∀ x y, Agree x y → Agree (fn.acos x) (fn.acos y)
  cos : ∀ x y, Agree x y → Agree (fn.cos x) (fn.cos y)
  sin : ∀ x y, Agree x y → Agree (fn.sin x) (fn.sin y)

namespace Elementary

variable {fn : Elementary} {x y : Float}

theorem Symmetric.cbrt_congr (h : fn.Symmetric) (hxy : Agree x y) :
    Agree (fn.cbrt x) (fn.cbrt y) := by
  have h₁ := h.cbrt x (-y) (by rwa [neg_neg])
  have h₂ := (h.cbrt (-y) y (.refl _)).neg
  rw [neg_neg] at h₂
  exact h₁.trans h₂

end Elementary

namespace ClosedForm

variable {fn : Elementary} {a b b' c c' d d' e e' f f' g g' h shift shift' root root' : Float}

/-- Which of the three cases applies depends only on `f`, `g` and `h` up to the sign of zero. -/
theorem solveCubic_agree (hfn : fn.Symmetric) (a : Float) (hb : Agree b b') (hc : Agree c c')
    (hd : Agree d d') :
    List.Forall₂ Agree (solveCubic fn a b c d) (solveCubic fn a b' c' d') := by
  unfold solveCubic
  extract_lets f g h shift s u i j k m n f' g' h' shift' s' u' i' j' k' m' n'
  have hf : Agree f f' :=
    ((((Agree.refl 3.0).mul hc).div a).sub ((hb.mul hb).div (a * a))).div 3.0
  have hg : Agree g g' := by
    have h₁ := ((Agree.refl 2.0).mul (hb.pow (n := 3) (by decide))).div (pow a 3)
    have h₂ := (((Agree.refl 9.0).mul hb).mul hc).div (a * a)
    have h₃ := ((Agree.refl 27.0).mul hd).div a
    exact ((h₁.sub h₂).add h₃).div 27.0
  have hsquare : g * g / 4.0 = g' * g' / 4.0 := by rw [mul_self_congr hg]
  -- a square is not `-0`, so the discriminants are the same
  have hh : h = h' := by
    have hcube := (hf.pow (n := 3) (by decide)).div 27.0
    show g * g / 4.0 + pow f 3 / 27.0 = g' * g' / 4.0 + pow f' 3 / 27.0
    rw [hsquare]
    refine add_congr_right hcube ?_
    rw [abs_div_float, abs_mul_self_float]
    rfl
  have hi : i = i' := by
    show (g * g / 4.0 - h).sqrt = (g' * g' / 4.0 - h').sqrt
    rw [hsquare, hh]
  have hj : j = j' := congrArg fn.cbrt hi
  have hshift : Agree shift shift' := hb.div (3.0 * a)
  have hk : Agree k k' := by
    refine hfn.acos _ _ (Agree.clampUnit (Agree.neg ?_))
    rw [hi]
    exact hg.div (2.0 * i')
  have hm : Agree m m' := hfn.cos _ _ (hk.div 3.0)
  have hn : Agree n n' := (Agree.refl _).mul (hfn.sin _ _ (hk.div 3.0))
  rw [hh, hj, hf.beq (.refl 0.0), hg.beq (.refl 0.0)]
  split_ifs
  · have hs : Agree s s' := by
      refine hfn.cbrt_congr ((hg.div 2.0).neg.add ?_)
      rw [hh]
      exact .refl _
    have hu : Agree u u' := by
      refine hfn.cbrt_congr ((hg.div 2.0).neg.sub ?_)
      rw [hh]
      exact .refl _
    exact .cons ((hs.add hu).sub hshift) .nil
  · have hroot := (hfn.cbrt_congr (hd.div a)).neg
    exact .cons hroot (.cons hroot (.cons hroot .nil))
  · have hleft := ((Agree.refl (2.0 * j')).mul hm).sub hshift
    have hmiddle := ((Agree.refl (-j')).mul (hm.add hn)).sub hshift
    have hright := ((Agree.refl (-j')).mul (hm.sub hn)).sub hshift
    exact .cons hleft (.cons hmiddle (.cons hright .nil))

theorem solveCubic_neg (fn : Elementary) (a b c d : Float) :
    solveCubic fn (-a) (-b) (-c) (-d) = solveCubic fn a b c d := by
  simp [solveCubic, pow_neg_three]

theorem solveLinear_neg (a b : Float) : solveLinear (-a) (-b) = solveLinear a b := by
  simp [solveLinear]

theorem solveLinear_agree (a : Float) (hb : Agree b b') :
    List.Forall₂ Agree (solveLinear a b) (solveLinear a b') :=
  .cons (hb.neg.div a) .nil

theorem solveQuadratic_agree (a : Float) (hb : Agree b b') (hc : Agree c c') :
    List.Forall₂ Agree (solveQuadratic a b c) (solveQuadratic a b' c') := by
  have hroot := ((hb.mul hb).sub ((Agree.refl (4.0 * a)).mul hc)).sqrt
  exact .cons ((hb.neg.add hroot).div (2.0 * a)) (.cons ((hb.neg.sub hroot).div (2.0 * a)) .nil)

/-- The quadratic polynomial with the opposite coefficients has the same two roots in the other
order. -/
theorem solveQuadratic_neg (a b c : Float) :
    List.Forall₂ Agree (solveQuadratic (-a) (-b) (-c)) (solveQuadratic a b c).reverse := by
  unfold solveQuadratic
  simp only [mul_neg, neg_mul, neg_neg, div_neg_float, List.reverse_cons,
    List.reverse_nil, List.nil_append, List.singleton_append]
  set root := (b * b - 4.0 * a * c).sqrt
  have hplus : Agree (-((b + root) / (2.0 * a))) ((-b - root) / (2.0 * a)) := by
    rw [← neg_div_float]
    exact (agree_neg_sub b root).symm.div _
  have hminus : Agree (-((b - root) / (2.0 * a))) ((-b + root) / (2.0 * a)) := by
    have h := (agree_neg_add b (-root)).symm.div (2.0 * a)
    rwa [neg_neg, neg_div_float, ← sub_eq_add_neg_float] at h
  exact .cons hplus (.cons hminus .nil)

/-- The roots of the resolvent that are not zero are the same. -/
theorem filter_ne_zero_congr {xs ys : List Float} (h : List.Forall₂ Agree xs ys) :
    xs.filter (· != 0.0) = ys.filter (· != 0.0) := by
  induction h with
  | nil => rfl
  | @cons x y xs ys hxy _ ih =>
    rw [List.filter_cons, List.filter_cons, ih]
    rcases hxy with rfl | ⟨hx, hy⟩
    · rfl
    · simp [bne, hx, hy]

theorem forall₂_agree_snapAll (policy : SnapPolicy) {xs ys : List Float}
    (h : List.Forall₂ Agree xs ys) :
    List.Forall₂ Agree (policy.snapAll xs) (policy.snapAll ys) :=
  List.rel_map (fun _ _ hxy => hxy.snap policy) h

theorem solveQuartic_agree (hfn : fn.Symmetric) (policy : SnapPolicy) (hb : Agree b b')
    (hc : Agree c c') (hd : Agree d d') (he : Agree e e') :
    List.Forall₂ Agree (solveQuartic fn policy b c d e) (solveQuartic fn policy b' c' d' e') := by
  unfold solveQuartic
  extract_lets f g h resolvent s f' g' h' resolvent' s'
  have hf : Agree f f' :=
    hc.sub ((((Agree.refl 3.0).mul hb).mul hb).div 8.0)
  have hg : Agree g g' :=
    (hd.add ((hb.pow (n := 3) (by decide)).div 8.0)).sub ((hb.mul hc).div 2.0)
  have hh : Agree h h' := by
    have h₁ := ((Agree.refl 3.0).mul (hb.pow (n := 4) (by decide))).div 256.0
    have h₂ := (hb.mul hb).mul (hc.div 16.0)
    exact ((he.sub h₁).add h₂).sub ((hb.mul hd).div 4.0)
  have hresolvent : List.Forall₂ Agree resolvent resolvent' := by
    refine forall₂_agree_snapAll policy (solveCubic_agree hfn 1.0 (hf.div 2.0) ?_ ?_)
    · exact ((hf.mul hf).sub ((Agree.refl 4.0).mul hh)).div 16.0
    · exact (hg.mul hg).neg.div 64.0
  rw [filter_ne_zero_congr hresolvent]
  split
  · next p q rest _ =>
    have hr := hg.neg.div (8.0 * p * q)
    have hs : Agree s s' := hb.div 4.0
    exact .cons (((Agree.refl (p + q)).add hr).sub hs) (.cons (((Agree.refl (p - q)).sub hr).sub hs)
      (.cons (((Agree.refl (-p + q)).sub hr).sub hs)
        (.cons (((Agree.refl (-p - q)).add hr).sub hs) .nil)))
  · exact .nil

end ClosedForm

end SparsePoly
