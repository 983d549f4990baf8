import Mathlib
import SparsePoly.Proofs.Binary64.Value

/-!
# Doubles up to the sign of zero

Two doubles agree (`Agree`) if they are the same or both are zeros.  Comparisons do not tell numbers
that agree apart, and the operations keep what agrees (`Agree.add`, `Agree.mul`), a division only in
its numerator (`Agree.div`), because a quotient by zero has the sign of the zero.
-/

open Float.Model Float.Model.UnpackedFloat

namespace SparsePoly.Binary64

/-- The doubles are the same, or both are zeros. -/
def Agree (x y : Float) : Prop := x = y ∨ (x == 0.0) = true ∧ (y == 0.0) = true

@[simp] theorem Agree.refl (x : Float) : Agree x x := Or.inl rfl

theorem Agree.symm {x y : Float} (h : Agree x y) : Agree y x := by
  rcases h with rfl | ⟨hx, hy⟩
  · exact Or.inl rfl
  · exact Or.inr ⟨hy, hx⟩

theorem Agree.trans {x y z : Float} (h₁ : Agree x y) (h₂ : Agree y z) : Agree x z := by
  rcases h₁ with rfl | ⟨hx, hy⟩
  · exact h₂
  · rcases h₂ with rfl | ⟨-, hz⟩
    · exact Or.inr ⟨hx, hy⟩
    · exact Or.inr ⟨hx, hz⟩

/-- A zero of either sign is neutral before any other number. -/
theorem zero_add_of_ne {x c : Float} (hx : (x == 0.0) = true) (hc : (c == 0.0) = false) :
    x + c = c := by
  obtain ⟨s, hs⟩ := beq_zero_iff.1 hx
  have hc' : ∀ t, c.toModel.unpack ≠ .zero t := by
    intro t ht
    rw [beq_zero_iff.2 ⟨t, ht⟩] at hc
    cases hc
  have hadd : Float.Model.UnpackedFloat.add .binary64 x.toModel.unpack c.toModel.unpack =
      c.toModel.unpack := by
    rw [hs]
    cases hu : c.toModel.unpack with
    | zero t => exact absurd hu (hc' t)
    | _ => rfl
  calc x + c = Float.ofModel (.pack (.add .binary64 x.toModel.unpack c.toModel.unpack)) := rfl
    _ = Float.ofModel (.pack c.toModel.unpack) := by rw [hadd]
    _ = c := by rw [pack_unpack]

/-- What agrees before a number is added is the same afterwards. -/
theorem Agree.add_right {x y c : Float} (h : Agree x y) (hc : (c == 0.0) = false) :
    x + c = y + c := by
  rcases h with rfl | ⟨hx, hy⟩
  · rfl
  · rw [zero_add_of_ne hx hc, zero_add_of_ne hy hc]

/-! ## Unpacked doubles -/

/-- The unpacked doubles are the same, or both are zeros. -/
inductive Akin : UnpackedFloat → UnpackedFloat → Prop
  | refl (u : UnpackedFloat) : Akin u u
  | zero (s t : Sign) : Akin (.zero s) (.zero t)

variable {u u' v v' : UnpackedFloat} {x x' y y' : Float}

theorem agree_iff : Agree x y ↔ Akin x.toModel.unpack y.toModel.unpack := by
  constructor
  · rintro (rfl | ⟨hx, hy⟩)
    · exact .refl _
    · obtain ⟨s, hs⟩ := beq_zero_iff.1 hx
      obtain ⟨t, ht⟩ := beq_zero_iff.1 hy
      rw [hs, ht]
      exact .zero s t
  · intro h
    generalize hu : x.toModel.unpack = u at h
    generalize hv : y.toModel.unpack = v at h
    cases h with
    | refl => exact Or.inl (eq_of_unpack_eq (hu.trans hv.symm))
    | zero s t => exact Or.inr ⟨beq_zero_iff.2 ⟨s, hu⟩, beq_zero_iff.2 ⟨t, hv⟩⟩

/-- Packing keeps what is akin. -/
theorem Akin.pack (h : Akin u v) :
    Akin (Float.Model.pack u).unpack (Float.Model.pack v).unpack := by
  cases h with
  | refl => exact .refl _
  | zero s t =>
    rw [unpack_pack_zero, unpack_pack_zero]
    exact .zero s t

theorem Akin.agree (h : Akin u v) (hx : x.toModel = .pack u) (hy : y.toModel = .pack v) :
    Agree x y := by
  rw [agree_iff, hx, hy]
  exact h.pack

theorem Akin.neg (h : Akin u v) : Akin u.neg v.neg := by
  cases h with
  | refl => exact .refl _
  | zero s t => exact .zero _ _

theorem Akin.abs (h : Akin u v) : Akin u.abs v.abs := by
  cases h with
  | refl => exact .refl _
  | zero s t => exact .zero _ _

theorem akin_zero_add (s t : Sign) (h : Akin v v') :
    Akin (UnpackedFloat.add .binary64 (.zero s) v) (UnpackedFloat.add .binary64 (.zero t) v') := by
  cases h with
  | refl =>
    cases v with
    | zero r => cases s <;> cases t <;> cases r <;> exact .zero _ _
    | _ => exact .refl _
  | zero a b => cases s <;> cases t <;> cases a <;> cases b <;> exact .zero _ _

theorem akin_add_zero (s t : Sign) (u : UnpackedFloat) :
    Akin (UnpackedFloat.add .binary64 u (.zero s)) (UnpackedFloat.add .binary64 u (.zero t)) := by
  cases u with
  | zero r => cases s <;> cases t <;> cases r <;> exact .zero _ _
  | _ => exact .refl _

theorem Akin.add (hu : Akin u u') (hv : Akin v v') :
    Akin (UnpackedFloat.add .binary64 u v) (UnpackedFloat.add .binary64 u' v') := by
  cases hu with
  | zero s t => exact akin_zero_add s t hv
  | refl =>
    cases hv with
    | refl => exact .refl _
    | zero s t => exact akin_add_zero s t u

theorem Akin.mul (hu : Akin u u') (hv : Akin v v') :
    Akin (UnpackedFloat.mul .binary64 u v) (UnpackedFloat.mul .binary64 u' v') := by
  cases hu with
  | zero s t =>
    cases hv with
    | zero a b => exact .zero _ _
    | refl => cases v <;> first | exact .zero _ _ | exact .refl _
  | refl =>
    cases hv with
    | refl => exact .refl _
    | zero s t => cases u <;> first | exact .zero _ _ | exact .refl _

theorem Akin.div (h : Akin u u') (v : UnpackedFloat) :
    Akin (UnpackedFloat.div .binary64 u v) (UnpackedFloat.div .binary64 u' v) := by
  cases h with
  | refl => exact .refl _
  | zero s t => cases v <;> first | exact .zero _ _ | exact .refl _

theorem Akin.sqrt (h : Akin u v) :
    Akin (UnpackedFloat.sqrt .binary64 u) (UnpackedFloat.sqrt .binary64 v) := by
  cases h with
  | refl => exact .refl _
  | zero s t => exact .zero _ _

theorem compare_zero (s t : Sign) (v : UnpackedFloat) :
    (UnpackedFloat.zero s).compare v = (UnpackedFloat.zero t).compare v := by
  cases v with
  | infinity r => cases r <;> rfl
  | finite r m e hp => cases r <;> rfl
  | _ => rfl

theorem compare_zero_right (u : UnpackedFloat) (s t : Sign) :
    u.compare (.zero s) = u.compare (.zero t) := by
  cases u with
  | infinity r => cases r <;> rfl
  | finite r m e hp => cases r <;> rfl
  | _ => rfl

theorem Akin.compare (hu : Akin u u') (hv : Akin v v') : u.compare v = u'.compare v' := by
  cases hu with
  | zero s t =>
    cases hv with
    | zero a b => rfl
    | refl => exact compare_zero s t v
  | refl =>
    cases hv with
    | refl => rfl
    | zero s t => exact compare_zero_right u s t

/-! ## Operations and comparisons -/

theorem Agree.neg (h : Agree x y) : Agree (-x) (-y) := (agree_iff.1 h).neg.agree rfl rfl

theorem Agree.abs (h : Agree x y) : Agree x.abs y.abs := (agree_iff.1 h).abs.agree rfl rfl

theorem Agree.add (hx : Agree x x') (hy : Agree y y') : Agree (x + y) (x' + y') :=
  ((agree_iff.1 hx).add (agree_iff.1 hy)).agree rfl rfl

theorem Agree.mul (hx : Agree x x') (hy : Agree y y') : Agree (x * y) (x' * y') :=
  ((agree_iff.1 hx).mul (agree_iff.1 hy)).agree rfl rfl

theorem Agree.div (h : Agree x x') (y : Float) : Agree (x / y) (x' / y) :=
  ((agree_iff.1 h).div y.toModel.unpack).agree rfl rfl

theorem Agree.sqrt (h : Agree x y) : Agree x.sqrt y.sqrt := (agree_iff.1 h).sqrt.agree rfl rfl

theorem lt_iff_compare : x < y ↔ x.toModel.unpack.compare y.toModel.unpack = some .lt := by
  show decide ((x.toModel.unpack.compare y.toModel.unpack == some .lt) = true) = true ↔ _
  rw [decide_eq_true_iff, beq_iff_eq]

theorem le_iff_compare :
    x ≤ y ↔ (x.toModel.unpack.compare y.toModel.unpack).any (·.isLE) = true := by
  show decide (_ = true) = true ↔ _
  rw [decide_eq_true_iff]
  rfl

theorem le_iff_toRat (hx : x.isFinite = true) (hy : y.isFinite = true) :
    x ≤ y ↔ toRat x ≤ toRat y := by
  rw [le_iff_compare, compare_eq_of_isCanonical (isFinite_iff.1 hx) (isFinite_iff.1 hy),
    ← compare_le_iff_le]
  exact Ordering.isLE_iff_ne_gt

theorem le_trans_of_isFinite {z : Float} (hx : x.isFinite = true) (hy : y.isFinite = true)
    (hz : z.isFinite = true) (hxy : x ≤ y) (hyz : y ≤ z) : x ≤ z := by
  rw [le_iff_toRat hx hy] at hxy
  rw [le_iff_toRat hy hz] at hyz
  exact (le_iff_toRat hx hz).2 (hxy.trans hyz)

theorem Agree.lt_iff (hx : Agree x x') (hy : Agree y y') : x < y ↔ x' < y' := by
  rw [lt_iff_compare, lt_iff_compare, (agree_iff.1 hx).compare (agree_iff.1 hy)]

theorem Agree.le_iff (hx : Agree x x') (hy : Agree y y') : x ≤ y ↔ x' ≤ y' := by
  rw [le_iff_compare, le_iff_compare, (agree_iff.1 hx).compare (agree_iff.1 hy)]

theorem Agree.beq (hx : Agree x x') (hy : Agree y y') : (x == y) = (x' == y') := by
  show (x.toModel.unpack.compare y.toModel.unpack == some .eq) =
    (x'.toModel.unpack.compare y'.toModel.unpack == some .eq)
  rw [(agree_iff.1 hx).compare (agree_iff.1 hy)]

theorem Agree.isFinite (h : Agree x y) : x.isFinite = y.isFinite := by
  rw [isFinite_eq, isFinite_eq]
  have := agree_iff.1 h
  generalize x.toModel.unpack = u at this
  generalize y.toModel.unpack = v at this
  cases this <;> rfl

theorem Agree.ite {c c' : Prop} [Decidable c] [Decidable c'] (hc : c ↔ c') (hx : Agree x x')
    (hy : Agree y y') : Agree (if c then x else y) (if c' then x' else y') := by
  simp only [hc]
  split_ifs
  · exact hx
  · exact hy

end SparsePoly.Binary64
