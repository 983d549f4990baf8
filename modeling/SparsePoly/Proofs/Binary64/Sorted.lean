import Mathlib
import SparsePoly.Binary64
import SparsePoly.Proofs.Binary64.Agree

/-!
# The order of doubles

The order of the bit patterns is total (`orderKey_injective`), and the two zeros are neighbours in
it.  So lists that agree are still lists that agree after sorting (`forall₂_agree_sorted`), although
sorting tells the zeros apart.  The position of a finite double puts its exponent before its
mantissa (`toNat_toBits_abs`), so finite doubles are sorted by their values (`pairwise_le_sorted`).
-/

open Float.Model Float.Model.UnpackedFloat

namespace SparsePoly.Binary64

variable {x y : Float}

/-! ## The position of a double -/

theorem toBits_injective : Function.Injective Float.toBits := by
  rintro ⟨⟨x, hx⟩⟩ ⟨⟨y, hy⟩⟩ h
  cases show x = y from h
  rfl

theorem toNat_toBits_abs_eq_zero : x.abs.toBits.toNat = 0 ↔ (x == 0.0) = true := by
  rw [beq_zero_iff]
  constructor
  · intro h
    have habs : x.abs = 0.0 := toBits_injective (UInt64.toNat_inj.1 (h.trans (by decide)))
    have hu := unpack_abs x
    rw [habs] at hu
    cases hx : x.toModel.unpack with
    | zero s => exact ⟨s, rfl⟩
    | _ =>
      rw [hx] at hu
      cases hu
  · rintro ⟨s, hs⟩
    have habs : x.abs = 0.0 := by
      apply eq_of_unpack_eq
      rw [unpack_abs, hs]
      rfl
    rw [habs]
    decide

theorem orderKey_eq (x : Float) : orderKey x =
    if isNegative x then -1 - (x.abs.toBits.toNat : ℤ) else (x.abs.toBits.toNat : ℤ) := rfl

theorem orderKey_injective : Function.Injective orderKey := by
  intro x y h
  rw [orderKey_eq, orderKey_eq] at h
  have hsign : isNegative x = isNegative y := by
    cases hx : isNegative x <;> cases hy : isNegative y <;> simp only [hx, hy] at h ⊢ <;>
      simp at h <;> omega
  have hsize : x.abs.toBits.toNat = y.abs.toBits.toNat := by
    rw [hsign] at h
    split_ifs at h <;> omega
  rw [← withSign_abs x, ← withSign_abs y, hsign,
    toBits_injective (UInt64.toNat_inj.1 hsize)]

/-- A zero of either sign as `0`. -/
def unsignZero (x : Float) : Float := if (x == 0.0) = true then 0.0 else x

theorem agree_iff_unsignZero : Agree x y ↔ unsignZero x = unsignZero y := by
  unfold unsignZero
  constructor
  · rintro (rfl | ⟨hx, hy⟩)
    · rfl
    · rw [if_pos hx, if_pos hy]
  · intro h
    split_ifs at h with hx hy hy
    · exact Or.inr ⟨hx, hy⟩
    · rw [← h] at hy
      exact absurd (by decide) hy
    · rw [h] at hx
      exact absurd (by decide) hx
    · exact Or.inl h

/-- The two zeros are neighbours in the order. -/
theorem orderKey_unsignZero_mono (h : orderKey x ≤ orderKey y) :
    orderKey (unsignZero x) ≤ orderKey (unsignZero y) := by
  have hzero : orderKey 0.0 = 0 := by decide
  have hx := toNat_toBits_abs_eq_zero (x := x)
  have hy := toNat_toBits_abs_eq_zero (x := y)
  unfold unsignZero
  rw [orderKey_eq, orderKey_eq] at h
  by_cases h₁ : (x == 0.0) = true <;> by_cases h₂ : (y == 0.0) = true
  · rw [if_pos h₁, if_pos h₂]
  · rw [if_pos h₁, if_neg h₂, hzero, orderKey_eq]
    rw [hx.2 h₁] at h
    have := mt hy.1 h₂
    split_ifs at h ⊢ <;> omega
  · rw [if_neg h₁, if_pos h₂, hzero, orderKey_eq]
    rw [hy.2 h₂] at h
    have := mt hx.1 h₁
    split_ifs at h ⊢ <;> omega
  · rwa [if_neg h₁, if_neg h₂, orderKey_eq, orderKey_eq]

/-! ## The position and the value -/

/-- The position of a double is its exponent and its mantissa, one after the other. -/
theorem toNat_toBits_abs {s : Sign} {m : ℕ} {e : ℤ} {hp : 0 < m}
    (h : x.toModel.unpack = .finite s m e hp) :
    (x.abs.toBits.toNat : ℤ) = (e + 1074) * 2 ^ 52 + m := by
  obtain ⟨hr, he⟩ := isRounded_of_unpack h
  have hlow := hr.le
  have hlt := hr.lt
  have hbits : x.abs.toBits.toNat =
      (UnpackedFloat.pack .binary64 (.finite .positive m e hp)).toNat := by
    show (UnpackedFloat.pack .binary64 x.toModel.unpack.abs).toNat = _
    rw [h]
    rfl
  rw [hbits, pack_finite, if_neg (by omega)]
  by_cases hm : 2 ^ 52 ≤ m
  · rw [if_pos ((hr.log2_eq_iff hp).2 hm), toNat_packComponents]
    simp only [BitVec.toNat_ofNat, Sign.toBitVec]
    omega
  · have hexponent : e = -1074 := hr.normal.resolve_left hm
    rw [if_neg fun h' => hm ((hr.log2_eq_iff hp).1 h'), toNat_packComponents]
    simp only [BitVec.toNat_ofNat, Sign.toBitVec]
    omega

/-- The sizes of finite doubles have the order of their positions. -/
theorem abs_toRat_le_of_toBits_le (hx : x.isFinite = true) (hy : y.isFinite = true)
    (h : x.abs.toBits.toNat ≤ y.abs.toBits.toNat) : |toRat x| ≤ |toRat y| := by
  by_cases hx₀ : toRat x = 0
  · rw [hx₀, abs_zero]
    exact abs_nonneg _
  have hy₀ : toRat y ≠ 0 := by
    rw [← beq_zero_iff_toRat hx, ← toNat_toBits_abs_eq_zero] at hx₀
    rw [Ne, ← beq_zero_iff_toRat hy, ← toNat_toBits_abs_eq_zero]
    omega
  obtain ⟨s, m, d, hm, hu⟩ := unpack_of_toRat_ne_zero hx₀
  obtain ⟨t, n, e, hn, hv⟩ := unpack_of_toRat_ne_zero hy₀
  have hmd := (isRounded_of_unpack hu).1
  have hne := (isRounded_of_unpack hv).1
  have hbits : (d + 1074) * 2 ^ 52 + m ≤ (e + 1074) * 2 ^ 52 + n := by
    rw [← toNat_toBits_abs hu, ← toNat_toBits_abs hv]
    exact_mod_cast h
  unfold toRat
  rw [hu, hv, abs_value_finite, abs_value_finite]
  rcases lt_trichotomy d e with hlt | rfl | hlt
  · exact (mul_zpow_lt_of_exponent_lt hmd hne hlt).le
  · have hle : m ≤ n := by omega
    exact mul_le_mul_of_nonneg_right (by exact_mod_cast hle) (zpow_pos two_pos d).le
  · -- a larger exponent comes with the highest bit, so the position would be larger as well
    have hlow := hne.le
    have hnlt := hne.lt
    have hmle := hmd.normal.resolve_right (by omega)
    omega

theorem toRat_eq_of_sign (x : Float) :
    toRat x = if isNegative x then -|toRat x| else |toRat x| := by
  conv_lhs => rw [← withSign_abs x, withSign]
  split_ifs
  · rw [toRat_neg, toRat_abs]
  · rw [toRat_abs]

/-- Finite doubles have the order of their positions. -/
theorem le_of_orderKey_le (hx : x.isFinite = true) (hy : y.isFinite = true)
    (h : orderKey x ≤ orderKey y) : x ≤ y := by
  rw [le_iff_toRat hx hy, toRat_eq_of_sign x, toRat_eq_of_sign y]
  rw [orderKey_eq, orderKey_eq] at h
  have hx₀ := abs_nonneg (toRat x)
  have hy₀ := abs_nonneg (toRat y)
  split_ifs at h ⊢
  · exact neg_le_neg (abs_toRat_le_of_toBits_le hy hx (by omega))
  · linarith
  · omega
  · exact abs_toRat_le_of_toBits_le hx hy (by omega)

/-! ## Sorting -/

theorem perm_sorted (xs : List Float) : (sorted xs).Perm xs := List.mergeSort_perm xs _

theorem pairwise_sorted (xs : List Float) :
    (sorted xs).Pairwise fun x y => orderKey x ≤ orderKey y := by
  have htrans (a b c : Float) (hab : decide (orderKey a ≤ orderKey b) = true)
      (hbc : decide (orderKey b ≤ orderKey c) = true) :
      decide (orderKey a ≤ orderKey c) = true := by
    simp only [decide_eq_true_eq] at *
    omega
  have htotal (a b : Float) :
      (decide (orderKey a ≤ orderKey b) || decide (orderKey b ≤ orderKey a)) = true := by
    simp only [Bool.or_eq_true, decide_eq_true_eq]
    omega
  simpa only [decide_eq_true_eq, sorted] using List.pairwise_mergeSort htrans htotal xs

/-- There is one way to sort a list. -/
theorem sorted_eq {xs ys : List Float} (hperm : ys.Perm xs)
    (h : ys.Pairwise fun x y => orderKey x ≤ orderKey y) : sorted xs = ys :=
  List.Perm.eq_of_pairwise (fun _ _ _ _ hab hba => orderKey_injective (le_antisymm hab hba))
    (pairwise_sorted xs) h ((perm_sorted xs).trans hperm.symm)

/-- Finite doubles are sorted by their values. -/
theorem pairwise_le_sorted {xs : List Float} (h : ∀ x ∈ xs, x.isFinite = true) :
    (sorted xs).Pairwise (· ≤ ·) := by
  refine (pairwise_sorted xs).imp_of_mem fun {x y} hx hy hle => ?_
  exact le_of_orderKey_le (h x ((perm_sorted xs).mem_iff.1 hx))
    (h y ((perm_sorted xs).mem_iff.1 hy)) hle

theorem forall₂_agree_iff {xs ys : List Float} :
    List.Forall₂ Agree xs ys ↔ xs.map unsignZero = ys.map unsignZero := by
  have heq : xs.map unsignZero = ys.map unsignZero ↔
      List.Forall₂ (· = ·) (xs.map unsignZero) (ys.map unsignZero) := by
    rw [List.forall₂_eq_eq_eq]
  rw [heq, List.forall₂_map_left_iff, List.forall₂_map_right_iff]
  exact ⟨fun h => h.imp fun _ _ => agree_iff_unsignZero.1,
    fun h => h.imp fun _ _ => agree_iff_unsignZero.2⟩

theorem forall₂_agree_trans {xs ys zs : List Float} (h₁ : List.Forall₂ Agree xs ys)
    (h₂ : List.Forall₂ Agree ys zs) : List.Forall₂ Agree xs zs :=
  forall₂_agree_iff.2 ((forall₂_agree_iff.1 h₁).trans (forall₂_agree_iff.1 h₂))

theorem forall₂_agree_sorted {xs ys : List Float} (h : List.Forall₂ Agree xs ys) :
    List.Forall₂ Agree (sorted xs) (sorted ys) := by
  rw [forall₂_agree_iff] at h ⊢
  have hsorted (zs : List Float) : ((sorted zs).map unsignZero).Pairwise fun x y =>
      orderKey x ≤ orderKey y :=
    List.pairwise_map.2 ((pairwise_sorted zs).imp orderKey_unsignZero_mono)
  have hperm (zs : List Float) : ((sorted zs).map unsignZero).Perm (zs.map unsignZero) :=
    (perm_sorted zs).map unsignZero
  refine List.Perm.eq_of_pairwise (fun a b _ _ hab hba => orderKey_injective (le_antisymm hab hba))
    (hsorted xs) (hsorted ys) ?_
  exact (hperm xs).trans (h ▸ (hperm ys).symm)

end SparsePoly.Binary64
