import Mathlib
import SparsePoly.Proofs.Binary64.Opposite
import SparsePoly.Proofs.Binary64.Overflow

/-!
# Numbers, infinities and NaN

A double is finite, an infinity or not a number.  An operation gives NaN from a NaN and for the
undefined forms `∞ - ∞`, `0 * ∞`, `0 / 0`, `∞ / ∞` and the square root of a negative number, and for
nothing else (`isNaN_add_iff`, `isNaN_mul_iff`, `isNaN_div_iff`, `isNaN_sqrt_iff`).  A finite result
comes from finite operands, an infinite divisor apart (`isFinite_of_add`, `isFinite_of_mul`,
`isFinite_of_div`, `isFinite_of_sqrt`), and so do finite sums and powers (`isFinite_of_foldl_add`,
`isFinite_of_pow`).
-/

open Float.Model Float.Model.UnpackedFloat

namespace SparsePoly.Binary64

variable {x y : Float} {u v : UnpackedFloat}

/-! ## Packing -/

/-- Packing a finite result leads to a finite number or to an infinity. -/
theorem unpack_pack_eq_notANumber_iff :
    (Float.Model.pack u).unpack = .notANumber ↔ u = .notANumber := by
  cases u with
  | notANumber => simp
  | infinity s => simp
  | zero s => simp
  | finite s m e hp =>
    have hshow : (Float.Model.pack (.finite s m e hp)).unpack =
        UnpackedFloat.unpack .binary64 (UnpackedFloat.pack .binary64 (.finite s m e hp)) := rfl
    rw [hshow, pack_finite]
    simp only [reduceCtorEq, iff_false]
    split_ifs with h₁ h₂
    · have := unpack_pack_infinity s
      intro h
      rw [show UnpackedFloat.unpack .binary64 (packedInfinity .binary64 s) = .infinity s
        from this] at h
      cases h
    · rw [unpack_packComponents]
      have he : (BitVec.ofNat 11 (e + 1075).toNat).toNat ≠ 2047 := by
        rw [BitVec.toNat_ofNat]
        omega
      rw [if_neg he]
      split_ifs <;> simp
    · rw [unpack_packComponents, if_neg (by simp), if_pos (by simp)]
      split_ifs <;> simp

theorem isFinite_of_unpack_pack (h : (Float.Model.pack u).unpack.isFinite = true) :
    u.isFinite = true := by
  cases u with
  | notANumber => exact h
  | infinity s => rwa [unpack_pack_infinity] at h
  | _ => rfl

theorem roundWithAccuracy_ne_notANumber (s : Sign) (m : ℕ) (e : ℤ) (a : Accuracy) :
    roundWithAccuracy .binary64 s m e a ≠ .notANumber := by
  unfold roundWithAccuracy
  simp only
  split_ifs <;> simp

theorem normalize_ne_notANumber (m e : ℤ) (s : Sign) :
    UnpackedFloat.normalize .binary64 m e s ≠ .notANumber := by
  unfold UnpackedFloat.normalize
  split
  · exact roundWithAccuracy_ne_notANumber _ _ _ _
  · simp
  · exact roundWithAccuracy_ne_notANumber _ _ _ _

theorem unpack_sqrt (x : Float) :
    x.sqrt.toModel.unpack = (Float.Model.pack (.sqrt .binary64 x.toModel.unpack)).unpack := rfl

/-! ## The three kinds -/

theorem isNaN_iff : x.isNaN = true ↔ x.toModel.unpack = .notANumber := by
  show x.toModel.unpack.isNaN = true ↔ _
  cases x.toModel.unpack <;> simp [UnpackedFloat.isNaN]

/-- There is one NaN. -/
theorem eq_nan (h : x.isNaN = true) : x = nan := by
  apply eq_of_unpack_eq
  rw [isNaN_iff.1 h]
  rfl

theorem finite_or_isInf_or_isNaN (x : Float) :
    x.isFinite = true ∨ x.isInf = true ∨ x.isNaN = true := by
  rw [isFinite_eq, isInf_iff, isNaN_iff]
  cases x.toModel.unpack <;> simp [UnpackedFloat.isFinite]

@[simp] theorem isNaN_neg (x : Float) : (-x).isNaN = x.isNaN := by
  rw [Bool.eq_iff_iff, isNaN_iff, isNaN_iff, unpack_neg]
  cases x.toModel.unpack <;> simp [UnpackedFloat.neg]

@[simp] theorem isNaN_abs (x : Float) : x.abs.isNaN = x.isNaN := by
  rw [Bool.eq_iff_iff, isNaN_iff, isNaN_iff, unpack_abs]
  cases x.toModel.unpack <;> simp [UnpackedFloat.abs]

theorem beq_zero_eq_false_of_isNaN (h : x.isNaN = true) : (x == 0.0) = false := by
  rw [isNaN_iff] at h
  rw [← Bool.not_eq_true, beq_zero_iff, h]
  simp

theorem isFinite_eq_false_of_isNaN (h : x.isNaN = true) : x.isFinite = false := by
  rw [isFinite_eq, isNaN_iff.1 h]
  rfl

theorem Agree.isNaN (h : Agree x y) : x.isNaN = y.isNaN := by
  rcases h with rfl | ⟨hx, hy⟩
  · rfl
  · obtain ⟨s, hs⟩ := beq_zero_iff.1 hx
    obtain ⟨t, ht⟩ := beq_zero_iff.1 hy
    rw [Bool.eq_iff_iff, isNaN_iff, isNaN_iff, hs, ht]
    simp

theorem eq_or_eq_neg_of_isInf (hx : x.isInf = true) (hy : y.isInf = true) : x = y ∨ x = -y := by
  obtain ⟨s, hs⟩ := isInf_iff.1 hx
  obtain ⟨t, ht⟩ := isInf_iff.1 hy
  by_cases hst : s = t
  · exact Or.inl (eq_of_unpack_eq (by rw [hs, ht, hst]))
  · refine Or.inr (eq_of_unpack_eq ?_)
    rw [unpack_neg, hs, ht]
    cases s <;> cases t <;> first | rfl | exact absurd rfl hst

/-! ## Results that are not numbers -/

theorem not_eq_iff_eq_neg_sign (s t : Sign) : ¬ s = t ↔ t = -s := by
  cases s <;> cases t <;> simp [show -Sign.negative = Sign.positive from rfl,
    show -Sign.positive = Sign.negative from rfl]

theorem isNaN_add_iff :
    (x + y).isNaN = true ↔ x.isNaN = true ∨ y.isNaN = true ∨ x.isInf = true ∧ y = -x := by
  have hneg : y = -x ↔ y.toModel.unpack = x.toModel.unpack.neg := by
    rw [← unpack_neg]
    exact ⟨fun h => by rw [h], eq_of_unpack_eq⟩
  rw [isNaN_iff, isNaN_iff, isNaN_iff, isInf_iff, hneg, unpack_add, unpack_pack_eq_notANumber_iff]
  generalize x.toModel.unpack = u
  generalize y.toModel.unpack = v
  cases u with
  | notANumber => simp [UnpackedFloat.add]
  | infinity s =>
    cases v with
    | infinity t => simp [UnpackedFloat.add, UnpackedFloat.neg, not_eq_iff_eq_neg_sign]
    | _ => simp [UnpackedFloat.add, UnpackedFloat.neg]
  | zero s =>
    cases v with
    | zero t => cases s <;> cases t <;> simp [UnpackedFloat.add]
    | _ => simp [UnpackedFloat.add]
  | finite s m e hp => cases v <;> simp [UnpackedFloat.add, normalize_ne_notANumber]

theorem isNaN_sub_iff :
    (x - y).isNaN = true ↔ x.isNaN = true ∨ y.isNaN = true ∨ x.isInf = true ∧ x = y := by
  rw [sub_eq_add_neg_float, isNaN_add_iff, isNaN_neg, neg_inj, eq_comm (a := y)]

theorem isNaN_mul_iff :
    (x * y).isNaN = true ↔ x.isNaN = true ∨ y.isNaN = true ∨
      x.isInf = true ∧ (y == 0.0) = true ∨ (x == 0.0) = true ∧ y.isInf = true := by
  rw [isNaN_iff, isNaN_iff, isNaN_iff, isInf_iff, isInf_iff, beq_zero_iff, beq_zero_iff, unpack_mul,
    unpack_pack_eq_notANumber_iff]
  cases x.toModel.unpack <;> cases y.toModel.unpack <;>
    simp [UnpackedFloat.mul, roundWithAccuracy_ne_notANumber]

theorem isNaN_div_iff :
    (x / y).isNaN = true ↔ x.isNaN = true ∨ y.isNaN = true ∨
      x.isInf = true ∧ y.isInf = true ∨ (x == 0.0) = true ∧ (y == 0.0) = true := by
  rw [isNaN_iff, isNaN_iff, isNaN_iff, isInf_iff, isInf_iff, beq_zero_iff, beq_zero_iff, unpack_div,
    unpack_pack_eq_notANumber_iff]
  cases x.toModel.unpack <;> cases y.toModel.unpack <;>
    simp [UnpackedFloat.div, roundWithAccuracy_ne_notANumber]

theorem mul_eq_left_of_isNaN (h : x.isNaN = true) (y : Float) : x * y = x := by
  rw [isNaN_iff] at h
  apply eq_of_unpack_eq
  rw [unpack_mul, h]
  simp [Float.Model.UnpackedFloat.mul]

/-- A product with a zero is a zero, or it is not a number. -/
theorem isNaN_mul_of_beq_zero (hy : (y == 0.0) = true) (h : ((x * y) == 0.0) = false) :
    (x * y).isNaN = true := by
  obtain ⟨s, hs⟩ := beq_zero_iff.1 hy
  have hu := unpack_mul x y
  rw [hs] at hu
  cases hx : x.toModel.unpack with
  | notANumber | infinity t =>
    rw [hx] at hu
    exact isNaN_iff.2 (hu.trans unpack_pack_notANumber)
  | zero t | finite t m e hp =>
    rw [hx] at hu
    rw [beq_zero_iff.2 ⟨_, hu.trans (unpack_pack_zero _)⟩] at h
    cases h

theorem isNaN_add_left (h : x.isNaN = true) (y : Float) : (x + y).isNaN = true :=
  isNaN_add_iff.2 (Or.inl h)

theorem isNaN_add_right (x : Float) (h : y.isNaN = true) : (x + y).isNaN = true :=
  isNaN_add_iff.2 (Or.inr (Or.inl h))

theorem isNaN_sub_left (h : x.isNaN = true) (y : Float) : (x - y).isNaN = true :=
  isNaN_sub_iff.2 (Or.inl h)

theorem isNaN_sub_right (x : Float) (h : y.isNaN = true) : (x - y).isNaN = true :=
  isNaN_sub_iff.2 (Or.inr (Or.inl h))

theorem isNaN_mul_left (h : x.isNaN = true) (y : Float) : (x * y).isNaN = true :=
  isNaN_mul_iff.2 (Or.inl h)

theorem isNaN_mul_right (x : Float) (h : y.isNaN = true) : (x * y).isNaN = true :=
  isNaN_mul_iff.2 (Or.inr (Or.inl h))

theorem isNaN_div_left (h : x.isNaN = true) (y : Float) : (x / y).isNaN = true :=
  isNaN_div_iff.2 (Or.inl h)

/-- Finite numbers have a product, if only an infinity. -/
theorem isNaN_mul_of_isFinite (hx : x.isFinite = true) (hy : y.isFinite = true) :
    (x * y).isNaN = false := by
  rw [← Bool.not_eq_true, isNaN_mul_iff, isNaN_eq_false_of_isFinite hx,
    isNaN_eq_false_of_isFinite hy]
  rintro (h | h | ⟨h, -⟩ | ⟨-, h⟩)
  · cases h
  · cases h
  · rw [isFinite_eq_false_of_isInf h] at hx
    cases hx
  · rw [isFinite_eq_false_of_isInf h] at hy
    cases hy

/-- A finite number makes no NaN of what it is added to. -/
theorem isNaN_add_of_isFinite (hx : x.isFinite = true) : (x + y).isNaN = y.isNaN := by
  rw [Bool.eq_iff_iff, isNaN_add_iff, isNaN_eq_false_of_isFinite hx]
  constructor
  · rintro (h | h | ⟨h, -⟩)
    · cases h
    · exact h
    · rw [isFinite_eq_false_of_isInf h] at hx
      cases hx
  · exact fun h => Or.inr (Or.inl h)

theorem isNaN_sub_of_isFinite (hy : y.isFinite = true) : (x - y).isNaN = x.isNaN := by
  rw [Bool.eq_iff_iff, isNaN_sub_iff, isNaN_eq_false_of_isFinite hy]
  constructor
  · rintro (h | h | ⟨h, rfl⟩)
    · exact h
    · cases h
    · rw [isFinite_eq_false_of_isInf h] at hy
      cases hy
  · exact fun h => Or.inl h

theorem isNaN_sub_of_isFinite_left (hx : x.isFinite = true) : (x - y).isNaN = y.isNaN := by
  rw [sub_eq_add_neg_float, isNaN_add_of_isFinite hx, isNaN_neg]

/-- An infinity absorbs what it is added to. -/
theorem add_of_isInf (hx : x.isFinite = true) (hy : y.isInf = true) : x + y = y := by
  obtain ⟨s, hs⟩ := isInf_iff.1 hy
  rw [isFinite_eq] at hx
  apply eq_of_unpack_eq
  rw [unpack_add, hs]
  cases hu : x.toModel.unpack with
  | zero t | finite t m e hm => exact unpack_pack_infinity s
  | infinity t | notANumber =>
    rw [hu] at hx
    cases hx

theorem div_beq_zero_of_isInf (hx : x.isFinite = true) (hy : y.isInf = true) :
    (x / y == 0.0) = true := by
  obtain ⟨s, hs⟩ := isInf_iff.1 hy
  rw [isFinite_eq] at hx
  rw [beq_zero_iff, unpack_div, hs]
  cases hu : x.toModel.unpack with
  | zero t | finite t m e hm => exact ⟨_, unpack_pack_zero _⟩
  | infinity t | notANumber =>
    rw [hu] at hx
    cases hx

theorem isNaN_sqrt_iff : x.sqrt.isNaN = true ↔ x.isNaN = true ∨ x < 0.0 := by
  rw [isNaN_iff, isNaN_iff, lt_iff_compare, unpack_sqrt, unpack_pack_eq_notANumber_iff]
  show _ ↔ _ ∨ x.toModel.unpack.compare (.zero .positive) = some .lt
  cases x.toModel.unpack with
  | notANumber | zero s => simp [UnpackedFloat.sqrt, UnpackedFloat.compare]
  | infinity s => cases s <;> simp [UnpackedFloat.sqrt, UnpackedFloat.compare]
  | finite s m e hp =>
    cases s <;> simp [UnpackedFloat.sqrt, UnpackedFloat.compare, roundWithAccuracy_ne_notANumber]

/-- A number that is neither positive nor zero has no root. -/
theorem isNaN_sqrt_of_not_pos (hz : (x == 0.0) = false) (h : ¬ 0.0 < x) :
    x.sqrt.isNaN = true := by
  rw [isNaN_sqrt_iff, isNaN_iff, lt_iff_compare]
  rw [lt_iff_compare] at h
  rw [← Bool.not_eq_true, beq_zero_iff] at hz
  show _ ∨ x.toModel.unpack.compare (.zero .positive) = some .lt
  change ¬ (UnpackedFloat.zero .positive).compare x.toModel.unpack = some .lt at h
  cases hu : x.toModel.unpack with
  | notANumber => exact Or.inl rfl
  | zero s => exact absurd ⟨s, hu⟩ hz
  | infinity s | finite s m e hm =>
    rw [hu] at h
    cases s
    · exact Or.inr rfl
    · exact absurd rfl h

/-! ## Finite results -/

theorem isFinite_of_add (h : (x + y).isFinite = true) :
    x.isFinite = true ∧ y.isFinite = true := by
  have h := isFinite_of_unpack_pack (u := .add .binary64 x.toModel.unpack y.toModel.unpack) h
  rw [isFinite_eq, isFinite_eq]
  generalize x.toModel.unpack = u at h ⊢
  generalize y.toModel.unpack = v at h ⊢
  cases u with
  | notANumber => cases h
  | infinity s =>
    cases v with
    | infinity t => cases s <;> cases t <;> cases h
    | _ => cases h
  | _ =>
    cases v with
    | notANumber | infinity t => cases h
    | _ => exact ⟨rfl, rfl⟩

theorem isFinite_of_sub (h : (x - y).isFinite = true) :
    x.isFinite = true ∧ y.isFinite = true := by
  rw [sub_eq_add_neg_float] at h
  rw [← isFinite_neg y]
  exact isFinite_of_add h

theorem isFinite_of_mul (h : (x * y).isFinite = true) :
    x.isFinite = true ∧ y.isFinite = true := by
  have h := isFinite_of_unpack_pack (u := .mul .binary64 x.toModel.unpack y.toModel.unpack) h
  rw [isFinite_eq, isFinite_eq]
  generalize x.toModel.unpack = u at h ⊢
  generalize y.toModel.unpack = v at h ⊢
  cases u <;> cases v <;> first | exact ⟨rfl, rfl⟩ | cases h

/-- A quotient by an infinity is finite too. -/
theorem isFinite_of_div (h : (x / y).isFinite = true) :
    x.isFinite = true ∧ (y == 0.0) = false ∧ y.isNaN = false := by
  have h := isFinite_of_unpack_pack (u := .div .binary64 x.toModel.unpack y.toModel.unpack) h
  rw [isFinite_eq, ← Bool.not_eq_true (y == 0.0), ← Bool.not_eq_true y.isNaN, beq_zero_iff,
    isNaN_iff]
  generalize x.toModel.unpack = u at h ⊢
  generalize y.toModel.unpack = v at h ⊢
  cases u with
  | notANumber => cases h
  | infinity s => cases v <;> cases h
  | _ =>
    cases v with
    | notANumber | zero t => cases h
    | _ => simp [UnpackedFloat.isFinite]

theorem isFinite_of_sqrt (h : x.sqrt.isFinite = true) : x.isFinite = true ∧ ¬ x < 0.0 := by
  have hnan := isNaN_sqrt_iff.not.1 (by rw [isNaN_eq_false_of_isFinite h]; decide)
  refine ⟨?_, fun hlt => hnan (Or.inr hlt)⟩
  have h := isFinite_of_unpack_pack (u := .sqrt .binary64 x.toModel.unpack) h
  rw [isFinite_eq]
  generalize x.toModel.unpack = u at h ⊢
  cases u with
  | notANumber => cases h
  | infinity s => cases s <;> cases h
  | _ => rfl

/-- A finite sum has finite summands. -/
theorem isFinite_of_foldl_add {xs : List Float} (h : (xs.foldl (· + ·) x).isFinite = true) :
    x.isFinite = true ∧ ∀ y ∈ xs, y.isFinite = true := by
  induction xs generalizing x with
  | nil => exact ⟨h, by simp⟩
  | cons z zs ih =>
    obtain ⟨hsum, hzs⟩ := ih h
    obtain ⟨hx, hz⟩ := isFinite_of_add hsum
    exact ⟨hx, List.forall_mem_cons.2 ⟨hz, hzs⟩⟩

/-- Repeated squaring multiplies with a power of the base last. -/
theorem isFinite_of_powBits {bits k : ℕ} (hk : k ≠ 0) (hb : k.log2 = bits)
    (h : (powBits bits x y k).isFinite = true) : y.isFinite = true := by
  induction bits generalizing x y k with
  | zero =>
    have hone : k % 2 = 1 := by
      have := Nat.lt_log2_self (n := k)
      rw [hb] at this
      omega
    rw [powBits, if_pos hone] at h
    exact (isFinite_of_mul h).2
  | succ bits ih =>
    have hk : 2 ≤ k := by
      by_contra hlt
      rw [Nat.log2_def, if_neg hlt] at hb
      omega
    have hhalf : (k / 2).log2 = bits := by
      rw [Nat.log2_def, if_pos hk] at hb
      omega
    exact (isFinite_of_mul (ih (by omega) hhalf h)).1

/-- A finite power with a positive exponent has a finite base. -/
theorem isFinite_of_pow {n : ℤ} (hn : 0 < n) (h : (pow x n).isFinite = true) :
    x.isFinite = true := by
  rw [pow, if_neg (by omega)] at h
  exact isFinite_of_powBits (by omega) rfl h

/-! ## Comparisons -/

theorem not_lt_of_isNaN_left (h : x.isNaN = true) (y : Float) : ¬ x < y := by
  rw [lt_iff_compare, isNaN_iff.1 h]
  simp [UnpackedFloat.compare]

theorem not_lt_of_isNaN_right (x : Float) (h : y.isNaN = true) : ¬ x < y := by
  rw [lt_iff_compare, isNaN_iff.1 h]
  cases x.toModel.unpack <;> simp [UnpackedFloat.compare]

theorem compare_swap (u v : UnpackedFloat) : (u.compare v).map Ordering.swap = v.compare u := by
  cases u with
  | notANumber => cases v <;> rfl
  | zero s =>
    cases v with
    | infinity t | finite t n d hn => cases t <;> rfl
    | _ => rfl
  | infinity s =>
    cases v with
    | notANumber => cases s <;> rfl
    | _ t => cases s <;> cases t <;> rfl
  | finite s m e hm =>
    cases v with
    | finite t n d hn =>
      cases s <;> cases t <;>
        simp [UnpackedFloat.compare, Ordering.swap_then, Int.compare_swap, Nat.compare_swap]
    | infinity t => cases s <;> cases t <;> rfl
    | _ => cases s <;> rfl

theorem not_lt_of_lt (h : x < y) : ¬ y < x := by
  rw [lt_iff_compare] at *
  rw [← compare_swap, h]
  simp

theorem exists_compare (hu : u ≠ .notANumber) (hv : v ≠ .notANumber) :
    ∃ o, u.compare v = some o := by
  cases u with
  | notANumber => exact absurd rfl hu
  | _ s =>
    cases v with
    | notANumber => exact absurd rfl hv
    | _ t => cases s <;> cases t <;> exact ⟨_, rfl⟩

/-- Numbers, the infinities among them, are ordered totally. -/
theorem le_of_not_lt (hx : x.isNaN = false) (hy : y.isNaN = false) (h : ¬ x < y) : y ≤ x := by
  rw [← Bool.not_eq_true, isNaN_iff] at hx hy
  rw [lt_iff_compare] at h
  rw [le_iff_compare, ← compare_swap]
  obtain ⟨o, ho⟩ := exists_compare hx hy
  rw [ho] at h ⊢
  cases o with
  | lt => exact absurd rfl h
  | eq | gt => rfl

/-- A distance below a finite bound is finite. -/
theorem isFinite_of_abs_lt (h : x.abs < y) (hy : y.isFinite = true) : x.isFinite = true := by
  rw [lt_iff_compare, unpack_abs] at h
  rw [isFinite_eq] at hy ⊢
  cases hu : x.toModel.unpack with
  | notANumber => simp [hu, UnpackedFloat.abs, UnpackedFloat.compare] at h
  | infinity s =>
    rw [hu] at h
    cases hv : y.toModel.unpack with
    | infinity t | notANumber =>
      rw [hv] at hy
      cases hy
    | _ => simp [hv, UnpackedFloat.abs, UnpackedFloat.compare] at h
  | _ => rfl

/-- A number is at no distance from itself, and what is not finite is at none at all. -/
theorem not_lt_abs_sub_self (hy : ¬ y < 0.0) (x : Float) : ¬ y < (x - x).abs := by
  rcases finite_or_isInf_or_isNaN x with hx | hx | hx
  · have hzero : Agree (x - x).abs 0.0 := by
      rw [sub_eq_add_neg_float]
      exact (Agree.abs (Or.inr ⟨add_neg_self_beq_zero hx, by decide⟩ : Agree (x + -x) 0.0))
    rwa [(Agree.refl y).lt_iff hzero]
  · apply not_lt_of_isNaN_right
    rw [isNaN_abs, isNaN_sub_iff]
    exact Or.inr (Or.inr ⟨hx, rfl⟩)
  · apply not_lt_of_isNaN_right
    rw [isNaN_abs]
    exact isNaN_sub_left hx x

/-! ## Snapping -/

theorem isNaN_snap (policy : SnapPolicy) (x : Float) : (policy.snap x).isNaN = x.isNaN := by
  unfold SnapPolicy.snap
  simp only
  split_ifs with h
  · obtain ⟨hnearest, hx⟩ := isFinite_of_sub (isFinite_of_abs_lt h policy.finite)
    rw [isNaN_eq_false_of_isFinite hnearest, isNaN_eq_false_of_isFinite hx]
  · rfl

theorem snap_of_isFinite_eq_false (policy : SnapPolicy) (h : x.isFinite = false) :
    policy.snap x = x := by
  unfold SnapPolicy.snap
  simp only [roundHalfAway_of_isFinite_eq_false h, ite_self]

theorem snap_of_isNaN (policy : SnapPolicy) (h : x.isNaN = true) : policy.snap x = x :=
  snap_of_isFinite_eq_false policy (isFinite_eq_false_of_isNaN h)

theorem isFinite_snap (policy : SnapPolicy) (x : Float) :
    (policy.snap x).isFinite = x.isFinite := by
  unfold SnapPolicy.snap
  simp only
  split_ifs with h
  · obtain ⟨hnearest, hx⟩ := isFinite_of_sub (isFinite_of_abs_lt h policy.finite)
    rw [hnearest, hx]
  · rfl

end SparsePoly.Binary64
