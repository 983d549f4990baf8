import Mathlib
import SparsePoly.Proofs.Binary64.Agree
import SparsePoly.Proofs.Binary64.HalfAway
import SparsePoly.SnapPolicy

/-!
# Opposite doubles

The sign passes through products and quotients exactly, zeros and infinities included
(`neg_div_float`, `div_neg_float`, and the instance of `HasDistribNeg`).  A sum of opposite numbers
is the opposite of the sum up to the sign of zero (`agree_neg_add`), because numbers that cancel add
up to `0` in either order.  Repeated squaring sees the sign of its base only in the lowest bit of
the exponent, so that even powers of opposite numbers are the same and odd ones opposite
(`pow_neg_of_even`, `pow_neg_of_odd`).  Opposite numbers are snapped to opposite numbers
(`snap_neg`), since a half is rounded away from zero on either side.
-/

open Float.Model Float.Model.UnpackedFloat

namespace SparsePoly.Binary64

variable {x x' y y' : Float}

/-! ## Unpacked doubles -/

theorem neg_mul_sign (s t : Sign) : -s * t = -(s * t) := by cases s <;> cases t <;> rfl

theorem mul_neg_sign (s t : Sign) : s * -t = -(s * t) := by cases s <;> cases t <;> rfl

theorem neg_div_sign (s t : Sign) : -s / t = -(s / t) := by cases s <;> cases t <;> rfl

theorem div_neg_sign (s t : Sign) : s / -t = -(s / t) := by cases s <;> cases t <;> rfl

theorem roundWithAccuracy_neg (s : Sign) (m : ℕ) (e : ℤ) (a : Accuracy) :
    roundWithAccuracy .binary64 (-s) m e a = (roundWithAccuracy .binary64 s m e a).neg := by
  unfold roundWithAccuracy
  simp only
  split_ifs <;> rfl

theorem neg_mul_unpacked (u v : UnpackedFloat) :
    UnpackedFloat.mul .binary64 u.neg v = (UnpackedFloat.mul .binary64 u v).neg := by
  cases u <;> cases v <;> try rfl
  all_goals
    simp only [UnpackedFloat.neg, UnpackedFloat.mul, neg_mul_sign, roundWithAccuracy_neg]

theorem mul_neg_unpacked (u v : UnpackedFloat) :
    UnpackedFloat.mul .binary64 u v.neg = (UnpackedFloat.mul .binary64 u v).neg := by
  cases u <;> cases v <;> try rfl
  all_goals
    simp only [UnpackedFloat.neg, UnpackedFloat.mul, mul_neg_sign, roundWithAccuracy_neg]

theorem neg_div_unpacked (u v : UnpackedFloat) :
    UnpackedFloat.div .binary64 u.neg v = (UnpackedFloat.div .binary64 u v).neg := by
  cases u <;> cases v <;> try rfl
  all_goals
    simp only [UnpackedFloat.neg, UnpackedFloat.div, neg_div_sign, roundWithAccuracy_neg]

theorem div_neg_unpacked (u v : UnpackedFloat) :
    UnpackedFloat.div .binary64 u v.neg = (UnpackedFloat.div .binary64 u v).neg := by
  cases u <;> cases v <;> try rfl
  all_goals
    simp only [UnpackedFloat.neg, UnpackedFloat.div, div_neg_sign, roundWithAccuracy_neg]

theorem normalize_neg (m e : ℤ) : Akin (normalize .binary64 (-m) e .positive)
    (normalize .binary64 m e .positive).neg := by
  unfold UnpackedFloat.normalize
  rcases lt_trichotomy m 0 with h | rfl | h
  · rw [compare_lt_iff_lt.2 h, compare_gt_iff_gt.2 (neg_pos.2 h)]
    exact roundWithAccuracy_neg .negative _ _ _ ▸ .refl _
  · exact .zero _ _
  · rw [compare_gt_iff_gt.2 h, compare_lt_iff_lt.2 (neg_lt_zero.2 h), neg_neg]
    exact roundWithAccuracy_neg .positive _ _ _ ▸ .refl _

theorem neg_neg_sign (s : Sign) : - -s = s := by cases s <;> rfl

theorem apply_neg (s : Sign) (n : ℤ) : (-s).apply n = -s.apply n := by
  cases s
  · exact (neg_neg n).symm
  · rfl

theorem neg_add_unpacked (u v : UnpackedFloat) :
    Akin (UnpackedFloat.add .binary64 u.neg v.neg) (UnpackedFloat.add .binary64 u v).neg := by
  cases u with
  | notANumber => exact .refl _
  | infinity s =>
    cases v with
    | infinity t => cases s <;> cases t <;> exact .refl _
    | _ => exact .refl _
  | zero s =>
    cases v with
    | zero t => cases s <;> cases t <;> exact .zero _ _
    | _ => exact .refl _
  | finite s m e hp =>
    cases v with
    | finite t n d hn =>
      have h := normalize_neg (s.apply (decreaseExponent m e (min e d)).1
        + t.apply (decreaseExponent n d (min e d)).1) (min e d)
      rw [neg_add, ← apply_neg, ← apply_neg] at h
      exact h
    | _ => exact .refl _

theorem add_comm_unpacked (u v : UnpackedFloat) :
    UnpackedFloat.add .binary64 u v = UnpackedFloat.add .binary64 v u := by
  cases u with
  | notANumber => cases v <;> rfl
  | infinity s =>
    cases v with
    | infinity t => cases s <;> cases t <;> rfl
    | _ => rfl
  | zero s =>
    cases v with
    | zero t => cases s <;> cases t <;> rfl
    | _ => rfl
  | finite s m e hm =>
    cases v with
    | finite t n d hn =>
      simp only [UnpackedFloat.add, min_comm d e]
      rw [add_comm]
    | _ => rfl

theorem mul_comm_sign (s t : Sign) : s * t = t * s := by cases s <;> cases t <;> rfl

theorem mul_comm_unpacked (u v : UnpackedFloat) :
    UnpackedFloat.mul .binary64 u v = UnpackedFloat.mul .binary64 v u := by
  cases u <;> cases v <;> try rfl
  all_goals simp only [UnpackedFloat.mul, mul_comm_sign, Nat.mul_comm, Int.add_comm]

theorem unpack_pack_neg (u : UnpackedFloat) :
    (Float.Model.pack u.neg).unpack = (Float.Model.pack u).unpack.neg := by
  cases u with
  | finite s m e hp =>
    show UnpackedFloat.unpack .binary64 (UnpackedFloat.pack .binary64 (.finite (-s) m e hp)) =
      (UnpackedFloat.unpack .binary64 (UnpackedFloat.pack .binary64 (.finite s m e hp))).neg
    rw [pack_finite, pack_finite]
    split_ifs
    · cases s <;> rfl
    · rw [unpack_packComponents, unpack_packComponents]
      split_ifs <;> rfl
    · rw [unpack_packComponents, unpack_packComponents]
      split_ifs <;> rfl
  | _ => simp [UnpackedFloat.neg]

/-! ## Sizes of unpacked doubles -/

theorem roundWithAccuracy_abs (s : Sign) (m : ℕ) (e : ℤ) (a : Accuracy) :
    (roundWithAccuracy .binary64 s m e a).abs = roundWithAccuracy .binary64 .positive m e a := by
  unfold roundWithAccuracy
  simp only
  split_ifs <;> rfl

theorem abs_mul_unpacked (u v : UnpackedFloat) :
    (UnpackedFloat.mul .binary64 u v).abs = UnpackedFloat.mul .binary64 u.abs v.abs := by
  cases u <;> cases v <;> try rfl
  exact roundWithAccuracy_abs _ _ _ _

theorem abs_div_unpacked (u v : UnpackedFloat) :
    (UnpackedFloat.div .binary64 u v).abs = UnpackedFloat.div .binary64 u.abs v.abs := by
  cases u <;> cases v <;> try rfl
  exact roundWithAccuracy_abs _ _ _ _

theorem unpack_pack_abs (u : UnpackedFloat) :
    (Float.Model.pack u.abs).unpack = (Float.Model.pack u).unpack.abs := by
  cases u with
  | finite s m e hp =>
    show UnpackedFloat.unpack .binary64
        (UnpackedFloat.pack .binary64 (.finite .positive m e hp)) =
      (UnpackedFloat.unpack .binary64 (UnpackedFloat.pack .binary64 (.finite s m e hp))).abs
    rw [pack_finite, pack_finite]
    split_ifs
    · cases s <;> rfl
    · rw [unpack_packComponents, unpack_packComponents]
      split_ifs <;> rfl
    · rw [unpack_packComponents, unpack_packComponents]
      split_ifs <;> rfl
  | _ => simp [UnpackedFloat.abs]

/-! ## Doubles -/

instance instHasDistribNeg : HasDistribNeg Float where
  neg_neg x := by
    apply eq_of_unpack_eq
    rw [unpack_neg, unpack_neg]
    cases x.toModel.unpack with
    | notANumber => rfl
    | _ => simp only [UnpackedFloat.neg, neg_neg_sign]
  neg_mul x y := by
    apply eq_of_unpack_eq
    rw [unpack_neg, unpack_mul, unpack_mul, unpack_neg, neg_mul_unpacked, unpack_pack_neg]
  mul_neg x y := by
    apply eq_of_unpack_eq
    rw [unpack_neg, unpack_mul, unpack_mul, unpack_neg, mul_neg_unpacked, unpack_pack_neg]

@[simp] theorem neg_div_float (x y : Float) : -x / y = -(x / y) := by
  apply eq_of_unpack_eq
  rw [unpack_neg, unpack_div, unpack_div, unpack_neg, neg_div_unpacked, unpack_pack_neg]

@[simp] theorem div_neg_float (x y : Float) : x / -y = -(x / y) := by
  apply eq_of_unpack_eq
  rw [unpack_neg, unpack_div, unpack_div, unpack_neg, div_neg_unpacked, unpack_pack_neg]

/-- The sum of the opposite numbers is the opposite of the sum, a zero apart. -/
theorem agree_neg_add (x y : Float) : Agree (-x + -y) (-(x + y)) := by
  have h := (neg_add_unpacked x.toModel.unpack y.toModel.unpack).pack
  rw [unpack_pack_neg] at h
  rwa [agree_iff, unpack_neg, unpack_add, unpack_add, unpack_neg, unpack_neg]

theorem Agree.sub (hx : Agree x x') (hy : Agree y y') : Agree (x - y) (x' - y') := by
  rw [sub_eq_add_neg_float, sub_eq_add_neg_float]
  exact hx.add hy.neg

theorem agree_neg_sub (x y : Float) : Agree (-x - y) (-(x + y)) := by
  rw [sub_eq_add_neg_float]
  exact agree_neg_add x y

theorem add_comm_float (x y : Float) : x + y = y + x := by
  apply eq_of_unpack_eq
  rw [unpack_add, unpack_add, add_comm_unpacked]

theorem mul_comm_float (x y : Float) : x * y = y * x := by
  apply eq_of_unpack_eq
  rw [unpack_mul, unpack_mul, mul_comm_unpacked]

/-- A finite number and its opposite cancel. -/
theorem add_neg_self_beq_zero (hx : x.isFinite = true) : (x + -x == 0.0) = true := by
  have hsum : toRat x + toRat (-x) = 0 := by rw [toRat_neg, add_neg_cancel]
  obtain ⟨hf, hv⟩ := toRat_add (x := x) (y := -x) hx (by rw [isFinite_neg, hx]) (by
    rw [hsum, rounded_zero, abs_zero]
    exact zpow_pos two_pos _)
  rw [beq_zero_iff_toRat hf, hv, hsum, rounded_zero]

theorem zero_lt_neg_float (x : Float) : 0.0 < -x ↔ x < 0.0 := by
  rw [lt_iff_compare, lt_iff_compare, unpack_neg]
  show (UnpackedFloat.zero .positive).compare x.toModel.unpack.neg = some .lt ↔
    x.toModel.unpack.compare (.zero .positive) = some .lt
  cases x.toModel.unpack with
  | infinity s | finite s m e hp => cases s <;> exact Iff.rfl
  | _ => simp [UnpackedFloat.compare, UnpackedFloat.neg]

theorem neg_lt_zero_float (x : Float) : -x < 0.0 ↔ 0.0 < x := by
  rw [← zero_lt_neg_float (-x), neg_neg]

/-! ## Sizes and squares -/

theorem abs_neg_float (x : Float) : (-x).abs = x.abs := by
  apply eq_of_unpack_eq
  rw [unpack_abs, unpack_abs, unpack_neg]
  cases x.toModel.unpack <;> rfl

/-- The distance of two numbers, in either order. -/
theorem agree_abs_sub_comm (x y : Float) : Agree (x - y).abs (y - x).abs := by
  have h : Agree (x - y) (-(y - x)) := by
    rw [sub_eq_add_neg_float, add_comm_float, sub_eq_add_neg_float]
    simpa only [neg_neg] using agree_neg_add y (-x)
  rw [← abs_neg_float (y - x)]
  exact h.abs

theorem abs_mul_float (x y : Float) : (x * y).abs = x.abs * y.abs := by
  apply eq_of_unpack_eq
  rw [unpack_abs, unpack_mul, unpack_mul, unpack_abs, unpack_abs, ← abs_mul_unpacked,
    unpack_pack_abs]

theorem abs_div_float (x y : Float) : (x / y).abs = x.abs / y.abs := by
  apply eq_of_unpack_eq
  rw [unpack_abs, unpack_div, unpack_div, unpack_abs, unpack_abs, ← abs_div_unpacked,
    unpack_pack_abs]

theorem abs_mul_self_float (x : Float) : (x * x).abs = x * x := by
  rw [abs_mul_float]
  conv_rhs => rw [← withSign_abs x]
  cases isNegative x
  · rfl
  · exact (neg_mul_neg _ _).symm

/-- The square of a zero is `0`. -/
theorem mul_self_congr (h : Agree x y) : x * x = y * y := by
  rcases h with rfl | ⟨hx, hy⟩
  · rfl
  · obtain ⟨s, hs⟩ := beq_zero_iff.1 hx
    obtain ⟨t, ht⟩ := beq_zero_iff.1 hy
    apply eq_of_unpack_eq
    rw [unpack_mul, unpack_mul, hs, ht]
    cases s <;> cases t <;> rfl

/-- Only `-0` tells the two zeros apart when they are added to it. -/
theorem add_congr_right (h : Agree y y') (hx : x.abs = x) : x + y = x + y' := by
  rcases h with rfl | ⟨hy, hy'⟩
  · rfl
  · obtain ⟨s, hs⟩ := beq_zero_iff.1 hy
    obtain ⟨t, ht⟩ := beq_zero_iff.1 hy'
    have hu := unpack_abs x
    rw [hx] at hu
    apply eq_of_unpack_eq
    rw [unpack_add, unpack_add, hs, ht]
    cases hxu : x.toModel.unpack with
    | zero r =>
      cases r
      · rw [hxu] at hu
        cases hu
      · cases s <;> cases t <;> rfl
    | _ => rfl

/-! ## Powers and rounding -/

theorem pow_three (x : Float) : pow x 3 = 1.0 * x * (x * x) := rfl

theorem powBits_neg_result (bits : ℕ) (r b : Float) (k : ℕ) :
    powBits bits (-r) b k = -powBits bits r b k := by
  induction bits generalizing r b k with
  | zero =>
    rw [powBits, powBits, neg_mul]
    split_ifs <;> rfl
  | succ bits ih =>
    rw [powBits, powBits, ← ih, neg_mul]
    split_ifs <;> rfl

/-- Only the lowest bit of the exponent sees the sign of the base. -/
theorem powBits_neg_base (bits : ℕ) (r b : Float) (k : ℕ) :
    powBits bits r (-b) k = if k % 2 = 1 then -powBits bits r b k else powBits bits r b k := by
  cases bits with
  | zero =>
    rw [powBits, powBits, mul_neg]
    split_ifs <;> rfl
  | succ bits =>
    rw [powBits, powBits, mul_neg, neg_mul_neg]
    split_ifs
    · exact powBits_neg_result ..
    · rfl

theorem pow_neg_of_even (x : Float) {n : ℤ} (hn : Even n) : pow (-x) n = pow x n := by
  have hk : ¬ n.natAbs % 2 = 1 := Nat.not_odd_iff_even.2 (Int.natAbs_even.2 hn) ∘ Nat.odd_iff.2
  rw [pow, pow, powBits_neg_base, if_neg hk]

theorem pow_neg_of_odd (x : Float) {n : ℤ} (hn : Odd n) : pow (-x) n = -pow x n := by
  have hk : n.natAbs % 2 = 1 := Nat.odd_iff.1 (Int.natAbs_odd.2 hn)
  rw [pow, pow, powBits_neg_base, if_pos hk]
  simp only [div_neg_float]
  split_ifs <;> rfl

theorem pow_neg_three (x : Float) : pow (-x) 3 = -pow x 3 := pow_neg_of_odd x (by decide)

theorem Agree.powBits {bits k : ℕ} (hx : Agree x x') (hy : Agree y y') :
    Agree (powBits bits x y k) (powBits bits x' y' k) := by
  induction bits generalizing x x' y y' k with
  | zero => exact .ite Iff.rfl (hx.mul hy) hx
  | succ bits ih => exact ih (.ite Iff.rfl (hx.mul hy) hx) (hy.mul hy)

theorem Agree.pow {n : ℤ} (h : Agree x y) (hn : 0 ≤ n) : Agree (pow x n) (pow y n) := by
  unfold Binary64.pow
  rw [if_neg (by omega), if_neg (by omega)]
  exact (Agree.refl 1.0).powBits h

theorem Agree.roundHalfAway (h : Agree x y) : Agree (roundHalfAway x) (roundHalfAway y) := by
  rcases h with rfl | ⟨hx, hy⟩
  · exact .refl _
  · rw [roundHalfAway_of_beq_zero hx, roundHalfAway_of_beq_zero hy]
    exact Or.inr ⟨hx, hy⟩

theorem Agree.snap (h : Agree x y) (policy : SnapPolicy) :
    Agree (policy.snap x) (policy.snap y) :=
  .ite ((h.roundHalfAway.sub h).abs.lt_iff (.refl _)) h.roundHalfAway h

theorem roundHalfAway_neg (x : Float) : roundHalfAway (-x) = -roundHalfAway x := by
  unfold Binary64.roundHalfAway
  rw [unpack_neg]
  cases x.toModel.unpack with
  | finite s m e hp =>
    simp only [UnpackedFloat.neg]
    split_ifs
    · rfl
    · cases s
      · exact (neg_neg _).symm
      · rfl
  | _ => rfl

theorem snap_neg (policy : SnapPolicy) (x : Float) : policy.snap (-x) = -policy.snap x := by
  have hdistance : Agree (-roundHalfAway x - -x).abs (roundHalfAway x - x).abs := by
    rw [← abs_neg_float (roundHalfAway x - x), sub_eq_add_neg_float (roundHalfAway x)]
    exact (agree_neg_sub (roundHalfAway x) (-x)).abs
  unfold SnapPolicy.snap
  simp only [roundHalfAway_neg, hdistance.lt_iff (.refl policy.epsilon)]
  split_ifs <;> rfl

theorem Agree.clampUnit (h : Agree x y) : Agree (clampUnit x) (clampUnit y) :=
  .ite (h.lt_iff (.refl _)) (.refl _) (.ite ((Agree.refl _).lt_iff h) (.refl _) h)

theorem Agree.scaleOf (h : Agree x y) : Agree (scaleOf x) (scaleOf y) :=
  .ite ((Agree.refl _).lt_iff h.abs) h.abs (.refl _)

end SparsePoly.Binary64
