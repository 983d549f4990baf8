import Mathlib
import SparsePoly.Proofs.Binary64.Rounding

/-!
# The operations on doubles

The sum, the difference, the product and the quotient of finite doubles are the exact results,
`rounded`, as long as those are below `2 ^ 1024` (`toRat_add`, `toRat_sub`, `toRat_mul`,
`toRat_div`).
-/

open Float.Model Float.Model.UnpackedFloat

namespace SparsePoly.Binary64

/-! ## Packing a rounded result -/

theorem unpack_pack_of_abs_lt {u : UnpackedFloat} (hu : IsCanonical u)
    (h : |value u| < 2 ^ (1024 : ℤ)) : (Float.Model.pack u).unpack = u := by
  cases u with
  | finite s m e hp =>
    refine unpack_pack_of_le hu ?_
    by_contra he
    have hm : 2 ^ 52 ≤ m := hu.normal.resolve_right (by omega)
    have : (2 : ℚ) ^ (1024 : ℤ) ≤ m * 2 ^ e := by
      calc (2 : ℚ) ^ (1024 : ℤ) = 2 ^ 52 * 2 ^ (972 : ℤ) := by
            rw [← zpow_natCast, ← zpow_add₀ two_ne_zero]
            rfl
        _ ≤ 2 ^ 52 * 2 ^ e := mul_le_mul_of_nonneg_left
            (zpow_le_zpow_right₀ one_le_two (by omega)) (by positivity)
        _ ≤ m * 2 ^ e :=
            mul_le_mul_of_nonneg_right (by exact_mod_cast hm) (zpow_pos two_pos e).le
    rw [abs_value_finite] at h
    linarith
  | zero s => exact unpack_pack_zero s
  | infinity s => exact hu.elim
  | notANumber => exact hu.elim

/-- The double that a rounded result packs to. -/
theorem toRat_of_unpacked {x : Float} {u : UnpackedFloat} (hx : x.toModel = .pack u)
    (hu : IsCanonical u) (h : |value u| < 2 ^ (1024 : ℤ)) :
    x.isFinite = true ∧ toRat x = value u := by
  have hunpack := unpack_pack_of_abs_lt hu h
  rw [← hx] at hunpack
  refine ⟨isFinite_iff.2 ?_, ?_⟩
  · rwa [hunpack]
  · unfold toRat
    rw [hunpack]

/-- A double is an integer of at most 53 bits times a power of two. -/
theorem exists_toRat_eq_mul (x : Float) :
    ∃ n t : ℤ, |n| < 2 ^ 53 ∧ -1074 ≤ t ∧ toRat x = n * 2 ^ t := by
  by_cases h₀ : toRat x = 0
  · exact ⟨0, 0, by norm_num, by norm_num, by rw [h₀, Int.cast_zero, zero_mul]⟩
  · obtain ⟨s, m, e, hp, hu⟩ := unpack_of_toRat_ne_zero h₀
    have hr := (isRounded_of_unpack hu).1
    have habs : |s.apply m| = m := by exact_mod_cast abs_apply s m
    refine ⟨s.apply m, e, ?_, hr.le, by rw [toRat, hu, value_finite]⟩
    rw [habs]
    exact_mod_cast hr.lt

/-- A product with a power of two has the bits of the double. -/
theorem rounded_toRat_mul_two_zpow (x : Float) {k : ℤ} (hk : 0 ≤ k) :
    rounded (toRat x * 2 ^ k) = toRat x * 2 ^ k := by
  obtain ⟨n, t, hn, ht, hx⟩ := exists_toRat_eq_mul x
  rw [hx, mul_assoc, ← zpow_add₀ two_ne_zero]
  exact rounded_eq_self_of_lt hn (by omega)

theorem rounded_toRat (x : Float) : rounded (toRat x) = toRat x := by
  simpa using rounded_toRat_mul_two_zpow x le_rfl

theorem IsRounded.mul_zpow_lt {m : ℕ} {e : ℤ} (h : IsRounded m e) (he : e ≤ 971) :
    (m : ℚ) * 2 ^ e < 2 ^ (1024 : ℤ) := by
  calc (m : ℚ) * 2 ^ e < 2 ^ 53 * 2 ^ e :=
        mul_lt_mul_of_pos_right (by exact_mod_cast h.lt) (zpow_pos two_pos e)
    _ ≤ 2 ^ 53 * 2 ^ (971 : ℤ) := mul_le_mul_of_nonneg_left
        (zpow_le_zpow_right₀ one_le_two he) (by positivity)
    _ = 2 ^ (1024 : ℤ) := by
        rw [← zpow_natCast, ← zpow_add₀ two_ne_zero]
        rfl

theorem abs_toRat_lt (x : Float) : |toRat x| < 2 ^ (1024 : ℤ) := by
  cases h : x.toModel.unpack with
  | finite s m e hp =>
    obtain ⟨hr, he⟩ := isRounded_of_unpack h
    unfold toRat
    rw [h, abs_value_finite]
    exact hr.mul_zpow_lt he
  | _ => simp [toRat, h]

/-! ## Sums -/

theorem decreaseExponent_snd (m : ℕ) (e t : ℤ) : (decreaseExponent m e t).2 = min e t := by
  simp only [decreaseExponent]
  omega

theorem decreaseExponent_value (m : ℕ) (e t : ℤ) :
    ((decreaseExponent m e t).1 : ℚ) * 2 ^ (decreaseExponent m e t).2 = m * 2 ^ e := by
  simp only [decreaseExponent, Nat.shiftLeft_eq]
  push_cast
  rw [mul_assoc, ← zpow_natCast, ← zpow_add₀ two_ne_zero]
  congr 2
  ring

theorem decreaseExponent_pos {m : ℕ} (hm : 0 < m) (e t : ℤ) : 0 < (decreaseExponent m e t).1 := by
  simp only [decreaseExponent, Nat.shiftLeft_eq]
  positivity

theorem round_spec (s : Sign) {m : ℕ} (hm : 0 < m) (e : ℤ) :
    IsCanonical (UnpackedFloat.round .binary64 s m e) ∧
      value (UnpackedFloat.round .binary64 s m e) = signed s (rounded (m * 2 ^ e)) := by
  set t := Format.binary64.targetExponent (totalExponent m e) with ht
  have hpos := decreaseExponent_pos hm e t
  have hval := decreaseExponent_value m e t
  have hle : (decreaseExponent m e t).2 ≤ t := by
    rw [decreaseExponent_snd]
    exact min_le_right _ _
  have htarget : (decreaseExponent m e t).2 ≤ Format.binary64.targetExponent
      (totalExponent (decreaseExponent m e t).1 (decreaseExponent m e t).2) := by
    rwa [targetExponent_natCast hpos, hval, ← targetExponent_natCast hm]
  have := roundWithAccuracy_spec s (by exact_mod_cast hpos) (holds_exact _) htarget
  rwa [hval] at this

theorem normalize_spec (m e : ℤ) :
    IsCanonical (normalize .binary64 m e .positive) ∧
      value (normalize .binary64 m e .positive) = rounded (m * 2 ^ e) := by
  unfold UnpackedFloat.normalize
  rcases lt_trichotomy m 0 with h | rfl | h
  · rw [compare_lt_iff_lt.2 h]
    obtain ⟨hc, hv⟩ := round_spec .negative (m := (-m).toNat) (by omega) e
    refine ⟨hc, hv.trans ?_⟩
    have : (((-m).toNat : ℕ) : ℚ) = -m := by
      have : (((-m).toNat : ℕ) : ℤ) = -m := Int.toNat_of_nonneg (by omega)
      exact_mod_cast this
    rw [this, neg_mul, rounded_neg]
    exact neg_neg _
  · rw [compare_eq_iff_eq.2 rfl]
    exact ⟨trivial, by simp⟩
  · rw [compare_gt_iff_gt.2 h]
    obtain ⟨hc, hv⟩ := round_spec .positive (m := m.toNat) (by omega) e
    refine ⟨hc, hv.trans ?_⟩
    have : ((m.toNat : ℕ) : ℚ) = m := by
      have : ((m.toNat : ℕ) : ℤ) = m := Int.toNat_of_nonneg h.le
      exact_mod_cast this
    rw [this]
    rfl

theorem signed_decreaseExponent (s : Sign) {m : ℕ} {e t : ℤ} (h : t ≤ e) :
    ((s.apply (decreaseExponent m e t).1 : ℤ) : ℚ) * 2 ^ t = signed s (m * 2 ^ e) := by
  have hval := decreaseExponent_value m e t
  rw [decreaseExponent_snd, min_eq_right h] at hval
  rw [signed_apply, signed_mul, hval]

theorem add_spec {u v : UnpackedFloat} (hu : IsCanonical u) (hv : IsCanonical v)
    (hur : rounded (value u) = value u) (hvr : rounded (value v) = value v) :
    IsCanonical (UnpackedFloat.add .binary64 u v) ∧
      value (UnpackedFloat.add .binary64 u v) = rounded (value u + value v) := by
  cases u with
  | infinity s => exact hu.elim
  | notANumber => exact hu.elim
  | zero s =>
    cases v with
    | infinity t => exact hv.elim
    | notANumber => exact hv.elim
    | zero t => cases s <;> cases t <;> exact ⟨trivial, by simp [UnpackedFloat.add]⟩
    | finite t n d hn => exact ⟨hv, by rw [value_zero, zero_add, hvr]; rfl⟩
  | finite s m e hm =>
    cases v with
    | infinity t => exact hv.elim
    | notANumber => exact hv.elim
    | zero t => exact ⟨hu, by rw [value_zero, add_zero, hur]; rfl⟩
    | finite t n d hn =>
      have h := normalize_spec (s.apply (decreaseExponent m e (min e d)).1
        + t.apply (decreaseExponent n d (min e d)).1) (min e d)
      refine ⟨h.1, h.2.trans ?_⟩
      congr 1
      push_cast
      rw [add_mul, signed_decreaseExponent s (min_le_left _ _),
        signed_decreaseExponent t (min_le_right _ _), value_finite_eq, value_finite_eq]

theorem toRat_add {x y : Float} (hx : x.isFinite = true) (hy : y.isFinite = true)
    (h : |rounded (toRat x + toRat y)| < 2 ^ (1024 : ℤ)) :
    (x + y).isFinite = true ∧ toRat (x + y) = rounded (toRat x + toRat y) := by
  obtain ⟨hc, hv⟩ := add_spec (isFinite_iff.1 hx) (isFinite_iff.1 hy) (rounded_toRat x)
    (rounded_toRat y)
  unfold toRat at h ⊢
  rw [← hv] at h ⊢
  exact toRat_of_unpacked rfl hc h

theorem sub_eq_add_neg_unpacked (u v : UnpackedFloat) :
    UnpackedFloat.sub .binary64 u v = UnpackedFloat.add .binary64 u v.neg := by
  cases u <;> cases v <;> try rfl
  case finite.finite s m e hm t n d hn =>
    cases t
    · simp only [UnpackedFloat.sub, Sign.apply, sub_neg_eq_add]
      rfl
    · simp only [UnpackedFloat.sub, Sign.apply, sub_eq_add_neg]
      rfl

theorem sub_eq_add_neg_float (x y : Float) : x - y = x + -y := by
  show Float.ofModel (.pack (UnpackedFloat.sub .binary64 x.toModel.unpack y.toModel.unpack)) =
    .ofModel (.pack (UnpackedFloat.add .binary64 x.toModel.unpack (-y).toModel.unpack))
  rw [sub_eq_add_neg_unpacked, unpack_neg]

theorem toRat_sub {x y : Float} (hx : x.isFinite = true) (hy : y.isFinite = true)
    (h : |rounded (toRat x - toRat y)| < 2 ^ (1024 : ℤ)) :
    (x - y).isFinite = true ∧ toRat (x - y) = rounded (toRat x - toRat y) := by
  rw [sub_eq_add_neg_float]
  rw [sub_eq_add_neg, ← toRat_neg] at h ⊢
  exact toRat_add hx (by simpa using hy) h

/-! ## Products and quotients -/

theorem signed_mul_signed (s t : Sign) (x y : ℚ) :
    signed s x * signed t y = signed (s * t) (x * y) := by
  cases s <;> cases t
  · exact neg_mul_neg x y
  · exact neg_mul x y
  · exact mul_neg x y
  · rfl

theorem signed_div_signed (s t : Sign) (x y : ℚ) :
    signed s x / signed t y = signed (s / t) (x / y) := by
  cases s <;> cases t
  · exact neg_div_neg_eq x y
  · exact neg_div y x
  · exact div_neg x
  · rfl

/-- A product of rounded mantissas has at least as many bits as the last place asks for. -/
theorem add_le_targetExponent_mul {m n : ℕ} {d e : ℤ} (hm : IsRounded m d) (hn : IsRounded n e)
    (hm₀ : 0 < m) (hn₀ : 0 < n) :
    d + e ≤ Format.binary64.targetExponent (totalExponent (m * n) (d + e)) := by
  have hmn : 0 < m * n := Nat.mul_pos hm₀ hn₀
  rw [targetExponent_eq]
  by_cases h : 2 ^ 52 ≤ m * n
  · have := (Nat.le_log2 hmn.ne').2 h
    omega
  · have hd : d = -1074 := hm.normal.resolve_left fun h' =>
      h (h'.trans (Nat.le_mul_of_pos_right m hn₀))
    have he : e = -1074 := hn.normal.resolve_left fun h' =>
      h (h'.trans (Nat.le_mul_of_pos_left n hm₀))
    omega

theorem mul_finite_spec (s t : Sign) {m n : ℕ} {d e : ℤ} (hm₀ : 0 < m) (hn₀ : 0 < n)
    (h : d + e ≤ Format.binary64.targetExponent (totalExponent (m * n) (d + e))) :
    IsCanonical (UnpackedFloat.mul .binary64 (.finite s m d hm₀) (.finite t n e hn₀)) ∧
      value (UnpackedFloat.mul .binary64 (.finite s m d hm₀) (.finite t n e hn₀)) =
        rounded (value (.finite s m d hm₀) * value (.finite t n e hn₀)) := by
  have := roundWithAccuracy_spec (s * t) (by exact_mod_cast Nat.mul_pos hm₀ hn₀)
    (holds_exact (m * n)) h
  refine ⟨this.1, this.2.trans ?_⟩
  rw [← rounded_signed, value_finite_eq, value_finite_eq, signed_mul_signed,
    zpow_add₀ two_ne_zero]
  push_cast
  congr 2
  ring

theorem mul_spec {u v : UnpackedFloat} (hu : IsCanonical u) (hv : IsCanonical v) :
    IsCanonical (UnpackedFloat.mul .binary64 u v) ∧
      value (UnpackedFloat.mul .binary64 u v) = rounded (value u * value v) := by
  cases u with
  | infinity s => exact hu.elim
  | notANumber => exact hu.elim
  | zero s =>
    cases v with
    | infinity t => exact hv.elim
    | notANumber => exact hv.elim
    | _ => exact ⟨trivial, by simp [UnpackedFloat.mul]⟩
  | finite s m d hm =>
    cases v with
    | infinity t => exact hv.elim
    | notANumber => exact hv.elim
    | zero t => exact ⟨trivial, by simp [UnpackedFloat.mul]⟩
    | finite t n e hn => exact mul_finite_spec s t hm hn (add_le_targetExponent_mul hu hv hm hn)

theorem toRat_mul {x y : Float} (hx : x.isFinite = true) (hy : y.isFinite = true)
    (h : |rounded (toRat x * toRat y)| < 2 ^ (1024 : ℤ)) :
    (x * y).isFinite = true ∧ toRat (x * y) = rounded (toRat x * toRat y) := by
  obtain ⟨hc, hv⟩ := mul_spec (isFinite_iff.1 hx) (isFinite_iff.1 hy)
  unfold toRat at h ⊢
  rw [← hv] at h ⊢
  exact toRat_of_unpacked rfl hc h

/-- The rest of a division says where the quotient lies above its floor. -/
theorem holds_accuracyOfFraction (a : ℕ) {b : ℕ} (hb : 0 < b) :
    Holds (.ofMantissaAndAccuracy (a / b) (accuracyOfFraction (a % b) b)) (a / b) := by
  have hb' : (0 : ℚ) < b := by exact_mod_cast hb
  have hlt : ((a % b : ℕ) : ℚ) < b := by exact_mod_cast Nat.mod_lt a hb
  have hy : (a : ℚ) / b = (a / b : ℕ) + ((a % b : ℕ) : ℚ) / b := by
    have : (a : ℚ) = b * (a / b : ℕ) + (a % b : ℕ) := by exact_mod_cast (Nat.div_add_mod a b).symm
    field_simp
    linarith
  have hhalf : (1 / 2 : ℚ) ≤ ((a % b : ℕ) : ℚ) / b ↔ b ≤ 2 * (a % b) := by
    have hcast : b ≤ 2 * (a % b) ↔ (b : ℚ) ≤ 2 * ((a % b : ℕ) : ℚ) := by
      exact_mod_cast Iff.rfl
    rw [le_div_iff₀ hb', hcast]
    constructor <;> intro h <;> linarith
  have hhalf' : ((a % b : ℕ) : ℚ) / b = 1 / 2 ↔ 2 * (a % b) = b := by
    rw [div_eq_iff hb'.ne', ← Nat.cast_inj (R := ℚ)]
    push_cast
    constructor <;> intro h <;> linarith
  rw [hy]
  unfold accuracyOfFraction
  rcases Nat.eq_zero_or_pos (a % b) with h₀ | h₀
  · rw [if_pos h₀, h₀]
    simpa using holds_exact (a / b)
  have hpos : 0 < ((a % b : ℕ) : ℚ) / b := div_pos (by exact_mod_cast h₀) hb'
  have hone : ((a % b : ℕ) : ℚ) / b < 1 := (div_lt_one hb').2 hlt
  rw [if_neg h₀.ne']
  rcases lt_trichotomy (2 * (a % b)) b with h | h | h
  · rw [compare_lt_iff_lt.2 h]
    have := mt hhalf.1 h.not_ge
    constructor <;> simp only [ExtendedMantissa.ofMantissaAndAccuracy]
    · linarith
    · linarith
    · simpa using this
    · simp only [Bool.true_eq_false, false_iff, not_or]
      exact ⟨by linarith, fun h' => this (by linarith)⟩
  · rw [compare_eq_iff_eq.2 h]
    have := hhalf'.2 h
    constructor <;> simp only [ExtendedMantissa.ofMantissaAndAccuracy]
    · linarith
    · linarith
    · simp [this]
    · simp [this]
  · rw [compare_gt_iff_gt.2 h]
    have h₁ := hhalf.2 h.le
    have h₂ := mt hhalf'.1 h.ne'
    constructor <;> simp only [ExtendedMantissa.ofMantissaAndAccuracy]
    · linarith
    · linarith
    · simpa using h₁
    · simp only [Bool.true_eq_false, false_iff, not_or]
      exact ⟨by linarith, fun h' => h₂ (by linarith)⟩

/-- The quotient of a division is computed to enough bits. -/
theorem le_targetExponent_div {m n : ℕ} {d e t : ℤ} (hm : 0 < m) (hn : 0 < n)
    (ht : t = min (d - e)
      (Format.binary64.targetExponent (totalExponent m d - totalExponent n e))) :
    t ≤ Format.binary64.targetExponent (totalExponent (m <<< (d - e - t).toNat / n) t) := by
  rw [targetExponent_eq]
  have htarget : Format.binary64.targetExponent (totalExponent m d - totalExponent n e) =
      max ((m.log2 : ℤ) - n.log2 + d - e - 53) (-1074) := by
    show max ((m.log2 : ℤ) + 1 + d - (n.log2 + 1 + e) - (1 + 52 : ℕ))
      (3 - 2 ^ 10 - (1 + 52 : ℕ)) = _
    congr 1
    push_cast
    ring
  rw [htarget] at ht
  by_cases h : t ≤ -1074
  · exact h.trans (le_max_right _ _)
  · set k := (d - e - t).toNat with hk
    have hbits : n.log2 + 53 ≤ m.log2 + k := by omega
    have hlow : 2 ^ 52 * n ≤ m <<< k := by
      calc 2 ^ 52 * n ≤ 2 ^ 52 * 2 ^ (n.log2 + 1) := Nat.mul_le_mul_left _ Nat.lt_log2_self.le
        _ = 2 ^ (n.log2 + 53) := by rw [← pow_add]; congr 1; omega
        _ ≤ 2 ^ (m.log2 + k) := Nat.pow_le_pow_right two_pos hbits
        _ = 2 ^ m.log2 * 2 ^ k := pow_add _ _ _
        _ ≤ m * 2 ^ k := Nat.mul_le_mul_right _ (Nat.log2_self_le hm.ne')
        _ = m <<< k := (Nat.shiftLeft_eq _ _).symm
    have hq : 2 ^ 52 ≤ m <<< k / n := (Nat.le_div_iff_mul_le hn).2 hlow
    have := (Nat.le_log2 (by omega)).2 hq
    omega

theorem div_finite_spec (s t : Sign) {m n : ℕ} (d e : ℤ) (hm : 0 < m) (hn : 0 < n) :
    IsCanonical (UnpackedFloat.div .binary64 (.finite s m d hm) (.finite t n e hn)) ∧
      value (UnpackedFloat.div .binary64 (.finite s m d hm) (.finite t n e hn)) =
        rounded (value (.finite s m d hm) / value (.finite t n e hn)) := by
  set target := min (d - e)
    (Format.binary64.targetExponent (totalExponent m d - totalExponent n e)) with ht
  have hM : 0 < m <<< (d - e - target).toNat := by
    rw [Nat.shiftLeft_eq]
    positivity
  have hy : (0 : ℚ) < (m <<< (d - e - target).toNat : ℕ) / n :=
    div_pos (by exact_mod_cast hM) (by exact_mod_cast hn)
  have hval : ((m <<< (d - e - target).toNat : ℕ) : ℚ) / n * 2 ^ target =
      m * 2 ^ d / (n * 2 ^ e) := by
    have hle : target ≤ d - e := min_le_left _ _
    have hn' : (n : ℚ) ≠ 0 := by exact_mod_cast hn.ne'
    rw [Nat.shiftLeft_eq]
    push_cast
    rw [← zpow_natCast, Int.toNat_of_nonneg (by omega), zpow_sub₀ two_ne_zero,
      zpow_sub₀ two_ne_zero]
    field_simp
  have := roundWithAccuracy_spec (s / t) hy (holds_accuracyOfFraction _ hn)
    (le_targetExponent_div hm hn ht)
  rw [hval, ← rounded_signed] at this
  refine ⟨this.1, this.2.trans ?_⟩
  rw [value_finite_eq, value_finite_eq, signed_div_signed]

theorem div_spec {u v : UnpackedFloat} (hu : IsCanonical u) (hv : IsCanonical v)
    (h₀ : value v ≠ 0) :
    IsCanonical (UnpackedFloat.div .binary64 u v) ∧
      value (UnpackedFloat.div .binary64 u v) = rounded (value u / value v) := by
  cases v with
  | infinity t => exact hv.elim
  | notANumber => exact hv.elim
  | zero t => exact absurd (value_zero t) h₀
  | finite t n e hn =>
    cases u with
    | finite s m d hm => exact div_finite_spec s t d e hm hn
    | zero s => exact ⟨trivial, by simp [UnpackedFloat.div]⟩
    | infinity s => exact hu.elim
    | notANumber => exact hu.elim

theorem toRat_div {x y : Float} (hx : x.isFinite = true) (hy₀ : toRat y ≠ 0)
    (h : |rounded (toRat x / toRat y)| < 2 ^ (1024 : ℤ)) :
    (x / y).isFinite = true ∧ toRat (x / y) = rounded (toRat x / toRat y) := by
  obtain ⟨t, n, e, hn, hyu⟩ := unpack_of_toRat_ne_zero hy₀
  have hyc : IsCanonical y.toModel.unpack := by
    rw [hyu]
    exact (isRounded_of_unpack hyu).1
  obtain ⟨hc, hv⟩ := div_spec (isFinite_iff.1 hx) hyc hy₀
  unfold toRat at h ⊢
  rw [← hv] at h ⊢
  exact toRat_of_unpacked rfl hc h

end SparsePoly.Binary64
