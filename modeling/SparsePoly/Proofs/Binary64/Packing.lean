import Mathlib
import SparsePoly.Binary64

/-!
# Packing and unpacking

A double is known from its unpacked form: `unpack` is injective, what it gives is rounded
(`IsRounded`), and packing a rounded pair of mantissa and exponent and unpacking it again gives the
same pair, or an infinity if the exponent is above `971`.
-/

open Float.Model Float.Model.UnpackedFloat

namespace SparsePoly.Binary64

/-! ## The fields of a packed double -/

theorem toNat_append {k n : ℕ} (a : BitVec k) (b : BitVec n) :
    (a ++ b).toNat = a.toNat * 2 ^ n + b.toNat := by
  rw [BitVec.toNat_append, ← Nat.shiftLeft_add_eq_or_of_lt b.isLt, Nat.shiftLeft_eq]

section Fields

variable (b : BitVec (Format.numBits .binary64))

theorem toNat_unpackMantissa : (unpackMantissa b).toNat = b.toNat % 2 ^ 52 := by
  simp [unpackMantissa]

theorem toNat_unpackExponent : (unpackExponent b).toNat = b.toNat / 2 ^ 52 % 2 ^ 11 := by
  simp [unpackExponent, Nat.shiftRight_eq_div_pow]

theorem toNat_unpackSign : (unpackSign b).toNat = b.toNat / 2 ^ 63 := by
  have : b.toNat < 2 ^ 64 := b.isLt
  simp [unpackSign, Nat.shiftRight_eq_div_pow]
  omega

end Fields

theorem toNat_packComponents (s : Sign) (e : BitVec 11) (m : BitVec 52) :
    (packComponents .binary64 s e m).toNat =
      (s.toBitVec.toNat * 2 ^ 11 + e.toNat) * 2 ^ 52 + m.toNat := by
  unfold packComponents
  rw [toNat_append, toNat_append]

theorem unpackSign_packComponents (s : Sign) (e : BitVec 11) (m : BitVec 52) :
    unpackSign (packComponents .binary64 s e m) = s.toBitVec := by
  apply BitVec.eq_of_toNat_eq
  rw [toNat_unpackSign, toNat_packComponents]
  have := e.isLt
  have := m.isLt
  omega

theorem eq_of_fields_eq {a b : BitVec (Format.numBits .binary64)}
    (hs : unpackSign a = unpackSign b) (he : unpackExponent a = unpackExponent b)
    (hm : unpackMantissa a = unpackMantissa b) : a = b := by
  have hs := congrArg BitVec.toNat hs
  have he := congrArg BitVec.toNat he
  have hm := congrArg BitVec.toNat hm
  rw [toNat_unpackSign, toNat_unpackSign] at hs
  rw [toNat_unpackExponent, toNat_unpackExponent] at he
  rw [toNat_unpackMantissa, toNat_unpackMantissa] at hm
  apply BitVec.eq_of_toNat_eq
  omega

theorem ofBitVec_toBitVec (s : Sign) : Sign.ofBitVec s.toBitVec = s := by cases s <;> rfl

theorem toBitVec_ofBitVec (b : BitVec 1) : (Sign.ofBitVec b).toBitVec = b := by
  have hb := b.isLt
  unfold Sign.ofBitVec
  rw [← BitVec.toNat_inj]
  split_ifs with h
  · rw [h]
    rfl
  · rw [← BitVec.toNat_inj] at h
    have h : b.toNat ≠ 0 := h
    show 1 = b.toNat
    omega

/-! ## Rounded pairs -/

/-- A mantissa and an exponent as the format holds them: the mantissa has 53 bits, and uses the
highest of them unless the exponent is the least one. -/
structure IsRounded (m : ℕ) (e : ℤ) : Prop where
  lt : m < 2 ^ 53
  le : -1074 ≤ e
  normal : 2 ^ 52 ≤ m ∨ e = -1074

variable {s : Sign} {m : ℕ} {e : ℤ} {hp : 0 < m}

theorem IsRounded.log2_eq_iff (h : IsRounded m e) (hm : 0 < m) : m.log2 = 52 ↔ 2 ^ 52 ≤ m := by
  rw [Nat.log2_eq_iff hm.ne']
  have := h.lt
  omega

/-- The unpacked form of a double by its three fields. -/
theorem unpack_eq (b : BitVec (Format.numBits .binary64)) :
    UnpackedFloat.unpack .binary64 b =
      if (unpackExponent b).toNat = 2047 then
        if unpackMantissa b = 0#_ then .infinity (Sign.ofBitVec (unpackSign b)) else .notANumber
      else if (unpackExponent b).toNat = 0 then
        if h : unpackMantissa b = 0#_ then .zero (Sign.ofBitVec (unpackSign b))
        else .finite (Sign.ofBitVec (unpackSign b)) (unpackMantissa b).toNat (-1074)
          (by simpa [BitVec.toNat_pos, BitVec.pos_iff_ne_zero])
      else .finite (Sign.ofBitVec (unpackSign b)) (2 ^ 52 + (unpackMantissa b).toNat)
        ((unpackExponent b).toNat - 1075) (by positivity) := by
  have h₁ : unpackExponent b = -1#_ ↔ (unpackExponent b).toNat = 2047 := by
    rw [← BitVec.toNat_inj]
    rfl
  have h₀ : unpackExponent b = 0#_ ↔ (unpackExponent b).toNat = 0 := by
    rw [← BitVec.toNat_inj]
    rfl
  unfold UnpackedFloat.unpack
  simp only [h₁, h₀]
  split_ifs with hi hm hz hm <;> try rfl
  · congr 1
    rw [hz]
    rfl
  · congr 1
    rw [toNat_append]
    rfl

theorem isRounded_of_unpack {x : Float} (h : x.toModel.unpack = .finite s m e hp) :
    IsRounded m e ∧ e ≤ 971 := by
  obtain ⟨bits, hbits⟩ : ∃ b : BitVec (Format.numBits .binary64), x.toModel.toBits.toBitVec = b :=
    ⟨_, rfl⟩
  unfold Float.Model.unpack at h
  rw [hbits, unpack_eq] at h
  have hm : (unpackMantissa bits).toNat < 2 ^ 52 := BitVec.isLt _
  have he : (unpackExponent bits).toNat < 2 ^ 11 := BitVec.isLt _
  split_ifs at h with hi hz hz hz
  · injection h with _ h₂ h₃
    subst h₂ h₃
    exact ⟨⟨by omega, le_rfl, Or.inr rfl⟩, by omega⟩
  · injection h with _ h₂ h₃
    subst h₂ h₃
    exact ⟨⟨by omega, by omega, Or.inl (by omega)⟩, by omega⟩

/-! ## Packing and unpacking again -/

theorem unpack_packComponents (s : Sign) (e : BitVec 11) (m : BitVec 52) :
    UnpackedFloat.unpack .binary64 (packComponents .binary64 s e m) =
      if e.toNat = 2047 then if m = 0#_ then .infinity s else .notANumber
      else if e.toNat = 0 then
        if h : m = 0#_ then .zero s
        else .finite s m.toNat (-1074) (by simpa [BitVec.toNat_pos, BitVec.pos_iff_ne_zero])
      else .finite s (2 ^ 52 + m.toNat) (e.toNat - 1075) (by positivity) := by
  rw [unpack_eq]
  simp only [unpackExponent_packComponents, unpackMantissa_packComponents,
    unpackSign_packComponents, ofBitVec_toBitVec]

@[simp] theorem unpack_pack_notANumber :
    (Float.Model.pack .notANumber).unpack = .notANumber := rfl

@[simp] theorem unpack_pack_infinity (s : Sign) :
    (Float.Model.pack (.infinity s)).unpack = .infinity s := by cases s <;> rfl

@[simp] theorem unpack_pack_zero (s : Sign) :
    (Float.Model.pack (.zero s)).unpack = .zero s := by cases s <;> rfl

theorem pack_finite (s : Sign) (m : ℕ) (e : ℤ) (hp : 0 < m) :
    UnpackedFloat.pack .binary64 (.finite s m e hp) =
      if 971 < e then packedInfinity .binary64 s
      else if m.log2 = 52 then
        packComponents .binary64 s (BitVec.ofNat 11 (e + 1075).toNat) (BitVec.ofNat 52 m)
      else packComponents .binary64 s 0#_ (BitVec.ofNat 52 m) := by
  have hexp : (e + (1023 : ℕ) + (52 : ℕ)).toNat = (e + 1075).toNat := by congr 1; push_cast; ring
  unfold UnpackedFloat.pack
  show (if 2 ^ 11 ≤ (e + (1023 : ℕ) + (52 : ℕ)).toNat + 1 then _ else
    if m.log2 + 1 = 53 then _ else _) = _
  rw [hexp]
  congr 1
  · simp only [eq_iff_iff]
    omega
  · simp only [Nat.reduceEqDiff]
    congr 2
    exact congrArg _ hexp

theorem unpack_pack_of_le (h : IsRounded m e) (he : e ≤ 971) :
    (Float.Model.pack (.finite s m e hp)).unpack = .finite s m e hp := by
  show UnpackedFloat.unpack .binary64 (UnpackedFloat.pack .binary64 (.finite s m e hp)) = _
  have hlow := h.le
  have hlt := h.lt
  rw [pack_finite, if_neg (by omega)]
  by_cases hm : 2 ^ 52 ≤ m
  · rw [if_pos ((h.log2_eq_iff hp).2 hm), unpack_packComponents]
    have h₁ : (BitVec.ofNat 11 (e + 1075).toNat).toNat = (e + 1075).toNat := by
      rw [BitVec.toNat_ofNat, Nat.mod_eq_of_lt (by omega)]
    have h₂ : 2 ^ 52 + (BitVec.ofNat 52 m).toNat = m := by
      rw [BitVec.toNat_ofNat]
      omega
    rw [if_neg (by omega), if_neg (by omega)]
    congr 1
    omega
  · have he : e = -1074 := h.normal.resolve_left hm
    have h₁ : (BitVec.ofNat 52 m).toNat = m := by
      rw [BitVec.toNat_ofNat, Nat.mod_eq_of_lt (by omega)]
    have h₂ : BitVec.ofNat 52 m ≠ 0#52 := by
      rw [Ne, ← BitVec.toNat_inj, h₁]
      exact hp.ne'
    rw [if_neg (fun h' => hm ((h.log2_eq_iff hp).1 h')), unpack_packComponents]
    rw [if_neg (by simp), if_pos (by simp), dif_neg h₂]
    congr 1
    exact he.symm

theorem packComponents_eq {b : BitVec (Format.numBits .binary64)} {e : BitVec 11} {m : BitVec 52}
    (he : e.toNat = (unpackExponent b).toNat) (hm : m.toNat = (unpackMantissa b).toNat) :
    packComponents .binary64 (Sign.ofBitVec (unpackSign b)) e m = b := by
  apply eq_of_fields_eq
  · rw [unpackSign_packComponents, toBitVec_ofBitVec]
  · rw [unpackExponent_packComponents]
    exact BitVec.eq_of_toNat_eq he
  · rw [unpackMantissa_packComponents]
    exact BitVec.eq_of_toNat_eq hm

/-- A double is determined by its unpacked form. -/
theorem pack_unpack (x : Float.Model) : Float.Model.pack x.unpack = x := by
  obtain ⟨⟨b⟩, valid⟩ := x
  change BitVec (Format.numBits .binary64) at b
  have hm : (unpackMantissa b).toNat < 2 ^ 52 := BitVec.isLt _
  have he : (unpackExponent b).toNat < 2 ^ 11 := BitVec.isLt _
  suffices h : UnpackedFloat.pack .binary64 (UnpackedFloat.unpack .binary64 b) = b by
    simp only [Float.Model.pack, Float.Model.unpack, h]
  rw [unpack_eq]
  split_ifs with hi hz h₀ hz
  · exact packComponents_eq hi.symm (by rw [hz]; rfl)
  · refine (valid.eq_packedNaN ?_ hz).symm
    rw [← BitVec.toNat_inj]
    exact hi
  · exact packComponents_eq h₀.symm (by rw [hz]; rfl)
  · have hlog : (unpackMantissa b).toNat.log2 ≠ 52 := by
      rw [← BitVec.toNat_inj] at hz
      have := (Nat.log2_lt hz).2 hm
      omega
    rw [pack_finite, if_neg (by omega), if_neg hlog]
    refine packComponents_eq h₀.symm ?_
    rw [BitVec.toNat_ofNat, Nat.mod_eq_of_lt hm]
  · have hlog : (2 ^ 52 + (unpackMantissa b).toNat).log2 = 52 := by
      rw [Nat.log2_eq_iff (by omega)]
      omega
    rw [pack_finite, if_neg (by omega), if_pos hlog]
    apply packComponents_eq
    · rw [BitVec.toNat_ofNat]
      omega
    · rw [BitVec.toNat_ofNat]
      omega

theorem unpack_injective : Function.Injective Float.Model.unpack :=
  Function.LeftInverse.injective pack_unpack

theorem eq_of_unpack_eq {x y : Float} (h : x.toModel.unpack = y.toModel.unpack) : x = y := by
  obtain ⟨x⟩ := x
  obtain ⟨y⟩ := y
  exact congrArg Float.ofModel (unpack_injective h)

end SparsePoly.Binary64
