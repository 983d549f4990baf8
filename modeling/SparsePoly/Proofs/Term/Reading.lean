import Mathlib
import SparsePoly.Poly.Text
import SparsePoly.Proofs.Binary64.Integral
import SparsePoly.Proofs.Term.Coefficient

/-!
# Reading the text of a term

The text of a term without its sign is a coefficient, which may be left out, and a power.  Reading
takes it apart at the same place (`ofBody_monomialText`), and gives the exponent and the double that
the coefficient is read back as.
-/

open SparsePoly.Binary64 SparsePoly.Decimal

namespace SparsePoly

/-! ## Exponents -/

namespace Exponent

/-- The rational number without its fraction. -/
def towardZero (q : ℚ) : ℤ := if 0 ≤ q then ⌊q⌋ else ⌈q⌉

/-- The integer moved into the range of the exponents. -/
def saturated (n : ℤ) : ℤ := max (-2 ^ 31) (min n (2 ^ 31 - 1))

@[simp] theorem towardZero_intCast (n : ℤ) : towardZero n = n := by
  unfold towardZero
  split_ifs
  · exact Int.floor_intCast n
  · exact Int.ceil_intCast n

theorem saturated_toInt (e : Exponent) : saturated e.toInt = e.toInt := by
  have hlow := e.le_toInt
  have hhigh := e.toInt_lt
  unfold saturated
  omega

theorem toInt_ofIntClamp (n : ℤ) : (Int32.ofIntClamp n).toInt = saturated n := by
  have hmin : Int32.minValue.toInt = -2147483648 := rfl
  have hmax : Int32.maxValue.toInt = 2147483647 := rfl
  unfold Int32.ofIntClamp saturated
  split_ifs with hl hr
  · rw [Int32.toInt_ofIntLE]
    omega
  · omega
  · omega

/-- A finite double becomes its value without the fraction, moved into range. -/
theorem toInt_truncated {x : Float} (h : x.isFinite = true) :
    (truncated x).toInt = saturated (towardZero (toRat x)) := by
  have hfin := isFinite_iff.1 h
  unfold truncated toRat
  cases hx : x.toModel.unpack with
  | notANumber =>
    rw [hx] at hfin
    exact hfin.elim
  | infinity s =>
    rw [hx] at hfin
    exact hfin.elim
  | zero s =>
    rw [value_zero, ← Int.cast_zero, towardZero_intCast]
    rfl
  | finite s m d hp =>
    have hfloor := Magnitude.floor_eq ⟨m, d⟩
    have hpos : 0 < Magnitude.toRat ⟨m, d⟩ :=
      mul_pos (by exact_mod_cast hp) (zpow_pos two_pos d)
    have hsign : s.apply (Magnitude.floor ⟨m, d⟩) = towardZero (value (.finite s m d hp)) := by
      rw [value_finite_eq]
      cases s with
      | positive =>
        show (Magnitude.floor ⟨m, d⟩ : ℤ) = towardZero (Magnitude.toRat ⟨m, d⟩)
        rw [towardZero, if_pos hpos.le, hfloor]
      | negative =>
        show -(Magnitude.floor ⟨m, d⟩ : ℤ) = towardZero (-Magnitude.toRat ⟨m, d⟩)
        rw [towardZero, if_neg (by linarith), hfloor, Int.ceil_neg]
    simp only [hsign]
    exact toInt_ofIntClamp _

/-- A double with the value of an exponent becomes that exponent. -/
theorem truncated_eq {x : Float} {e : Exponent} (h : IsInt x e.toInt) : truncated x = e := by
  apply Int32.toInt_inj.1
  rw [toInt_truncated h.finite, h.toRat_eq, towardZero_intCast, saturated_toInt]

end Exponent

namespace Term

/-! ## Powers -/

/-- The text of an exponent is a numeral of it. -/
theorem exists_signedNumeral_exponent (e : Exponent) :
    ∃ n : SignedNumeral, (toString e.toInt).toList = n.text ∧ n.value = e.toInt := by
  generalize e.toInt = n
  cases n with
  | ofNat k =>
    refine ⟨⟨false, .integral (.ofNat k)⟩, Nat.toList_repr, ?_⟩
    show ((ofDigits (digits k) : ℕ) : ℚ) = _
    rw [ofDigits_digits]
    rfl
  | negSucc k =>
    refine ⟨⟨true, .integral (.ofNat (k + 1))⟩, ?_, ?_⟩
    · show ("-" ++ (k + 1).repr).toList = _
      rw [String.toList_append, Nat.toList_repr]
      rfl
    · show -((ofDigits (digits (k + 1)) : ℕ) : ℚ) = _
      rw [ofDigits_digits, Int.cast_negSucc]

/-- The text of an exponent is read as the exponent. -/
theorem exists_readFinite_exponent (e : Exponent) :
    ∃ x, readFinite? (toString e.toInt).toList = some x ∧ IsInt x e.toInt := by
  obtain ⟨n, htext, hval⟩ := exists_signedNumeral_exponent e
  have hlow := e.le_toInt
  have hhigh := e.toInt_lt
  have hle : |e.toInt| ≤ 2 ^ 53 := abs_le.2 ⟨by omega, by omega⟩
  obtain ⟨x, hread, hx⟩ := n.exists_readFinite (by
    rw [hval]
    exact abs_intCast_lt hle)
  exact ⟨x, by rw [htext, hread], hx.finite, by rw [hx.toRat_eq, hval, rounded_intCast hle]⟩

/-! ## Taking a term apart -/

/-- A text without the unknown is passed over. -/
theorem splitAtPower_append {cs : List Char} (h : 'x' ∉ cs) (rest : List Char) :
    splitAtPower? (cs ++ rest) =
      (splitAtPower? rest).map fun (before, after) => (cs ++ before, after) := by
  induction cs with
  | nil =>
    rw [List.nil_append]
    cases splitAtPower? rest <;> rfl
  | cons c cs ih =>
    rw [List.mem_cons, not_or] at h
    rw [List.cons_append, splitAtPower?, ih h.2]
    · cases splitAtPower? rest <;> rfl
    · rintro ds rfl
      exact absurd rfl h.1

theorem splitAtPower_eq_none {cs : List Char} (h : 'x' ∉ cs) : splitAtPower? cs = none := by
  have := splitAtPower_append h []
  rwa [List.append_nil] at this

section

variable {cs es : List Char} {r y : Float}

theorem ofBody_constant (hx : 'x' ∉ cs) (h : readFinite? cs = some r) :
    ofBody? cs = some ⟨r, 0⟩ := by
  have hlast : ¬ cs.getLast? = some 'x' := fun h => hx (List.mem_of_getLast? h)
  unfold ofBody?
  rw [splitAtPower_eq_none hx]
  simp only
  rw [if_neg hlast, h, Option.map_some]

theorem ofBody_linear (hx : 'x' ∉ cs) (h : readCoefficient? cs = some r) :
    ofBody? (cs ++ ['x']) = some ⟨r, 1⟩ := by
  have hsplit : splitAtPower? (cs ++ ['x']) = none := splitAtPower_append hx ['x']
  have hlast : (cs ++ ['x']).getLast? = some 'x' := by simp
  unfold ofBody?
  rw [hsplit]
  simp only
  rw [if_pos hlast, List.dropLast_concat, h, Option.map_some]

theorem ofBody_power (hx : 'x' ∉ cs) (h : readCoefficient? cs = some r)
    (hy : readFinite? es = some y) : ofBody? (cs ++ 'x' :: '^' :: es) = some (truncated r y) := by
  have hsplit : splitAtPower? (cs ++ 'x' :: '^' :: es) = some (cs, es) := by
    rw [splitAtPower_append hx, splitAtPower?, Option.map_some]
    simp only
    rw [List.append_nil]
  unfold ofBody?
  rw [hsplit]
  simp only
  rw [h, hy]
  rfl

end

/-! ## Terms -/

theorem ofChunk_of_head {b : List Char} (h : b.head? ≠ some '-') :
    ofChunk b = (ofBody? b).getD zero := by
  unfold ofChunk
  split
  · exact absurd rfl h
  · rfl

/-- What is written of a coefficient before a power. -/
def elided (cs : List Char) : List Char := if cs = ['1'] then [] else cs

theorem readCoefficient_elided {cs : List Char} {r : Float} (h : readFinite? cs = some r)
    (hne : cs ≠ []) : readCoefficient? (elided cs) = some r := by
  have one : readFinite? ['1'] = some 1.0 := by decide +kernel
  unfold elided readCoefficient?
  by_cases h₁ : cs = ['1']
  · rw [if_pos h₁, if_pos rfl, ← one, ← h₁, h]
  · rw [if_neg h₁, if_neg hne, h]

theorem not_mem_elided {cs : List Char} (h : 'x' ∉ cs) : 'x' ∉ elided cs := by
  unfold elided
  split_ifs
  · simp
  · exact h

theorem not_mem_numeral (n : Numeral) : 'x' ∉ n.text := by
  intro hmem
  rcases n.isDigit_or_of_mem_text hmem with h | h
  · cases h
  · cases h

theorem monomialText_eq (x : Float) (e : Exponent) : monomialText x e =
    if e = 0 then coefficientText x else elided (coefficientText x) ++ powerText e := rfl

/-- The text of a positive coefficient before a power is read as the coefficient and the power. -/
theorem ofBody_monomialText {x r : Float} {n : Numeral} (e : Exponent)
    (hr : readFinite? (coefficientText x) = some r) (ht : coefficientText x = n.text) :
    ofBody? (monomialText x e) = some ⟨r, e⟩ := by
  have hx := not_mem_numeral n
  rw [monomialText_eq, ht]
  rw [ht] at hr
  have hread : readCoefficient? (elided n.text) = some r := readCoefficient_elided hr n.text_ne_nil
  unfold powerText
  split_ifs with h₀ h₁
  · rw [h₀]
    exact ofBody_constant hx hr
  · rw [h₁]
    exact ofBody_linear (not_mem_elided hx) hread
  · obtain ⟨y, hy, hint⟩ := exists_readFinite_exponent e
    rw [ofBody_power (not_mem_elided hx) hread hy, truncated, Exponent.truncated_eq hint]

/-- Before the same power different coefficients are written in different ways. -/
theorem coefficientText_eq_of_monomialText_eq {x y : Float} {e : Exponent}
    (hx : coefficientText x ≠ []) (hy : coefficientText y ≠ [])
    (h : monomialText x e = monomialText y e) : coefficientText x = coefficientText y := by
  rw [monomialText_eq, monomialText_eq] at h
  split_ifs at h with h₀
  · exact h
  · have h := List.append_cancel_right h
    unfold elided at h
    split_ifs at h with h₁ h₂ h₂
    · rw [h₁, h₂]
    · exact absurd h.symm hy
    · exact absurd h hx
    · exact h

end Term

end SparsePoly
