import Mathlib
import SparsePoly.Proofs.Decimal.Numeral
import SparsePoly.Proofs.Decimal.Reprint

/-!
# Significant digits

`HasDigits d q` says that `q` is a number of at most `d` significant digits.  A numeral without
zeros at the end of its fraction shows as many digits as its number needs
(`Numeral.significant_le_iff`).  A printed number is nearest among those of twelve digits
(`abs_printed_sub_le`), because a number with more decimal places than are printed is too small to
be nearer, and it has twelve digits itself if it has no more in front of the point
(`hasDigits_printed`).
-/

open SparsePoly.Binary64

namespace SparsePoly.Decimal

/-- The number has at most `d` significant digits. -/
def HasDigits (d : ℕ) (q : ℚ) : Prop := ∃ m k : ℤ, |m| < 10 ^ d ∧ q = m * 10 ^ k

variable {d : ℕ} {q x : ℚ}

theorem HasDigits.mul_zpow (h : HasDigits d q) (k : ℤ) : HasDigits d (q * 10 ^ k) := by
  obtain ⟨m, j, hm, rfl⟩ := h
  exact ⟨m, j + k, hm, by rw [zpow_add₀ (by norm_num), mul_assoc]⟩

theorem hasDigits_mul_zpow (k : ℤ) : HasDigits d (q * 10 ^ k) ↔ HasDigits d q := by
  refine ⟨fun h => ?_, fun h => h.mul_zpow k⟩
  have := h.mul_zpow (-k)
  rwa [mul_assoc, ← zpow_add₀ (by norm_num), add_neg_cancel, zpow_zero, mul_one] at this

theorem HasDigits.neg (h : HasDigits d q) : HasDigits d (-q) := by
  obtain ⟨m, k, hm, rfl⟩ := h
  exact ⟨-m, k, by rwa [abs_neg], by rw [Int.cast_neg, neg_mul]⟩

@[simp] theorem hasDigits_neg : HasDigits d (-q) ↔ HasDigits d q :=
  ⟨fun h => neg_neg q ▸ h.neg, HasDigits.neg⟩

/-- Every digit of a number that does not end in a zero is significant. -/
theorem hasDigits_natCast {m : ℕ} (hm : m = 0 ∨ m % 10 ≠ 0) : HasDigits d m ↔ m < 10 ^ d := by
  constructor
  · rintro ⟨n, k, hn, h⟩
    rcases hm with rfl | hm
    · positivity
    rcases lt_or_ge 0 k with hk | hk
    · -- a multiple of ten ends in a zero
      lift k to ℕ using hk.le
      rw [zpow_natCast] at h
      have h : (m : ℤ) = n * 10 ^ k := by exact_mod_cast h
      have hdvd : (10 : ℤ) ∣ m := h ▸ (dvd_pow_self 10 (by omega)).mul_left n
      omega
    · obtain ⟨j, rfl⟩ := Int.exists_eq_neg_ofNat hk
      rw [zpow_neg, zpow_natCast, eq_mul_inv_iff_mul_eq₀ (by positivity)] at h
      have h : (m : ℤ) * 10 ^ j = n := by exact_mod_cast h
      have hle : (m : ℤ) ≤ |n| := by
        rw [← h, abs_of_nonneg (by positivity)]
        exact le_mul_of_one_le_right (by positivity) (one_le_pow₀ (by norm_num))
      exact_mod_cast hle.trans_lt hn
  · intro h
    refine ⟨m, 0, ?_, by simp⟩
    rw [Nat.abs_cast]
    exact_mod_cast h

/-! ## Digits of numerals -/

section

variable {cs : List Char} {c : Char}

theorem allDigits_cons : AllDigits (c :: cs) ↔ c.isDigit = true ∧ AllDigits cs :=
  List.forall_mem_cons

theorem ofDigits_singleton (hc : c.isDigit = true) :
    ofDigits [c] < 10 ∧ (ofDigits [c] = 0 ↔ c = '0') := by
  have hval : ofDigits [c] = c.toNat - 48 := by simp [ofDigits, Nat.ofDigitChars_cons]
  have hzero : c = '0' ↔ c.toNat = 48 := Char.toNat_inj.symm
  simp only [Char.isDigit, Bool.and_eq_true, decide_eq_true_eq, ge_iff_le, UInt32.le_iff_toNat_le]
    at hc
  have hlow : 48 ≤ c.toNat := hc.1
  have hhigh : c.toNat ≤ 57 := hc.2
  rw [hval, hzero]
  omega

theorem ofDigits_cons (c : Char) (cs : List Char) :
    ofDigits (c :: cs) = 10 ^ cs.length * ofDigits [c] + ofDigits cs :=
  ofDigits_append [c] cs

theorem ofDigits_lt (h : AllDigits cs) : ofDigits cs < 10 ^ cs.length := by
  induction cs with
  | nil => exact Nat.one_pos
  | cons c cs ih =>
    obtain ⟨hc, hcs⟩ := allDigits_cons.1 h
    have := (ofDigits_singleton hc).1
    rw [ofDigits_cons, List.length_cons, pow_succ]
    nlinarith [ih hcs]

/-- The digits without leading zeros are as many as the number has. -/
theorem length_dropWhile_le_iff (h : AllDigits cs) :
    (cs.dropWhile (· = '0')).length ≤ d ↔ ofDigits cs < 10 ^ d := by
  induction cs with
  | nil => simp [ofDigits]
  | cons c cs ih =>
    obtain ⟨hc, hcs⟩ := allDigits_cons.1 h
    obtain ⟨-, hzero⟩ := ofDigits_singleton hc
    by_cases h₀ : c = '0'
    · rw [List.dropWhile_cons_of_pos (by simpa using h₀), ih hcs, ofDigits_cons, hzero.2 h₀,
        Nat.mul_zero, Nat.zero_add]
    · rw [List.dropWhile_cons_of_neg (by simpa using h₀)]
      have hlow : 10 ^ cs.length ≤ ofDigits (c :: cs) := by
        rw [ofDigits_cons]
        exact le_add_right (Nat.le_mul_of_pos_right _ (Nat.pos_of_ne_zero (mt hzero.1 h₀)))
      constructor
      · exact fun hle => (ofDigits_lt h).trans_le (Nat.pow_le_pow_right (by norm_num) hle)
      · exact fun hlt => (Nat.pow_lt_pow_iff_right (by norm_num)).1 (hlow.trans_lt hlt)

theorem exists_ofDigits_rdropWhile (cs : List Char) :
    ∃ k : ℕ, ofDigits cs = ofDigits (cs.rdropWhile (· = '0')) * 10 ^ k := by
  induction cs using List.reverseRecOn with
  | nil => exact ⟨0, rfl⟩
  | append_singleton cs c ih =>
    obtain ⟨k, hk⟩ := ih
    by_cases hc : c = '0'
    · refine ⟨k + 1, ?_⟩
      rw [List.rdropWhile_concat_pos _ _ _ (by simpa using hc), hc, ofDigits_append, hk]
      show 10 ^ 1 * _ + 0 = _
      ring
    · exact ⟨0, by rw [List.rdropWhile_concat_neg _ _ _ (by simpa using hc), pow_zero, mul_one]⟩

/-- Digits that do not end in a zero are no multiple of ten. -/
theorem ofDigits_mod_ten_ne (h : AllDigits cs) (hne : cs ≠ []) (hlast : cs.getLast? ≠ some '0') :
    ofDigits cs % 10 ≠ 0 := by
  obtain ⟨ds, c, rfl⟩ := List.eq_nil_or_concat' cs |>.resolve_left hne
  obtain ⟨hlt, hzero⟩ := ofDigits_singleton (h c (by simp))
  rw [List.getLast?_concat, Ne, Option.some_inj, ← hzero] at hlast
  rw [ofDigits_append, List.length_singleton]
  omega

end

namespace Numeral

/-- The digits that count towards the precision: the zeros that end an integer do not. -/
def significand : Numeral → List Char
  | integral whole => whole.chars.rdropWhile (· = '0')
  | decimal whole fraction => whole.chars ++ fraction.chars

/-- The number of significant digits that are shown, the leading zeros left out. -/
def significant (n : Numeral) : ℕ := (n.significand.dropWhile (· = '0')).length

theorem allDigits_significand : ∀ n : Numeral, AllDigits n.significand
  | integral whole => fun c hc => whole.allDigits c ((List.rdropWhile_prefix _ _).subset hc)
  | decimal whole fraction => fun c hc =>
    (List.mem_append.1 hc).elim (whole.allDigits c) (fraction.allDigits c)

theorem getLast?_significand : ∀ {n : Numeral}, n.Trimmed → n.significand.getLast? ≠ some '0'
  | integral whole, _ => by
    intro hlast
    obtain ⟨hne, hc⟩ := List.mem_getLast?_eq_getLast hlast
    have := List.rdropWhile_last_not (· = '0') whole.chars hne
    exact this (decide_eq_true hc.symm)
  | decimal whole fraction, h => by
    rwa [significand, List.getLast?_append_of_ne_nil _ fraction.ne_nil]

theorem exists_value_eq : ∀ n : Numeral, ∃ k : ℤ, n.value = ofDigits n.significand * 10 ^ k
  | integral whole => by
    obtain ⟨k, hk⟩ := exists_ofDigits_rdropWhile whole.chars
    exact ⟨k, by rw [value, significand, hk, zpow_natCast]; push_cast; rfl⟩
  | decimal whole fraction => by
    refine ⟨-fraction.chars.length, ?_⟩
    rw [value, significand, ofDigits_append, zpow_neg, zpow_natCast]
    push_cast
    field_simp

/-- A trimmed numeral shows no more digits than its number has. -/
theorem significant_le_iff {n : Numeral} (h : n.Trimmed) :
    n.significant ≤ d ↔ HasDigits d n.value := by
  obtain ⟨k, hk⟩ := n.exists_value_eq
  have hlast : ofDigits n.significand = 0 ∨ ofDigits n.significand % 10 ≠ 0 := by
    rcases eq_or_ne n.significand [] with hnil | hne
    · exact .inl (by rw [hnil]; rfl)
    · exact .inr (ofDigits_mod_ten_ne n.allDigits_significand hne (getLast?_significand h))
  rw [significant, length_dropWhile_le_iff n.allDigits_significand, hk, hasDigits_mul_zpow,
    hasDigits_natCast hlast]

end Numeral

/-! ## The nearest number of twelve digits -/

/-- No number with the decimal places that are printed is nearer. -/
theorem abs_printed_sub_le_of_places (x : ℚ) (n : ℤ) :
    |printed x - x| ≤ |n / 10 ^ printedPlaces x - x| := by
  have hpow : (0 : ℚ) < 10 ^ printedPlaces x := by positivity
  have hscale (y : ℚ) : |y / 10 ^ printedPlaces x - x| =
      |y - x * 10 ^ printedPlaces x| / 10 ^ printedPlaces x := by
    rw [← abs_of_pos hpow, ← abs_div, abs_of_pos hpow, sub_div, mul_div_cancel_right₀ _ hpow.ne']
  rw [printed, hscale, hscale]
  exact div_le_div_of_nonneg_right (abs_nearestEven_sub_le_abs _ n) hpow.le

/-- The printed number is nearest among the numbers of twelve digits. -/
theorem abs_printed_sub_le (hx : 0 < x) (hq : HasDigits 12 q) : |printed x - x| ≤ |q - x| := by
  obtain ⟨m, k, hm, rfl⟩ := hq
  set p := printedPlaces x with hp
  rcases le_or_gt 0 (k + p) with hk | hk
  · -- the number has no more decimal places than are printed
    obtain ⟨j, hj⟩ := Int.eq_ofNat_of_zero_le hk
    have hgrid : (m : ℚ) * 10 ^ k = (m * 10 ^ j : ℤ) / 10 ^ p := by
      push_cast
      rw [eq_div_iff (by positivity), mul_assoc, ← zpow_natCast, ← zpow_natCast,
        ← zpow_add₀ (by norm_num), hj]
    rw [hgrid]
    exact abs_printed_sub_le_of_places x _
  · -- otherwise it lies below a power of ten that has no more and is not above `x`
    have hunit : ((10 ^ 11 : ℤ) : ℚ) / 10 ^ p = 10 ^ (11 - p : ℤ) := by
      rw [zpow_sub₀ (by norm_num), zpow_natCast, zpow_ofNat]
      push_cast
      rfl
    have hle : (m : ℚ) * 10 ^ k ≤ 10 ^ (11 - p : ℤ) := by
      have hm' : (m : ℚ) ≤ 10 ^ 12 := by exact_mod_cast (le_abs_self m).trans hm.le
      calc (m : ℚ) * 10 ^ k ≤ 10 ^ 12 * 10 ^ k := mul_le_mul_of_nonneg_right hm' (by positivity)
        _ = 10 ^ (12 + k) := (ten_zpow_eq rfl).symm
        _ ≤ 10 ^ (11 - p : ℤ) := zpow_le_zpow_right₀ (by norm_num) (by omega)
    have hunit_le : (10 : ℚ) ^ (11 - p : ℤ) ≤ x := by
      refine le_trans (zpow_le_zpow_right₀ (by norm_num) ?_) (zpow_log_le hx)
      rw [hp, printedPlaces]
      omega
    calc |printed x - x| ≤ |(10 ^ 11 : ℤ) / 10 ^ p - x| := abs_printed_sub_le_of_places x _
      _ = x - 10 ^ (11 - p : ℤ) := by
        rw [hunit, abs_sub_comm, abs_of_nonneg (sub_nonneg.2 hunit_le)]
      _ ≤ x - m * 10 ^ k := sub_le_sub_left hle x
      _ ≤ |m * 10 ^ k - x| := by
        rw [abs_sub_comm]
        exact le_abs_self _

theorem log_lt_iff (hx : 0 < x) : Int.log 10 x < 12 ↔ x < 10 ^ 12 := by
  have := Int.lt_zpow_iff_log_lt (b := 10) (x := 12) (by norm_num) hx
  exact_mod_cast this.symm

/-- Below `10 ^ 12` the printed number has twelve digits. -/
theorem hasDigits_printed (hx : 0 < x) (h : x < 10 ^ 12) : HasDigits 12 (printed x) := by
  have hlog : Int.log 10 x ≤ 11 := Int.lt_add_one_iff.1 ((log_lt_iff hx).2 h)
  obtain ⟨n, hn, hlow, hhigh, -⟩ := printed_bounds hx hlog
  rw [hn, hasDigits_mul_zpow]
  rcases hhigh.eq_or_lt with rfl | hlt
  · exact ⟨1, 12, by norm_num, by norm_num⟩
  · exact ⟨n, 0, by rwa [abs_of_nonneg (le_trans (by norm_num) hlow)], by simp⟩

/-- From `10 ^ 12` on the nearest integer is printed. -/
theorem printed_of_le (h : 10 ^ 12 ≤ x) : printed x = nearestEven x := by
  have hx : 0 < x := lt_of_lt_of_le (by norm_num) h
  have hplaces : printedPlaces x = 0 := by
    have := (log_lt_iff hx).not.2 h.not_gt
    rw [printedPlaces]
    omega
  simp [printed, hplaces]

end SparsePoly.Decimal
