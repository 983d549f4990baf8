import Mathlib
import SparsePoly.Proofs.Binary64.Conversion
import SparsePoly.Proofs.Decimal.Positional

/-!
# Numerals

A `Numeral` is digits with at most one point between them.  It is read as the double nearest to the
number that it writes, with a minus sign in front of it or without one
(`Numeral.exists_readFinite`).  Positional text is the text of a numeral
(`exists_numeral_positional`), also without the zeros that would end the fraction
(`exists_numeral_trimmed`).
-/

open SparsePoly.Binary64

namespace SparsePoly.Decimal

/-! ## Digits -/

/-- Every character is a digit. -/
def AllDigits (cs : List Char) : Prop := ∀ c ∈ cs, c.isDigit = true

variable {cs whole fraction : List Char} {n places : ℕ}

theorem allDigits_digits (n : ℕ) : AllDigits (digits n) := fun _ hc =>
  Nat.isDigit_of_mem_toDigits (by norm_num) (by norm_num) hc

theorem digits_ne_nil (n : ℕ) : digits n ≠ [] := Nat.toDigits_ne_nil

theorem ofDigits_digits (n : ℕ) : ofDigits (digits n) = n := Nat.ofDigitChars_ten_toDigits

theorem ofDigits_append (cs ds : List Char) :
    ofDigits (cs ++ ds) = 10 ^ ds.length * ofDigits cs + ofDigits ds := by
  rw [ofDigits, Nat.ofDigitChars_append, Nat.ofDigitChars_eq_ofDigitChars_zero]
  rfl

theorem allDigits_padded (width n : ℕ) : AllDigits (padded width n) := by
  intro c hc
  rcases List.mem_append.1 hc with hc | hc
  · rw [List.eq_of_mem_replicate hc]
    rfl
  · exact allDigits_digits n c hc

theorem ofDigits_padded (width n : ℕ) : ofDigits (padded width n) = n := by
  have hzeros (k : ℕ) : ofDigits (List.replicate k '0') = 0 := by
    rw [ofDigits, Nat.ofDigitChars_replicate_zero, Nat.mul_zero]
  rw [padded, ofDigits_append, hzeros, ofDigits_digits, Nat.mul_zero, Nat.zero_add]

theorem length_padded {width : ℕ} (hw : 0 < width) (h : n < 10 ^ width) :
    (padded width n).length = width := by
  have : (digits n).length ≤ width := (Nat.length_toDigits_le_iff (by norm_num) hw).2 h
  rw [padded, List.length_append, List.length_replicate]
  omega

/-! ## Numerals -/

theorem takeWhile_append_of_allDigits (h : AllDigits cs) (ds : List Char) :
    (cs ++ ds).takeWhile Char.isDigit = cs ++ ds.takeWhile Char.isDigit :=
  List.takeWhile_append_of_pos h

theorem dropWhile_append_of_allDigits (h : AllDigits cs) (ds : List Char) :
    (cs ++ ds).dropWhile Char.isDigit = ds.dropWhile Char.isDigit :=
  List.dropWhile_append_of_pos h

theorem readDecimal_of_allDigits (h : AllDigits cs) (hne : cs ≠ []) :
    readDecimal? cs = some (ofScaled (ofDigits cs) 0) := by
  have htake : cs.takeWhile Char.isDigit = cs := by
    simpa using takeWhile_append_of_allDigits h []
  have hdrop : cs.dropWhile Char.isDigit = [] := by
    simpa using dropWhile_append_of_allDigits h []
  simp [readDecimal?, htake, hdrop, hne, readExponent?]

theorem readDecimal_of_point (hw : AllDigits whole) (hne : whole ≠ []) (hf : AllDigits fraction) :
    readDecimal? (whole ++ '.' :: fraction) =
      some (ofScaled (ofDigits (whole ++ fraction)) (-fraction.length)) := by
  have htake : (whole ++ '.' :: fraction).takeWhile Char.isDigit = whole := by
    rw [takeWhile_append_of_allDigits hw]
    simp [Char.isDigit]
  have hdrop : (whole ++ '.' :: fraction).dropWhile Char.isDigit = '.' :: fraction := by
    rw [dropWhile_append_of_allDigits hw]
    simp [Char.isDigit]
  have hftake : fraction.takeWhile Char.isDigit = fraction := by
    simpa using takeWhile_append_of_allDigits hf []
  have hfdrop : fraction.dropWhile Char.isDigit = [] := by
    simpa using dropWhile_append_of_allDigits hf []
  simp [readDecimal?, htake, hdrop, hftake, hfdrop, hne, readExponent?]

theorem ne_of_isDigit {c d : Char} (hc : c.isDigit = true) (hd : d.isDigit = false) : c ≠ d := by
  rintro rfl
  rw [hc] at hd
  cases hd

theorem toLower_of_isDigit {c : Char} (hc : c.isDigit = true) : c.toLower = c := by
  have : ¬ (c ≥ 'A' ∧ c ≤ 'Z') := by
    simp only [Char.isDigit, Bool.and_eq_true, decide_eq_true_eq] at hc
    rintro ⟨h, -⟩
    exact absurd (le_trans h hc.2) (by decide)
  simp [Char.toLower]
  intro h₁ h₂
  exact absurd ⟨h₁, h₂⟩ this

/-- A text that starts with a digit is none of the words. -/
theorem readUnsigned_of_isDigit {c : Char} (hc : c.isDigit = true) (cs : List Char) :
    readUnsigned? (c :: cs) = readDecimal? (c :: cs) := by
  unfold readUnsigned?
  rw [List.map_cons, toLower_of_isDigit hc]
  split
  · next h => exact absurd (List.cons.inj h).1 (ne_of_isDigit hc rfl)
  · next h => exact absurd (List.cons.inj h).1 (ne_of_isDigit hc rfl)
  · next h => exact absurd (List.cons.inj h).1 (ne_of_isDigit hc rfl)
  · rfl

theorem readNumeral_of_isDigit {c : Char} (hc : c.isDigit = true) (cs : List Char) :
    readNumeral? (c :: cs) = readDecimal? (c :: cs) := by
  unfold readNumeral?
  split
  · next h => exact absurd (List.cons.inj h).1 (ne_of_isDigit hc rfl)
  · next h => exact absurd (List.cons.inj h).1 (ne_of_isDigit hc rfl)
  · exact readUnsigned_of_isDigit hc cs

/-- A finite numeral may have a minus sign in front of it. -/
theorem readFinite_of_isDigit {c : Char} {x : Float} (hc : c.isDigit = true)
    (h : readDecimal? (c :: cs) = some x) (hx : x.isFinite = true) :
    readFinite? (c :: cs) = some x ∧ readFinite? ('-' :: c :: cs) = some (-x) := by
  constructor
  · rw [readFinite?, readNumeral_of_isDigit hc, h]
    simp [Option.filter, hx]
  · rw [readFinite?, readNumeral?, readUnsigned_of_isDigit hc, h]
    simp [Option.filter, hx]

theorem exists_cons_of_allDigits (h : AllDigits cs) (hne : cs ≠ []) :
    ∃ c ds, cs = c :: ds ∧ c.isDigit = true := by
  cases cs with
  | nil => exact absurd rfl hne
  | cons c ds => exact ⟨c, ds, rfl, h c List.mem_cons_self⟩

/-- At least one digit. -/
structure Digits where
  chars : List Char
  allDigits : AllDigits chars
  ne_nil : chars ≠ []

/-- Digits, or digits on either side of a point. -/
inductive Numeral
  | integral (whole : Digits)
  | decimal (whole fraction : Digits)

/-- The double is finite and the nearest one to `q`, the even one of two. -/
structure IsNearest (x : Float) (q : ℚ) : Prop where
  finite : x.isFinite = true
  toRat_eq : toRat x = rounded q

theorem IsNearest.neg {x : Float} {q : ℚ} (h : IsNearest x q) : IsNearest (-x) (-q) where
  finite := by rw [isFinite_neg, h.finite]
  toRat_eq := by rw [toRat_neg, h.toRat_eq, rounded_neg]

theorem IsNearest.abs_rounded_lt {x : Float} {q : ℚ} (h : IsNearest x q) :
    |rounded q| < 2 ^ (1024 : ℤ) := by
  rw [← h.toRat_eq]
  exact abs_toRat_lt x

namespace Numeral

/-- The characters of the numeral. -/
def text : Numeral → List Char
  | integral whole => whole.chars
  | decimal whole fraction => whole.chars ++ '.' :: fraction.chars

/-- The number that the numeral writes. -/
def value : Numeral → ℚ
  | integral whole => ofDigits whole.chars
  | decimal whole fraction =>
    ofDigits whole.chars + ofDigits fraction.chars / 10 ^ fraction.chars.length

theorem exists_cons_text : ∀ n : Numeral, ∃ c ds, n.text = c :: ds ∧ c.isDigit = true
  | integral whole => exists_cons_of_allDigits whole.allDigits whole.ne_nil
  | decimal whole fraction => by
    obtain ⟨c, ds, hc, hd⟩ := exists_cons_of_allDigits whole.allDigits whole.ne_nil
    exact ⟨c, ds ++ '.' :: fraction.chars, by rw [text, hc, List.cons_append], hd⟩

theorem text_ne_nil (n : Numeral) : n.text ≠ [] := by
  obtain ⟨c, ds, hc, -⟩ := n.exists_cons_text
  rw [hc]
  exact List.cons_ne_nil c ds

theorem isDigit_or_of_mem_text {c : Char} : ∀ n : Numeral, c ∈ n.text →
    c.isDigit = true ∨ c = '.'
  | integral whole, h => Or.inl (whole.allDigits c h)
  | decimal whole fraction, h => by
    rcases List.mem_append.1 h with h | h
    · exact Or.inl (whole.allDigits c h)
    · rcases List.mem_cons.1 h with h | h
      · exact Or.inr h
      · exact Or.inl (fraction.allDigits c h)

/-- The digits are read as an integer and the place of its last digit. -/
theorem exists_readDecimal : ∀ n : Numeral, ∃ (m : ℕ) (place : ℤ),
    readDecimal? n.text = some (ofScaled m place) ∧ n.value = m * 10 ^ place
  | integral whole =>
    ⟨_, 0, readDecimal_of_allDigits whole.allDigits whole.ne_nil, by rw [zpow_zero, mul_one]; rfl⟩
  | decimal whole fraction => by
    refine ⟨_, _, readDecimal_of_point whole.allDigits whole.ne_nil fraction.allDigits, ?_⟩
    rw [value, ofDigits_append, zpow_neg, zpow_natCast]
    push_cast
    field_simp

/-- A numeral in range is read as the double nearest to the number that it writes. -/
theorem exists_readFinite (n : Numeral) (h : |rounded n.value| < 2 ^ (1024 : ℤ)) :
    ∃ x, readFinite? n.text = some x ∧ readFinite? ('-' :: n.text) = some (-x) ∧
      IsNearest x n.value := by
  obtain ⟨m, place, hread, hval⟩ := n.exists_readDecimal
  obtain ⟨c, ds, hc, hd⟩ := n.exists_cons_text
  rw [hval] at h ⊢
  obtain ⟨hf, hv⟩ := toRat_ofScaled h
  rw [hc] at hread ⊢
  obtain ⟨hpos, hneg⟩ := readFinite_of_isDigit hd hread hf
  exact ⟨_, hpos, hneg, hf, hv⟩

end Numeral

/-- A numeral with a minus sign in front of it or without one. -/
structure SignedNumeral where
  negative : Bool
  size : Numeral

namespace SignedNumeral

/-- The characters of the numeral. -/
def text (n : SignedNumeral) : List Char :=
  if n.negative then '-' :: n.size.text else n.size.text

/-- The number that the numeral writes. -/
def value (n : SignedNumeral) : ℚ := if n.negative then -n.size.value else n.size.value

theorem exists_readFinite (n : SignedNumeral) (h : |rounded n.value| < 2 ^ (1024 : ℤ)) :
    ∃ x, readFinite? n.text = some x ∧ IsNearest x n.value := by
  obtain ⟨negative, size⟩ := n
  cases negative with
  | true =>
    have h : |rounded (-size.value)| < 2 ^ (1024 : ℤ) := h
    rw [rounded_neg, abs_neg] at h
    obtain ⟨x, -, hneg, hx⟩ := size.exists_readFinite h
    exact ⟨-x, hneg, hx.neg⟩
  | false =>
    obtain ⟨x, hpos, -, hx⟩ := size.exists_readFinite h
    exact ⟨x, hpos, hx⟩

end SignedNumeral

/-! ## Positional text -/

/-- The digits of a natural number. -/
def Digits.ofNat (n : ℕ) : Digits := ⟨digits n, allDigits_digits n, digits_ne_nil n⟩

theorem ofDigits_mod_ten (h : cs.getLast? = some '0') : ofDigits cs % 10 = 0 := by
  obtain ⟨ds, rfl⟩ := List.getLast?_eq_some_iff.1 h
  rw [ofDigits_append]
  exact Nat.mul_mod_right 10 (ofDigits ds)

/-- The fraction does not end in a zero. -/
def Numeral.Trimmed : Numeral → Prop
  | integral _ => True
  | decimal _ fraction => fraction.chars.getLast? ≠ some '0'

/-- The positional text of `n / 10 ^ places` is a numeral of this number. -/
theorem exists_numeral_positional (n places : ℕ) : ∃ m : Numeral, positional n places = m.text ∧
    m.value = n * 10 ^ (-(places : ℤ)) ∧ (places = 0 ∨ n % 10 ≠ 0 → m.Trimmed) := by
  unfold positional
  by_cases h : places = 0
  · refine ⟨.integral (.ofNat n), by rw [if_pos h]; rfl, ?_, fun _ => trivial⟩
    rw [Numeral.value, Digits.ofNat, ofDigits_digits, h, Nat.cast_zero, neg_zero, zpow_zero,
      mul_one]
  · have hlt : n % 10 ^ places < 10 ^ places := Nat.mod_lt _ (by positivity)
    have hlen : (padded places (n % 10 ^ places)).length = places :=
      length_padded (Nat.pos_of_ne_zero h) hlt
    have hne : padded places (n % 10 ^ places) ≠ [] := by
      rw [← List.length_pos_iff, hlen]
      exact Nat.pos_of_ne_zero h
    refine ⟨.decimal (.ofNat (n / 10 ^ places)) ⟨_, allDigits_padded _ _, hne⟩,
      by rw [if_neg h]; rfl, ?_, fun hn hlast => ?_⟩
    · have hdiv : (n : ℚ) = 10 ^ places * (n / 10 ^ places : ℕ) + (n % 10 ^ places : ℕ) := by
        exact_mod_cast (Nat.div_add_mod n (10 ^ places)).symm
      rw [Numeral.value, Digits.ofNat, ofDigits_digits, ofDigits_padded, hlen, zpow_neg,
        zpow_natCast, eq_mul_inv_iff_mul_eq₀ (by positivity), add_mul,
        div_mul_cancel₀ _ (by positivity), hdiv]
      ring
    · have hmod := ofDigits_mod_ten hlast
      rw [ofDigits_padded, Nat.mod_mod_of_dvd _ (dvd_pow_self 10 h)] at hmod
      exact hn.elim h fun hn => hn hmod

/-! ## Trimmed text -/

/-- Trimming takes zeros from the end of the fraction and keeps the number. -/
theorem exists_numeral_trimmed (n : ℕ) : ∀ places, ∃ m : Numeral,
    trimmed n places = m.text ∧ m.value = n * 10 ^ (-(places : ℤ)) ∧ m.Trimmed
  | 0 => by
    obtain ⟨m, htext, hval, htrim⟩ := exists_numeral_positional n 0
    exact ⟨m, htext, hval, htrim (.inl rfl)⟩
  | places + 1 => by
    rw [trimmed]
    split_ifs with h
    · obtain ⟨m, htext, hval, htrim⟩ := exists_numeral_trimmed (n / 10) places
      refine ⟨m, htext, ?_, htrim⟩
      have hn : (n : ℚ) = (n / 10 : ℕ) * 10 := by exact_mod_cast (by omega : n = n / 10 * 10)
      have hplaces : -(places : ℤ) = 1 + -((places + 1 : ℕ) : ℤ) := by omega
      rw [hval, hn, hplaces, zpow_one_add₀ (by norm_num), mul_assoc]
    · obtain ⟨m, htext, hval, htrim⟩ := exists_numeral_positional n (places + 1)
      exact ⟨m, htext, hval, htrim (.inr h)⟩

/-- A further zero at the end of the fraction does not count. -/
theorem trimmed_mul_ten (n places : ℕ) : trimmed (10 * n) (places + 1) = trimmed n places := by
  rw [trimmed, if_pos (by omega), Nat.mul_div_cancel_left n (by norm_num)]

end SparsePoly.Decimal
