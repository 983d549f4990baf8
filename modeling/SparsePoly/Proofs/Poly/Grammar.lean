import Mathlib
import SparsePoly.Proofs.Poly.Chunks
import SparsePoly.Proofs.Poly.Valid

/-!
# The grammar of a polynomial

A term is written in one of five forms, `x`, `C`, `C x`, `x ^ E` and `C x ^ E`, for a numeral `C`
and a numeral `E` that may have a minus sign (`Term.Form`).  A polynomial is written as forms with
signs in front of them, where blanks and the case of a letter do not count.  It is read as the terms
that the forms write, in the order of the text (`parse_sumText`).
-/

open SparsePoly.Binary64 SparsePoly.Decimal

namespace SparsePoly

namespace Term

/-! ## Terms that count as one -/

/-- The terms are the same, or both are zero and so they are not stored. -/
def Alike (t u : Term) : Prop := t = u ∨ t.isZero = true ∧ u.isZero = true

variable {t u : Term} {e : Exponent}

theorem Alike.negate (h : Alike t u) : Alike t.negate u.negate := by
  rcases h with rfl | ⟨ht, hu⟩
  · exact Or.inl rfl
  · exact Or.inr ⟨by rw [isZero_negate, ht], by rw [isZero_negate, hu]⟩

/-- There are two doubles nearest to a number only if it is rounded to zero. -/
theorem alike_of_isNearest {x y : Float} {q : ℚ} (hx : IsNearest x q) (hy : IsNearest y q) :
    Alike ⟨x, e⟩ ⟨y, e⟩ := by
  have hxy : toRat x = toRat y := hx.toRat_eq.trans hy.toRat_eq.symm
  by_cases h : toRat x = 0
  · exact Or.inr ⟨(beq_zero_iff_toRat hx.finite).2 h, (beq_zero_iff_toRat hy.finite).2 (hxy ▸ h)⟩
  · exact Or.inl (by rw [eq_of_toRat_eq hxy h])

/-! ## Forms -/

/-- How a term is written without its sign. -/
inductive Form
  | unknown
  | constant (c : Numeral)
  | linear (c : Numeral)
  | power (n : SignedNumeral)
  | monomial (c : Numeral) (n : SignedNumeral)

/-- The exponent is the double nearest to what the numeral writes, without its fraction and moved
into range. -/
def WritesExponent (n : SignedNumeral) (e : Exponent) : Prop :=
  ∃ y, IsNearest y n.value ∧ e.toInt = Exponent.saturated (Exponent.towardZero (toRat y))

/-- The exponent that a numeral writes is the one that is read. -/
theorem WritesExponent.exists_readFinite {n : SignedNumeral} (h : WritesExponent n e) :
    ∃ y, readFinite? n.text = some y ∧ Exponent.truncated y = e := by
  obtain ⟨x, hx, he⟩ := h
  obtain ⟨y, hread, hy⟩ := n.exists_readFinite hx.abs_rounded_lt
  refine ⟨y, hread, Int32.toInt_inj.1 ?_⟩
  rw [Exponent.toInt_truncated hy.finite, he, hx.toRat_eq, hy.toRat_eq]

namespace Form

/-- The characters of a form. -/
def text : Form → List Char
  | unknown => ['x']
  | constant c => c.text
  | linear c => c.text ++ ['x']
  | power n => 'x' :: '^' :: n.text
  | monomial c n => c.text ++ 'x' :: '^' :: n.text

/-- The terms that a form writes; there is more than one only if they are zero. -/
inductive Writes : Form → Term → Prop
  | unknown : Writes .unknown ⟨1.0, 1⟩
  | constant {c : Numeral} {x : Float} (hx : IsNearest x c.value) : Writes (.constant c) ⟨x, 0⟩
  | linear {c : Numeral} {x : Float} (hx : IsNearest x c.value) : Writes (.linear c) ⟨x, 1⟩
  | power {n : SignedNumeral} {e : Exponent} (he : WritesExponent n e) :
    Writes (.power n) ⟨1.0, e⟩
  | monomial {c : Numeral} {x : Float} {n : SignedNumeral} {e : Exponent}
    (hx : IsNearest x c.value) (he : WritesExponent n e) : Writes (.monomial c n) ⟨x, e⟩

theorem body : ∀ f : Form, Poly.Body f.text
  | unknown => Poly.body_unknown
  | constant c => Poly.body_numeral c
  | linear c => Poly.body_unknown.append fun _ => c.isDigit_or_of_mem_text
  | power n => Poly.body_power n
  | monomial c n => (Poly.body_power n).append fun _ => c.isDigit_or_of_mem_text

/-- The coefficient that a numeral writes is the one that is read, but for the sign of a zero. -/
theorem exists_readCoefficient {c : Numeral} {x : Float} (hx : IsNearest x c.value) :
    ∃ r, readFinite? c.text = some r ∧ readCoefficient? c.text = some r ∧
      ∀ e, Alike ⟨r, e⟩ ⟨x, e⟩ := by
  obtain ⟨r, hread, -, hr⟩ := c.exists_readFinite hx.abs_rounded_lt
  have hcoefficient : readCoefficient? c.text = readFinite? c.text := if_neg c.text_ne_nil
  exact ⟨r, hread, hcoefficient.trans hread, fun _ => alike_of_isNearest hr hx⟩

/-- The text of a form is read as a term that it writes. -/
theorem Writes.ofBody {f : Form} (h : f.Writes t) :
    ∃ u, ofBody? f.text = some u ∧ Alike u t := by
  -- without a coefficient nothing stands before the unknown
  have hone : readCoefficient? [] = some 1.0 := rfl
  cases h with
  | unknown => exact ⟨_, ofBody_linear List.not_mem_nil hone, Or.inl rfl⟩
  | constant hx =>
    obtain ⟨r, hread, -, hr⟩ := exists_readCoefficient hx
    exact ⟨_, ofBody_constant (not_mem_numeral _) hread, hr 0⟩
  | linear hx =>
    obtain ⟨r, -, hread, hr⟩ := exists_readCoefficient hx
    exact ⟨_, ofBody_linear (not_mem_numeral _) hread, hr 1⟩
  | power he =>
    obtain ⟨y, hy, rfl⟩ := he.exists_readFinite
    exact ⟨_, ofBody_power List.not_mem_nil hone hy, Or.inl rfl⟩
  | monomial hx he =>
    obtain ⟨r, -, hread, hr⟩ := exists_readCoefficient hx
    obtain ⟨y, hy, rfl⟩ := he.exists_readFinite
    exact ⟨_, ofBody_power (not_mem_numeral _) hread hy, hr _⟩

end Form

end Term

namespace Poly

open Term

/-! ## Sums -/

variable {p : Poly} {t : Term} {ts us : List Term}

theorem append_eq_of_alike {t u : Term} (h : Alike t u) : p.append t = p.append u := by
  rcases h with rfl | ⟨ht, hu⟩
  · rfl
  · rw [append_of_isZero ht, append_of_isZero hu]

theorem extend_eq_of_alike (h : List.Forall₂ Alike ts us) : p.extend ts = p.extend us := by
  induction h generalizing p with
  | nil => rfl
  | cons htu _ ih => rw [extend_cons, extend_cons, append_eq_of_alike htu, ih]

/-- A form with its sign. -/
structure Summand where
  sign : Sign
  form : Form

namespace Summand

/-- The characters of a summand. -/
def text (s : Summand) : List Char := s.sign.text ++ s.form.text

/-- The terms that a summand writes. -/
def Writes (s : Summand) (t : Term) : Prop :=
  ∃ u, s.form.Writes u ∧ t = if s.sign = .minus then u.negate else u

/-- The summand as a text with a sign. -/
def piece (s : Summand) : Piece := ⟨s.sign, s.form.text⟩

theorem Writes.ofChunk {s : Summand} (h : s.Writes t) : Alike (ofChunk s.piece.chunk) t := by
  obtain ⟨u, hu, rfl⟩ := h
  obtain ⟨v, hread, hv⟩ := hu.ofBody
  unfold piece Piece.chunk
  split_ifs
  · show Alike ((ofBody? s.form.text).getD Term.zero).negate u.negate
    rw [hread]
    exact hv.negate
  · have hhead := s.form.body.head []
    rw [List.append_nil] at hhead
    rw [ofChunk_of_head hhead, hread]
    exact hv

end Summand

/-- The text of a sum; the plus sign in front may be left out. -/
def sumText (bare : Bool) : List Summand → List Char
  | [] => []
  | s :: sum =>
    (if bare = true ∧ s.sign = .plus then s.form.text else s.text) ++ sum.flatMap Summand.text

/-- What stands before the first sign and the pieces behind it. -/
theorem sumText_cases (bare : Bool) (sum : List Summand) : ∃ b pieces,
    sumText bare sum = b ++ pieces.flatMap Piece.text ∧ (b = [] ∨ Body b) ∧
      (∀ p ∈ pieces, Body p.body) ∧ (b = [] ∧ pieces = sum.map Summand.piece ∨
        b :: pieces.map Piece.chunk = sum.map fun s => s.piece.chunk) := by
  have hbody (sum : List Summand) : ∀ p ∈ sum.map Summand.piece, Body p.body :=
    List.forall_mem_map.2 fun s _ => s.form.body
  have htext (sum : List Summand) :
      sum.flatMap Summand.text = (sum.map Summand.piece).flatMap Piece.text := by
    rw [List.flatMap_map]
    rfl
  cases sum with
  | nil => exact ⟨[], [], rfl, Or.inl rfl, hbody [], Or.inl ⟨rfl, rfl⟩⟩
  | cons s sum =>
    rw [sumText]
    split_ifs with h
    · refine ⟨s.form.text, _, congrArg _ (htext sum), Or.inr s.form.body, hbody sum, Or.inr ?_⟩
      rw [List.map_cons, List.map_map, Summand.piece, h.2]
      rfl
    · refine ⟨[], _, ?_, Or.inl rfl, hbody (s :: sum), Or.inl ⟨rfl, rfl⟩⟩
      rw [← List.flatMap_cons]
      exact htext (s :: sum)

/-! ## Blanks and letters -/

/-- The text `cs` is `ds` with further blanks, and with `X` in place of some of its `x`. -/
inductive Spaced : List Char → List Char → Prop
  | nil : Spaced [] []
  | blank {c : Char} {ds cs : List Char} (hc : Text.isBlank c = true) (h : Spaced ds cs) :
    Spaced ds (c :: cs)
  | keep (c : Char) {ds cs : List Char} (h : Spaced ds cs) : Spaced (c :: ds) (c :: cs)
  | upper {ds cs : List Char} (h : Spaced ds cs) : Spaced ('x' :: ds) ('X' :: cs)

theorem Spaced.clean_eq {ds cs : List Char} (h : Spaced ds cs) : clean cs = clean ds := by
  induction h with
  | nil => rfl
  | @blank c ds cs hc _ ih =>
    rw [← ih]
    simp [clean, hc]
  | @keep c ds cs _ ih =>
    rw [← List.singleton_append, clean_append, ih, ← clean_append, List.singleton_append]
  | @upper ds cs _ ih => exact congrArg ('x' :: ·) ih

/-! ## Reading a sum -/

/-- A text of the grammar is read as the polynomial with the terms that it writes, in order. -/
theorem parse_sumText {sum : List Summand} {s : String} (bare : Bool)
    (hw : List.Forall₂ Summand.Writes sum ts) (hs : Spaced (sumText bare sum) s.toList) :
    parse s = ofTerms ts := by
  obtain ⟨b, pieces, htext, hb, hpieces, hsum⟩ := sumText_cases bare sum
  have halike : List.Forall₂ Alike (sum.map fun s => ofChunk s.piece.chunk) ts :=
    List.forall₂_map_left_iff.2 (hw.imp fun _ _ h => h.ofChunk)
  have hchunks : chunks (clean s.toList) = b :: pieces.map Piece.chunk := by
    rw [hs.clean_eq, htext, clean_append, clean_flatMap_text hpieces, ← chunks_append hb hpieces]
    rcases hb with rfl | hb
    · rfl
    · rw [hb.clean]
  rw [parse, hchunks]
  rcases hsum with ⟨rfl, rfl⟩ | hsum
  · rw [List.map_cons, ofTerms_cons_ofChunk_nil, List.map_map, List.map_map]
    exact extend_eq_of_alike halike
  · rw [hsum, List.map_map]
    exact extend_eq_of_alike halike

/-- The first minus sign belongs to an exponent and the other two make a plus. -/
theorem parse_sumText_negative_exponent :
    let c : Numeral := .decimal (.ofNat 2) (.ofNat 5)
    let n : SignedNumeral := ⟨true, .decimal (.ofNat 1) (.ofNat 5)⟩
    let sum : List Summand := [⟨.plus, .monomial c n⟩, ⟨.doubleMinus, .unknown⟩]
    List.Forall₂ Summand.Writes sum [⟨2.5, -1⟩, ⟨1.0, 1⟩] ∧
      Spaced (sumText true sum) "2.5X^-1.5 --x".toList ∧
      parse "2.5X^-1.5 --x" = ofTerms [⟨2.5, -1⟩, ⟨1.0, 1⟩] := by
  intro c n sum
  have hc : c.value = (5 : ℤ) * 2 ^ (-1 : ℤ) := by
    show ((2 : ℕ) : ℚ) + ((5 : ℕ) : ℚ) / 10 ^ 1 = _
    norm_num
  have hn : n.value = (-3 : ℤ) * 2 ^ (-1 : ℤ) := by
    show -(((1 : ℕ) : ℚ) + ((5 : ℕ) : ℚ) / 10 ^ 1) = _
    norm_num
  have half {k : ℤ} (hk : |k| < 6) : rounded (k * 2 ^ (-1 : ℤ)) = k * 2 ^ (-1 : ℤ) :=
    rounded_eq_self_of_lt (hk.trans (by norm_num)) (by norm_num)
  have inRange {k : ℤ} (hk : |k| < 6) : |rounded (k * 2 ^ (-1 : ℤ))| < 2 ^ (1024 : ℤ) := by
    have hk' : |(k : ℚ)| < 6 := by exact_mod_cast hk
    calc |rounded (k * 2 ^ (-1 : ℤ))| = |(k : ℚ)| / 2 := by
          rw [half hk, abs_mul, div_eq_mul_inv]
          norm_num
      _ < 2 ^ (2 : ℤ) := by linarith
      _ < 2 ^ (1024 : ℤ) := zpow_lt_zpow_right₀ one_lt_two (by norm_num)
  have hx : IsNearest 2.5 c.value := by
    obtain ⟨x, hread, -, hx⟩ := c.exists_readFinite (hc ▸ inRange (by norm_num))
    have h : readFinite? c.text = some 2.5 := by decide +kernel
    rwa [Option.some.inj (hread.symm.trans h)] at hx
  have he : WritesExponent n (-1) := by
    obtain ⟨y, -, hy⟩ := n.exists_readFinite (hn ▸ inRange (by norm_num))
    have hceil : ⌈((-3 : ℤ) : ℚ) * 2 ^ (-1 : ℤ)⌉ = -1 := by
      rw [Int.ceil_eq_iff]
      norm_num
    refine ⟨y, hy, ?_⟩
    rw [hy.toRat_eq, hn, half (by norm_num), Exponent.towardZero, if_neg (by norm_num), hceil]
    rfl
  have hw : List.Forall₂ Summand.Writes sum [⟨2.5, -1⟩, ⟨1.0, 1⟩] :=
    .cons ⟨_, .monomial hx he, rfl⟩ (.cons ⟨_, .unknown, rfl⟩ .nil)
  have hs : Spaced (sumText true sum) "2.5X^-1.5 --x".toList :=
    .keep '2' <| .keep '.' <| .keep '5' <| .upper <| .keep '^' <| .keep '-' <| .keep '1' <|
      .keep '.' <| .keep '5' <| .blank rfl <| .keep '-' <| .keep '-' <| .keep 'x' .nil
  exact ⟨hw, hs, parse_sumText true hw hs⟩

end Poly

end SparsePoly
