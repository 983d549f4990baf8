import Mathlib
import SparsePoly.Poly.Text
import SparsePoly.Proofs.Term.Reading

/-!
# Cutting the text of a polynomial

Reading cuts a text at its signs.  The text of a term without its sign is a `Body`: the only minus
sign in it is that of an exponent, which does not cut.  So cutting a text of bodies and signs gives
back the bodies, each with its own minus sign (`chunks_append`).  The text of a list of terms is
such a text (`chunks_termsText`), whether it has spaces or not (`clean_termsText`).
-/

open SparsePoly.Decimal

namespace SparsePoly.Poly

variable {previous : Option Char} {a b : List Char} {t : Term} {ts : List Term}

/-! ## Texts that are not cut -/

/-- After `previous` no sign cuts the text: each minus sign follows a `^`, and there is no plus. -/
def Uncut : Option Char → List Char → Prop
  | _, [] => True
  | previous, c :: cs => (c = '-' → previous = some '^') ∧ c ≠ '+' ∧ Uncut (some c) cs

theorem Uncut.not_mem : ∀ {b : List Char} {previous : Option Char}, Uncut previous b → '+' ∉ b
  | [], _, _ => by simp
  | c :: cs, _, h => by
    rw [List.mem_cons, not_or]
    exact ⟨h.2.1.symm, h.2.2.not_mem⟩

theorem Uncut.head_ne (h : Uncut none b) : b.head? ≠ some '-' := by
  cases b with
  | nil => simp
  | cons c cs =>
    intro hc
    cases h.1 (Option.some.inj hc)

theorem uncut_append (hb : ∀ previous, Uncut previous b) : ∀ {a : List Char}
    (_ : ∀ c ∈ a, c ≠ '-' ∧ c ≠ '+') (previous : Option Char), Uncut previous (a ++ b)
  | [], _, previous => hb previous
  | c :: cs, h, previous => by
    have hc := h c List.mem_cons_self
    exact ⟨fun h' => absurd h' hc.1, hc.2,
      uncut_append hb (fun d hd => h d (List.mem_cons_of_mem c hd)) (some c)⟩

theorem mergeSigns_cons {c : Char} {cs : List Char} (h : c = '-' → cs.head? ≠ some '-') :
    mergeSigns (c :: cs) = c :: mergeSigns cs := by
  rw [mergeSigns]
  rintro ds hc rfl
  exact h hc rfl

/-- No two minus signs follow each other in a text that is not cut. -/
theorem mergeSigns_append (rest : List Char) : ∀ {b : List Char} {previous : Option Char},
    Uncut previous b → (b.getLast? = some '-' → rest.head? ≠ some '-') →
      mergeSigns (b ++ rest) = b ++ mergeSigns rest
  | [], _, _, _ => rfl
  | [c], _, _, hlast => mergeSigns_cons fun hc => hlast (by rw [hc]; rfl)
  | c :: d :: cs, _, h, hlast => by
    have hd : c = '-' → (d :: cs ++ rest).head? ≠ some '-' := by
      rintro rfl hd
      have := h.2.2.1 (Option.some.inj hd)
      cases this
    rw [List.cons_append, mergeSigns_cons hd, mergeSigns_append rest h.2.2 (by simpa using hlast)]
    rfl

theorem separate_append (rest : List Char) : ∀ {b : List Char} {previous : Option Char},
    Uncut previous b → separate previous (b ++ rest) = b ++ separate (b.getLast?.or previous) rest
  | [], _, _ => rfl
  | c :: cs, previous, h => by
    have hc : ¬ (c = '-' ∧ previous ≠ some '^') := fun hc => hc.2 (h.1 hc.1)
    have hlast : cs.getLast?.or (some c) = (c :: cs).getLast?.or previous := by
      rw [List.getLast?_cons]
      cases cs.getLast? <;> rfl
    rw [List.cons_append, separate, if_neg hc, separate_append rest h.2.2, hlast]
    rfl

theorem Uncut.mergeSigns_eq (h : Uncut previous b) : mergeSigns b = b := by
  have := mergeSigns_append [] h fun _ => by simp
  rwa [List.append_nil, mergeSigns, List.append_nil] at this

theorem Uncut.separate_eq (h : Uncut previous b) : separate previous b = b := by
  have := separate_append [] h
  rwa [List.append_nil, separate, List.append_nil] at this

/-- A text that is not cut is a single chunk. -/
theorem Uncut.chunks_eq (h : Uncut none b) : chunks b = [b] := by
  rw [chunks, h.mergeSigns_eq, h.separate_eq]
  exact List.splitOn_eq_singleton h.not_mem

/-! ## Bodies -/

/-- The text does not end in a sign or a `^`. -/
def Closed (b : List Char) : Prop := ∃ c, b.getLast? = some c ∧ c ≠ '-' ∧ c ≠ '^'

/-- A text between two cuts: reading does not clean it, cut it or join it to what follows. -/
structure Body (b : List Char) : Prop where
  clean : Term.clean b = b
  uncut : ∀ previous, Uncut previous b
  closed : Closed b

theorem Closed.append (h : Closed b) (a : List Char) : Closed (a ++ b) := by
  obtain ⟨c, hc, hne⟩ := h
  exact ⟨c, by rw [List.getLast?_append, hc, Option.some_or], hne⟩

theorem Body.ne_nil (h : Body b) : b ≠ [] := by
  rintro rfl
  obtain ⟨c, hc, -⟩ := h.closed
  cases hc

theorem Body.head (h : Body b) (rest : List Char) : (b ++ rest).head? ≠ some '-' := by
  cases b with
  | nil => exact absurd rfl h.ne_nil
  | cons c cs => exact (h.uncut none).head_ne

theorem Body.mergeSigns (h : Body b) (rest : List Char) :
    mergeSigns (b ++ rest) = b ++ mergeSigns rest := by
  obtain ⟨c, hc, hminus, -⟩ := h.closed
  refine mergeSigns_append rest (h.uncut none) fun hlast => absurd ?_ hminus
  exact Option.some.inj (hc.symm.trans hlast)

theorem Body.separate (h : Body b) (previous : Option Char) (rest : List Char) :
    ∃ c, c ≠ some '^' ∧ separate previous (b ++ rest) = b ++ separate c rest := by
  obtain ⟨c, hc, -, hpower⟩ := h.closed
  refine ⟨some c, fun h' => hpower (Option.some.inj h'), ?_⟩
  rw [separate_append rest (h.uncut previous), hc]
  rfl

theorem clean_append (a b : List Char) : Term.clean (a ++ b) = Term.clean a ++ Term.clean b := by
  rw [Term.clean, List.filter_append, List.map_append]
  rfl

theorem clean_of_isDigit {c : Char} (h : c.isDigit = true) : Term.clean [c] = [c] := by
  have hrange : 48 ≤ c.toNat ∧ c.toNat ≤ 57 := by
    simp only [Char.isDigit, Bool.and_eq_true, decide_eq_true_eq] at h
    exact ⟨h.1, h.2⟩
  have hblank : Text.isBlank c = false := by
    simp only [Text.isBlank]
    simp
    omega
  simp [Term.clean, hblank, toLower_of_isDigit h]

theorem clean_eq_self : ∀ {b : List Char}, (∀ c ∈ b, Term.clean [c] = [c]) → Term.clean b = b
  | [], _ => rfl
  | c :: cs, h => by
    rw [← List.singleton_append, clean_append, h c List.mem_cons_self,
      clean_eq_self fun d hd => h d (List.mem_cons_of_mem c hd)]

/-- Digits and points may stand before a body. -/
theorem Body.append (hb : Body b) (ha : ∀ c ∈ a, c.isDigit = true ∨ c = '.') : Body (a ++ b) where
  clean := by
    have hclean : Term.clean a = a := clean_eq_self fun c hc => by
      rcases ha c hc with h | rfl
      · exact clean_of_isDigit h
      · rfl
    rw [clean_append, hclean, hb.clean]
  uncut := by
    refine uncut_append hb.uncut fun c hc => ?_
    rcases ha c hc with h | rfl
    · exact ⟨ne_of_isDigit h rfl, ne_of_isDigit h rfl⟩
    · decide
  closed := hb.closed.append a

theorem body_digit {c : Char} (h : c.isDigit = true) : Body [c] where
  clean := clean_of_isDigit h
  uncut _ := ⟨fun hc => absurd hc (ne_of_isDigit h rfl), ne_of_isDigit h rfl, trivial⟩
  closed := ⟨c, rfl, ne_of_isDigit h rfl, ne_of_isDigit h rfl⟩

theorem body_of_allDigits (h : AllDigits b) (hne : b ≠ []) : Body b := by
  have hlast := h _ (List.getLast_mem hne)
  rw [← List.dropLast_append_getLast hne]
  exact (body_digit hlast).append fun c hc => Or.inl (h c (List.mem_of_mem_dropLast hc))

theorem body_numeral : ∀ n : Numeral, Body n.text
  | .integral whole => body_of_allDigits whole.allDigits whole.ne_nil
  | .decimal whole fraction => by
    rw [Numeral.text, List.append_cons]
    refine (body_of_allDigits fraction.allDigits fraction.ne_nil).append fun c hc => ?_
    rcases List.mem_append.1 hc with hc | hc
    · exact Or.inl (whole.allDigits c hc)
    · exact Or.inr (List.mem_singleton.1 hc)

theorem body_unknown : Body ['x'] :=
  ⟨rfl, fun _ => ⟨by simp, by simp, trivial⟩, 'x', rfl, by decide, by decide⟩

/-- The sign of an exponent stands behind a `^`. -/
theorem body_power (n : SignedNumeral) : Body ('x' :: '^' :: n.text) := by
  obtain ⟨negative, size⟩ := n
  have hsize := body_numeral size
  cases negative with
  | true => exact ⟨congrArg (['x', '^', '-'] ++ ·) hsize.clean,
      fun _ => ⟨by simp, by simp, by simp, by simp, fun _ => rfl, by simp, hsize.uncut _⟩,
      hsize.closed.append ['x', '^', '-']⟩
  | false => exact ⟨congrArg (['x', '^'] ++ ·) hsize.clean,
      fun _ => ⟨by simp, by simp, by simp, by simp, hsize.uncut _⟩,
      hsize.closed.append ['x', '^']⟩

theorem body_powerText (e : Exponent) : Body (Term.powerText e) := by
  obtain ⟨n, htext, -⟩ := Term.exists_signedNumeral_exponent e
  unfold Term.powerText
  split_ifs
  · exact body_unknown
  · rw [htext]
    exact body_power n

theorem body_monomialText {x : Float} {n : Numeral} (e : Exponent)
    (h : Term.coefficientText x = n.text) : Body (Term.monomialText x e) := by
  rw [Term.monomialText_eq, h]
  split_ifs
  · exact body_numeral n
  · refine (body_powerText e).append fun c hc => ?_
    unfold Term.elided at hc
    split_ifs at hc
    · cases hc
    · exact n.isDigit_or_of_mem_text hc

/-! ## Cutting -/

/-- What stands before a body; two minus signs make a plus. -/
inductive Sign
  | minus | plus | doubleMinus
  deriving DecidableEq

/-- The characters of a sign. -/
def Sign.text : Sign → List Char
  | minus => ['-']
  | plus => ['+']
  | doubleMinus => ['-', '-']

/-- A text from one sign to the next. -/
structure Piece where
  sign : Sign
  body : List Char

namespace Piece

/-- The characters of a piece. -/
def text (p : Piece) : List Char := p.sign.text ++ p.body

/-- What cutting makes of a piece. -/
def chunk (p : Piece) : List Char := if p.sign = .minus then '-' :: p.body else p.body

end Piece

variable {pieces : List Piece}

theorem clean_flatMap_text : ∀ {pieces : List Piece}, (∀ p ∈ pieces, Body p.body) →
    Term.clean (pieces.flatMap Piece.text) = pieces.flatMap Piece.text
  | [], _ => rfl
  | ⟨sign, b⟩ :: pieces, h => by
    have hsign : Term.clean sign.text = sign.text := by
      cases sign <;> rfl
    rw [List.flatMap_cons, Piece.text, clean_append, clean_append, hsign,
      (h ⟨sign, b⟩ List.mem_cons_self).clean,
      clean_flatMap_text fun q hq => h q (List.mem_cons_of_mem ⟨sign, b⟩ hq)]

/-- Each sign starts a chunk. -/
theorem separate_mergeSigns : ∀ {pieces : List Piece}, (∀ p ∈ pieces, Body p.body) →
    ∀ {previous : Option Char}, previous ≠ some '^' →
      separate previous (mergeSigns (pieces.flatMap Piece.text)) =
        pieces.flatMap fun p => '+' :: p.chunk
  | [], _, _, _ => rfl
  | ⟨sign, b⟩ :: pieces, h, previous, hp => by
    have hb : Body b := h ⟨sign, b⟩ List.mem_cons_self
    have ih {p : Option Char} (hp : p ≠ some '^') := separate_mergeSigns
      (fun q hq => h q (List.mem_cons_of_mem ⟨sign, b⟩ hq)) hp
    rw [List.flatMap_cons, List.flatMap_cons, Piece.text, List.append_assoc]
    cases sign with
    | minus =>
      obtain ⟨c, hc, hs⟩ := hb.separate (some '-') (mergeSigns (pieces.flatMap Piece.text))
      show separate previous (mergeSigns ('-' :: (b ++ pieces.flatMap Piece.text))) = _
      rw [mergeSigns_cons fun _ => hb.head _, hb.mergeSigns, separate, if_pos ⟨rfl, hp⟩, hs, ih hc]
      rfl
    | plus =>
      obtain ⟨c, hc, hs⟩ := hb.separate (some '+') (mergeSigns (pieces.flatMap Piece.text))
      show separate previous (mergeSigns ('+' :: (b ++ pieces.flatMap Piece.text))) = _
      rw [mergeSigns_cons (by simp), hb.mergeSigns, separate, if_neg (by simp), hs, ih hc]
      rfl
    | doubleMinus =>
      obtain ⟨c, hc, hs⟩ := hb.separate (some '+') (mergeSigns (pieces.flatMap Piece.text))
      show separate previous (mergeSigns ('-' :: '-' :: (b ++ pieces.flatMap Piece.text))) = _
      rw [mergeSigns, hb.mergeSigns, separate, if_neg (by simp), hs, ih hc]
      rfl

theorem intercalate_cons_eq {α : Type} (x : α) (l : List α) : ∀ ls : List (List α),
    [x].intercalate (l :: ls) = l ++ ls.flatMap (x :: ·)
  | [] => by simp
  | m :: ms => by
    rw [List.intercalate_cons_cons, intercalate_cons_eq x m ms, List.flatMap_cons]
    simp

theorem Body.not_mem_chunk {p : Piece} (h : Body p.body) : '+' ∉ p.chunk := by
  have := (h.uncut none).not_mem
  unfold Piece.chunk
  split_ifs
  · simpa using this
  · exact this

/-- The chunks of a text are what stands before its first sign and its pieces. -/
theorem chunks_append (hb : b = [] ∨ Body b) (h : ∀ p ∈ pieces, Body p.body) :
    chunks (b ++ pieces.flatMap Piece.text) = b :: pieces.map Piece.chunk := by
  have hplus : ∀ l ∈ b :: pieces.map Piece.chunk, '+' ∉ l := by
    refine List.forall_mem_cons.2 ⟨?_, List.forall_mem_map.2 fun p hp => (h p hp).not_mem_chunk⟩
    rcases hb with rfl | hb
    · simp
    · exact (hb.uncut none).not_mem
  have hseparate : separate none (mergeSigns (b ++ pieces.flatMap Piece.text)) =
      ['+'].intercalate (b :: pieces.map Piece.chunk) := by
    rw [intercalate_cons_eq, List.flatMap_map]
    rcases hb with rfl | hb
    · exact separate_mergeSigns h (by simp)
    · obtain ⟨c, hc, hs⟩ := hb.separate none (mergeSigns (pieces.flatMap Piece.text))
      rw [hb.mergeSigns, hs, separate_mergeSigns h hc]
  rw [chunks, hseparate]
  exact List.splitOn_intercalate '+' hplus (List.cons_ne_nil _ _)

example : chunks ['-', 'x', '^', '-', '2', '-', '-', '3'] =
    [[], ['-', 'x', '^', '-', '2'], ['3']] := by
  decide

/-- The empty chunk before a sign adds nothing. -/
theorem ofTerms_cons_ofChunk_nil (ts : List Term) :
    ofTerms (Term.ofChunk [] :: ts) = ofTerms ts := by
  have hzero : (Term.ofChunk []).isZero = true := by decide +kernel
  show (zero.append (Term.ofChunk [])).extend ts = _
  rw [append_of_isZero hzero]
  rfl

/-! ## The text of a list of terms -/

/-- The text of a term between two cuts. -/
def chunkText (t : Term) : List Char :=
  if t.isNegative then '-' :: t.unsignedText else t.unsignedText

theorem clean_joint (negative spaces : Bool) :
    Term.clean (joint negative spaces) = joint negative false := by
  cases negative <;> cases spaces <;> rfl

theorem tailText_cons (spaces : Bool) (t : Term) (ts : List Term) : tailText spaces (t :: ts) =
    joint t.isNegative spaces ++ (t.unsignedText ++ tailText spaces ts) :=
  List.append_assoc ..

theorem clean_tailText (spaces : Bool) : ∀ {ts : List Term}, (∀ t ∈ ts, Body t.unsignedText) →
    Term.clean (tailText spaces ts) = tailText false ts
  | [], _ => rfl
  | t :: ts, h => by
    rw [tailText_cons, tailText_cons, clean_append, clean_append, clean_joint,
      (h t List.mem_cons_self).clean, clean_tailText spaces fun u hu => h u (by simp [hu])]

/-- Spaces around the signs do not count. -/
theorem clean_termsText (spaces : Bool) (h : ∀ t ∈ ts, Body t.unsignedText) :
    Term.clean (termsText spaces ts) = termsText false ts := by
  cases ts with
  | nil => rfl
  | cons t ts =>
    have hsign : Term.clean (if t.isNegative then ['-'] else []) =
        if t.isNegative then ['-'] else [] := by
      split_ifs <;> rfl
    rw [termsText, termsText, clean_append, clean_append, hsign, (h t List.mem_cons_self).clean,
      clean_tailText spaces fun u hu => h u (List.mem_cons_of_mem t hu)]

/-- The sign that joins a term and its text. -/
def piece (t : Term) : Piece := ⟨if t.isNegative then .minus else .plus, t.unsignedText⟩

theorem chunk_piece (t : Term) : (piece t).chunk = chunkText t := by
  unfold piece Piece.chunk chunkText
  cases t.isNegative <;> rfl

theorem text_piece (t : Term) : (piece t).text = joint t.isNegative false ++ t.unsignedText := by
  unfold piece Piece.text
  cases t.isNegative <;> rfl

theorem flatMap_text_piece (ts : List Term) :
    (ts.map piece).flatMap Piece.text = tailText false ts := by
  rw [List.flatMap_map]
  exact List.flatMap_congr fun t _ => text_piece t

/-- The chunks of the text of a list of terms are the texts of the terms; a minus sign in front cuts
off an empty chunk. -/
theorem chunks_termsText (h : ∀ u ∈ t :: ts, Body u.unsignedText) :
    chunks (termsText false (t :: ts)) =
      (if t.isNegative then [[]] else []) ++ (t :: ts).map chunkText := by
  have hpieces {us : List Term} (hu : ∀ u ∈ us, Body u.unsignedText) :
      ∀ p ∈ us.map piece, Body p.body := List.forall_mem_map.2 hu
  have hchunk (us : List Term) : (us.map piece).map Piece.chunk = us.map chunkText := by
    rw [List.map_map]
    exact List.map_congr_left fun u _ => chunk_piece u
  cases hn : t.isNegative with
  | true =>
    have htext : termsText false (t :: ts) = [] ++ ((t :: ts).map piece).flatMap Piece.text := by
      rw [flatMap_text_piece, tailText_cons, termsText, hn]
      rfl
    rw [htext, chunks_append (Or.inl rfl) (hpieces h), hchunk]
    rfl
  | false =>
    have htext : termsText false (t :: ts) =
        t.unsignedText ++ (ts.map piece).flatMap Piece.text := by
      rw [flatMap_text_piece, termsText, hn]
      rfl
    rw [htext, chunks_append (Or.inr (h t List.mem_cons_self))
      (hpieces fun u hu => h u (List.mem_cons_of_mem t hu)), hchunk, List.map_cons, chunkText, hn]
    rfl

end SparsePoly.Poly
