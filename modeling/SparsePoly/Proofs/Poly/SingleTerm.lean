import Mathlib
import SparsePoly.Proofs.Binary64.Opposite
import SparsePoly.Proofs.Poly.Concatenation

/-!
# Texts of a single term

A text can be read as a term and as a polynomial.  The numeral in front of a term may have a sign of
its own, which both readers see in the same place: with a plus or a minus sign in front, a body that
reads as a term reads as that term or its opposite (`ofBody_plus`, `ofBody_minus`).  So a text with
no other signs than one in front and those that do not cut is read as the same term by both
(`terms_parse_single`).  The signs of numerals in scientific notation do cut.
-/

open SparsePoly.Decimal

namespace SparsePoly

/-! ## Numerals with a sign -/

namespace Decimal

variable {c : Char} {cs : List Char} {x : Float}

/-- A numeral has one sign at most. -/
theorem readUnsigned_sign (h : c = '-' ∨ c = '+') : readUnsigned? (c :: cs) = none := by
  rcases h with rfl | rfl <;> rfl

theorem readNumeral_of_readUnsigned (h : readUnsigned? cs = some x) :
    readNumeral? cs = some x := by
  unfold readNumeral?
  split
  · next ds =>
    rw [readUnsigned_sign (Or.inl rfl)] at h
    cases h
  · next ds =>
    rw [readUnsigned_sign (Or.inr rfl)] at h
    cases h
  · exact h

theorem readFinite_eq_some_iff : readFinite? cs = some x ↔
    readNumeral? cs = some x ∧ x.isFinite = true := by
  rw [readFinite?, Option.filter_eq_some_iff]

theorem readFinite_plus (h : readFinite? ('+' :: cs) = some x) : readFinite? cs = some x := by
  rw [readFinite_eq_some_iff] at h ⊢
  exact ⟨readNumeral_of_readUnsigned h.1, h.2⟩

theorem readFinite_minus (h : readFinite? ('-' :: cs) = some x) :
    ∃ y, readFinite? cs = some y ∧ x = -y := by
  obtain ⟨hread, hx⟩ := readFinite_eq_some_iff.1 h
  obtain ⟨y, hy, rfl⟩ := Option.map_eq_some_iff.1 hread
  exact ⟨y, readFinite_eq_some_iff.2 ⟨readNumeral_of_readUnsigned hy, by simpa using hx⟩, rfl⟩

end Decimal

namespace Term

variable {b cs : List Char} {x : Float} {u : Term}

theorem readCoefficient_of_readFinite (h : readFinite? cs = some x) :
    readCoefficient? cs = some x := by
  have hne : cs ≠ [] := by
    rintro rfl
    cases h
  rw [readCoefficient?, if_neg hne, h]

/-- A sign in front of a text belongs to the coefficient in each form of a term. -/
theorem ofBody_sign {sign : Char} {g : Float → Float} (hsign : sign ≠ 'x')
    (hread : ∀ cs x, readFinite? (sign :: cs) = some x → ∃ y, readFinite? cs = some y ∧ x = g y)
    (h : ofBody? (sign :: b) = some u) :
    ∃ v, ofBody? b = some v ∧ u = { v with coefficient := g v.coefficient } := by
  -- the sign is not the unknown, so the text is taken apart at the same place without it
  have hx : 'x' ∉ [sign] := by simpa using hsign.symm
  have hsplit : splitAtPower? (sign :: b) = _ := splitAtPower_append hx b
  unfold ofBody? at h ⊢
  rw [hsplit] at h
  cases hb : splitAtPower? b with
  | some parts =>
    obtain ⟨before, after⟩ := parts
    rw [hb] at h
    obtain ⟨c, hc, h⟩ := Option.bind_eq_some_iff.1 h
    obtain ⟨e, he, h⟩ := Option.bind_eq_some_iff.1 h
    obtain rfl := Option.some.inj h
    obtain ⟨y, hy, rfl⟩ := hread before c hc
    refine ⟨truncated y e, ?_, rfl⟩
    simp only
    rw [readCoefficient_of_readFinite hy, he]
    rfl
  | none =>
    rw [hb] at h
    simp only [Option.map_none] at h ⊢
    have hlast : (sign :: b).getLast? = some 'x' ↔ b.getLast? = some 'x' := by
      rw [List.getLast?_cons, Option.some_inj]
      cases b.getLast? <;> simp [hsign]
    simp only [hlast] at h
    split_ifs at h ⊢ with hx
    · have hne : b ≠ [] := by
        rintro rfl
        cases hx
      rw [List.dropLast_cons_of_ne_nil hne] at h
      obtain ⟨c, hc, rfl⟩ := Option.map_eq_some_iff.1 h
      obtain ⟨y, hy, rfl⟩ := hread _ c hc
      exact ⟨⟨y, 1⟩, by rw [readCoefficient_of_readFinite hy]; rfl, rfl⟩
    · obtain ⟨c, hc, rfl⟩ := Option.map_eq_some_iff.1 h
      obtain ⟨y, hy, rfl⟩ := hread _ c hc
      exact ⟨⟨y, 0⟩, by rw [hy]; rfl, rfl⟩

/-- A plus in front of a term does not matter. -/
theorem ofBody_plus (h : ofBody? ('+' :: b) = some u) : ofBody? b = some u := by
  obtain ⟨v, hv, rfl⟩ := ofBody_sign (g := id) (by decide)
    (fun cs x hx => ⟨x, readFinite_plus hx, rfl⟩) h
  exact hv

theorem ofBody_minus (h : ofBody? ('-' :: b) = some u) :
    ∃ v, ofBody? b = some v ∧ u = v.negate :=
  ofBody_sign (by decide) (fun _ _ => readFinite_minus) h

end Term

open Term

namespace Poly

variable {b : List Char} {u : Term}

/-! ## Texts that are cut once -/

/-- A sign in front of a text that is not cut cuts off nothing but an empty chunk. -/
theorem chunks_sign (hb : Uncut none b) (sign : Sign) :
    chunks (sign.text ++ b) = [[], Piece.chunk ⟨sign, b⟩] := by
  have hplus : chunks ('+' :: b) = [[], b] := by
    have := chunks_append_plus [] b
    rwa [hb.chunks_eq] at this
  cases sign with
  | plus => exact hplus
  | doubleMinus =>
    have hmerge : mergeSigns ('-' :: '-' :: b) = mergeSigns ('+' :: b) := by
      rw [mergeSigns, mergeSigns_cons (by simp)]
    show chunks ('-' :: '-' :: b) = [[], b]
    rw [← hplus, chunks, hmerge, chunks]
  | minus =>
    -- the plus that is put before the minus sign cuts, and the minus sign stays with the text
    show chunks ('-' :: b) = [[], '-' :: b]
    have hnot : '+' ∉ '-' :: b := by simpa using hb.not_mem
    have hsplit : ('+' :: '-' :: b).splitOn '+' = [] :: ('-' :: b).splitOn '+' :=
      List.splitOn_append_cons_self [] _
    rw [List.splitOn_eq_singleton hnot] at hsplit
    rw [chunks, mergeSigns_cons fun _ => hb.head_ne, hb.mergeSigns_eq, separate,
      if_pos ⟨rfl, by simp⟩, separate_congr (q := none) (by simp) (by simp), hb.separate_eq]
    exact hsplit

theorem exists_of_isZero_getD {o : Option Term} (h : (o.getD .zero).isZero = false) :
    ∃ u, o = some u := by
  cases o with
  | none => exact absurd h (by decide)
  | some u => exact ⟨u, rfl⟩

/-- Both readers see a sign in front of a term in the same way. -/
theorem ofChunk_sign (sign : Sign) (hb : b.head? ≠ some '-')
    (hz : (ofChunk (sign.text ++ b)).isZero = false) :
    ofChunk (Piece.chunk ⟨sign, b⟩) = ofChunk (sign.text ++ b) := by
  cases sign with
  | minus => rfl
  | plus =>
    have htext : ofChunk ('+' :: b) = (ofBody? ('+' :: b)).getD .zero := rfl
    obtain ⟨u, hu⟩ := exists_of_isZero_getD (htext ▸ hz)
    show ofChunk b = ofChunk ('+' :: b)
    rw [htext, ofChunk_of_head hb, hu, ofBody_plus hu]
  | doubleMinus =>
    have htext : ofChunk ('-' :: '-' :: b) = ((ofBody? ('-' :: b)).getD .zero).negate := rfl
    have hz' : ((ofBody? ('-' :: b)).getD .zero).isZero = false := by
      rw [← isZero_negate, ← htext]
      exact hz
    obtain ⟨u, hu⟩ := exists_of_isZero_getD hz'
    obtain ⟨v, hv, rfl⟩ := ofBody_minus hu
    show ofChunk b = ofChunk ('-' :: '-' :: b)
    rw [htext, ofChunk_of_head hb, hu, hv]
    exact Term.ext (neg_neg v.coefficient).symm rfl

/-- A text of a term is read as that term and nothing else, if in the text without blanks there is
no sign but one in front and the minus signs behind a `^`. -/
theorem terms_parse_single (s : String) (sign : Option Sign) (body : List Char)
    (hclean : Term.clean s.toList = sign.elim [] Sign.text ++ body) (hbody : Uncut none body)
    (hz : (Term.parse s).isZero = false) : (parse s).terms = [Term.parse s] := by
  have hparse : parse s = ofTerms [Term.parse s] := by
    rw [Term.parse, hclean] at hz
    rw [Term.parse, parse, hclean]
    cases sign with
    | none =>
      rw [Option.elim_none, List.nil_append, hbody.chunks_eq]
      rfl
    | some sign =>
      rw [Option.elim_some] at hz ⊢
      rw [chunks_sign hbody sign, ← ofChunk_sign sign hbody.head_ne hz]
      exact ofTerms_cons_ofChunk_nil _
  rw [hparse, terms_ofTerms (List.pairwise_singleton _ _)]
  exact nonzero_eq_self (by simpa using hz)

/-- Blanks and capital letters do not matter, and the two minus signs cancel. -/
theorem terms_parse_single_double_minus :
    (parse " - -2.5 X ^ -3 ").terms = [Term.parse " - -2.5 X ^ -3 "] ∧
      Term.parse " - -2.5 X ^ -3 " = ⟨2.5, -3⟩ := by
  refine ⟨terms_parse_single _ (some .doubleMinus) "2.5x^-3".toList ?_ ?_ ?_, ?_⟩
  · decide +kernel
  · simp [Uncut]
  · decide +kernel
  · decide +kernel

/-- The sign of a numeral in scientific notation cuts the text that is a term. -/
theorem parse_scientific :
    Term.parse "5e-1" = ⟨0.5, 0⟩ ∧ (Term.parse "5e-1").isZero = false ∧
      (parse "5e-1").terms = [⟨-1.0, 0⟩] ∧ (parse "5e-1").terms ≠ [Term.parse "5e-1"] := by
  decide +kernel

end Poly

end SparsePoly
