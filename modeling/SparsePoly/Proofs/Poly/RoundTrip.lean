import Mathlib
import SparsePoly.Proofs.Poly.Chunks
import SparsePoly.Proofs.Poly.Valid
import SparsePoly.Proofs.Term.Logarithm

/-!
# Reading the text of a polynomial

A term is `Legible` if its coefficient is finite and not zero.  Reading the text of a polynomial
with legible terms gives the same exponents in the same order, and each coefficient is read back
from the text of its size (`Legible.readsBack`, `terms_parse_termsText`).  One coefficient is read
back as a double with another text, `slipping`; a polynomial without it is written the same way
again and equals what was read, and one with it does not (`parse_render`).
-/

open SparsePoly.Binary64 SparsePoly.Decimal

namespace SparsePoly

/-! ## Terms -/

namespace Term

variable {t u : Term}

/-- The coefficient is finite and not zero. -/
structure Legible (t : Term) : Prop where
  finite : t.coefficient.isFinite = true
  nonzero : t.isZero = false

/-- The term `u` is what remains of `t`: it has the exponent of `t`, and its coefficient is read
back from the text of the size of the coefficient of `t` and has its sign. -/
structure ReadsBack (t u : Term) : Prop where
  exponent : u.exponent = t.exponent
  coefficient : ∃ r, readFinite? (coefficientText t.coefficient.abs) = some r ∧
    u.coefficient = withSign t.isNegative r

theorem Legible.finite_abs (h : t.Legible) : t.coefficient.abs.isFinite = true := by
  rw [isFinite_abs]
  exact h.finite

theorem Legible.toRat_abs_pos (h : t.Legible) : 0 < toRat t.coefficient.abs := by
  rw [toRat_abs]
  exact abs_pos.2 (toRat_ne_zero h.finite h.nonzero)

theorem Legible.body (h : t.Legible) : Poly.Body t.unsignedText := by
  obtain ⟨r, n, -, ht, -⟩ := exists_readBack h.finite_abs h.toRat_abs_pos
  exact Poly.body_monomialText t.exponent ht

/-- The text of a term is read as what remains of the term. -/
theorem Legible.readsBack (h : t.Legible) : ReadsBack t (ofChunk (Poly.chunkText t)) := by
  obtain ⟨r, n, hr, ht, -⟩ := exists_readBack h.finite_abs h.toRat_abs_pos
  have hbody : ofBody? t.unsignedText = some ⟨r, t.exponent⟩ := ofBody_monomialText t.exponent hr ht
  have hchunk : ofChunk (Poly.chunkText t) = ⟨withSign t.isNegative r, t.exponent⟩ := by
    unfold Poly.chunkText
    cases t.isNegative with
    | true =>
      show ((ofBody? t.unsignedText).getD zero).negate = _
      rw [hbody]
      rfl
    | false =>
      have hhead := h.body.head []
      rw [List.append_nil] at hhead
      show ofChunk t.unsignedText = _
      rw [ofChunk_of_head hhead, hbody]
      rfl
  rw [hchunk]
  exact ⟨rfl, r, hr, rfl⟩

/-- The size of what remains is read back from the text of the size. -/
theorem ReadsBack.size (h : ReadsBack t u) (ht : t.Legible) :
    readFinite? (coefficientText t.coefficient.abs) = some u.coefficient.abs ∧
      u.coefficient.abs.isFinite = true ∧ 0 < toRat u.coefficient.abs ∧
      u.isNegative = t.isNegative := by
  obtain ⟨r, hr, hu⟩ := h.coefficient
  obtain ⟨r', n, hr', -, hf, -, hpos⟩ := exists_readBack ht.finite_abs ht.toRat_abs_pos
  obtain rfl : r' = r := by simpa [hr] using hr'.symm
  have hsize : u.coefficient.abs = r' := by rw [hu, abs_withSign _ hpos]
  rw [hsize, isNegative, hu, isNegative_withSign _ hpos]
  exact ⟨hr, hf, hpos, rfl⟩

theorem ReadsBack.isZero_eq_false (h : ReadsBack t u) (ht : t.Legible) : u.isZero = false := by
  obtain ⟨-, hf, hpos, -⟩ := h.size ht
  rw [isFinite_abs] at hf
  rw [isZero, ← Bool.not_eq_true, beq_zero_iff_toRat hf]
  rw [toRat_abs] at hpos
  exact abs_pos.1 hpos

theorem ReadsBack.legible (h : ReadsBack t u) (ht : t.Legible) : u.Legible where
  finite := by
    obtain ⟨-, hf, -⟩ := h.size ht
    rwa [isFinite_abs] at hf
  nonzero := h.isZero_eq_false ht

theorem Legible.coefficientText_ne_nil (h : t.Legible) :
    coefficientText t.coefficient.abs ≠ [] := by
  obtain ⟨r, n, -, ht, -⟩ := exists_readBack h.finite_abs h.toRat_abs_pos
  rw [ht]
  exact n.text_ne_nil

/-- What remains of a term is written as the term was, with one exception. -/
theorem ReadsBack.unsignedText_eq_iff (h : ReadsBack t u) (ht : t.Legible) :
    u.unsignedText = t.unsignedText ↔ t.coefficient.abs ≠ slipping := by
  obtain ⟨hr, -⟩ := h.size ht
  rw [← coefficientText_readBack_iff ht.finite_abs ht.toRat_abs_pos hr, unsignedText, unsignedText,
    h.exponent]
  constructor
  · exact coefficientText_eq_of_monomialText_eq (h.legible ht).coefficientText_ne_nil
      ht.coefficientText_ne_nil
  · intro htext
    rw [monomialText_eq, monomialText_eq, htext]

theorem ReadsBack.chunkText_eq_iff (h : ReadsBack t u) (ht : t.Legible) :
    Poly.chunkText u = Poly.chunkText t ↔ t.coefficient.abs ≠ slipping := by
  obtain ⟨-, -, -, hsign⟩ := h.size ht
  rw [← h.unsignedText_eq_iff ht, Poly.chunkText, Poly.chunkText, hsign]
  split_ifs
  · exact ⟨fun heq => (List.cons.inj heq).2, fun heq => by rw [heq]⟩
  · rfl

end Term

namespace Poly

open Term

variable {p : Poly} {t : Term} {ts us : List Term}

/-! ## Lists of terms -/

/-- The terms that are read where the terms of a list were written. -/
def reread (ts : List Term) : List Term := ts.map fun t => ofChunk (chunkText t)

theorem strictlyDescending_reread (h : ∀ t ∈ ts, t.Legible) (hs : StrictlyDescending ts) :
    StrictlyDescending (reread ts) := by
  refine List.pairwise_map.2 (hs.imp_of_mem fun ha hb hab => ?_)
  rwa [(h _ ha).readsBack.exponent, (h _ hb).readsBack.exponent]

theorem forall_reread (h : ∀ t ∈ ts, t.Legible) : ∀ u ∈ reread ts, u.Legible := by
  intro u hu
  obtain ⟨t, ht, rfl⟩ := List.mem_map.1 hu
  exact (h t ht).readsBack.legible (h t ht)

theorem terms_parse_termsText (spaces : Bool) (h : ∀ t ∈ ts, t.Legible)
    (hs : StrictlyDescending ts) :
    (parse (String.ofList (termsText spaces ts))).terms = reread ts := by
  have hbody : ∀ t ∈ ts, Body t.unsignedText := fun t ht => (h t ht).body
  rw [parse, String.toList_ofList, clean_termsText spaces hbody]
  cases ts with
  | nil => decide +kernel
  | cons t ts =>
    have hempty : ofTerms ((((if t.isNegative then [[]] else []) ++
        (t :: ts).map chunkText)).map ofChunk) = ofTerms (reread (t :: ts)) := by
      rw [List.map_append, List.map_map]
      cases t.isNegative with
      | true => exact ofTerms_cons_ofChunk_nil _
      | false => rfl
    rw [chunks_termsText hbody, hempty]
    rw [terms_ofTerms (strictlyDescending_reread h hs)]
    exact nonzero_eq_self fun u hu => (forall_reread h u hu).nonzero

theorem isNegative_reread (h : t.Legible) : (ofChunk (chunkText t)).isNegative = t.isNegative := by
  obtain ⟨-, -, -, hsign⟩ := h.readsBack.size h
  exact hsign

/-- The text of a list is determined by the signs and the unsigned texts of its terms. -/
theorem termsText_congr (spaces : Bool) (h : List.Forall₂ (fun t u =>
    t.isNegative = u.isNegative ∧ t.unsignedText = u.unsignedText) ts us) :
    termsText spaces ts = termsText spaces us := by
  have htail {ts us : List Term} (h : List.Forall₂ (fun t u =>
      t.isNegative = u.isNegative ∧ t.unsignedText = u.unsignedText) ts us) :
      tailText spaces ts = tailText spaces us := by
    induction h with
    | nil => rfl
    | cons htu _ ih => rw [tailText_cons, tailText_cons, htu.1, htu.2, ih]
  cases h with
  | nil => rfl
  | cons htu h => rw [termsText, termsText, htu.1, htu.2, htail h]

/-- No term that is not zero is written as a zero. -/
theorem chunks_termsText_ne_zero (h : ∀ u ∈ t :: ts, u.Legible) :
    chunks (termsText false (t :: ts)) ≠ [['0']] := by
  have ht := h t List.mem_cons_self
  rw [chunks_termsText fun u hu => (h u hu).body]
  cases t.isNegative with
  | true => simp
  | false =>
    intro heq
    have htext : chunkText t = ['0'] := (List.cons.inj heq).1
    have hzero := ht.readsBack.isZero_eq_false ht
    rw [htext] at hzero
    exact absurd hzero (by decide +kernel)

/-- The text of a list can be taken apart into the texts of its terms. -/
theorem map_chunkText_eq (spaces : Bool) (hts : ∀ t ∈ ts, t.Legible) (hus : ∀ u ∈ us, u.Legible)
    (heq : termsText spaces ts = termsText spaces us) : ts.map chunkText = us.map chunkText := by
  have hbody {ts : List Term} (h : ∀ t ∈ ts, t.Legible) : ∀ t ∈ ts, Body t.unsignedText :=
    fun t ht => (h t ht).body
  have heq := congrArg clean heq
  rw [clean_termsText spaces (hbody hts), clean_termsText spaces (hbody hus)] at heq
  have hchunks := congrArg chunks heq
  have hzero : chunks (termsText false []) = [['0']] := by decide
  cases ts with
  | nil =>
    cases us with
    | nil => rfl
    | cons u us => exact absurd (hchunks.symm.trans hzero) (chunks_termsText_ne_zero hus)
  | cons t ts =>
    cases us with
    | nil => exact absurd (hchunks.trans hzero) (chunks_termsText_ne_zero hts)
    | cons u us =>
      -- only a text with a minus sign in front starts with an empty chunk
      have hne {t : Term} (ht : t.Legible) : chunkText t ≠ [] := by
        unfold chunkText
        split_ifs
        · exact List.cons_ne_nil _ _
        · exact ht.body.ne_nil
      rw [chunks_termsText (hbody hts), chunks_termsText (hbody hus)] at hchunks
      cases ht : t.isNegative <;> cases hu : u.isNegative <;> rw [ht, hu] at hchunks
      · exact hchunks
      · exact absurd (List.cons.inj hchunks).1 (hne (hts t List.mem_cons_self))
      · exact absurd (List.cons.inj hchunks).1.symm (hne (hus u List.mem_cons_self))
      · exact (List.cons.inj hchunks).2

theorem termsText_reread_iff (spaces : Bool) (h : ∀ t ∈ ts, t.Legible) :
    termsText spaces (reread ts) = termsText spaces ts ↔
      ∀ t ∈ ts, t.coefficient.abs ≠ slipping := by
  constructor
  · intro heq t ht
    have hmap := map_chunkText_eq spaces (forall_reread h) h heq
    rw [reread, List.map_map, List.map_inj_left] at hmap
    exact ((h t ht).readsBack.chunkText_eq_iff (h t ht)).1 (hmap t ht)
  · intro hne
    refine termsText_congr spaces ?_
    rw [reread, List.forall₂_map_left_iff, List.forall₂_same]
    intro t ht
    exact ⟨isNegative_reread (h t ht),
      ((h t ht).readsBack.unsignedText_eq_iff (h t ht)).2 (hne t ht)⟩

/-! ## Polynomials -/

theorem Valid.legible (hp : p.Valid) (hf : ∀ t ∈ p.terms, t.coefficient.isFinite = true) :
    ∀ t ∈ p.terms, t.Legible :=
  fun t ht => ⟨hf t ht, hp.isZero_eq_false t ht⟩

theorem Valid.terms_parse_render (hp : p.Valid)
    (hf : ∀ t ∈ p.terms, t.coefficient.isFinite = true) (spaces : Bool) :
    (parse (p.render spaces)).terms = reread p.terms :=
  terms_parse_termsText spaces (hp.legible hf) hp.strictlyDescending

/-- Reading the text of a polynomial with finite coefficients gives its exponents in the same order,
and each coefficient is read back from the text of its size and has its sign.  What was read is
written in the same way again, and equals the polynomial, unless a coefficient has the size
`slipping`.  None of the texts depends on how the logarithm of a coefficient is rounded. -/
theorem parse_render (hp : p.Valid) (hf : ∀ t ∈ p.terms, t.coefficient.isFinite = true)
    (spaces : Bool) :
    List.Forall₂ ReadsBack p.terms (parse (p.render spaces)).terms ∧
      (∀ again, (parse (p.render spaces)).render again = p.render again ↔
        ∀ t ∈ p.terms, t.coefficient.abs ≠ slipping) ∧
      ((parse (p.render spaces)).equals p = true ↔
        ∀ t ∈ p.terms, t.coefficient.abs ≠ slipping) ∧
      ∀ t ∈ p.terms ++ (parse (p.render spaces)).terms, ∀ l : ℝ,
        |l - Real.logb 10 (toRat t.coefficient.abs)| ≤ 2 ^ (-44 : ℤ) →
        sizeTextFrom l (magnitude t.coefficient.abs) = coefficientText t.coefficient.abs := by
  have hterms := hp.terms_parse_render hf spaces
  have hlegible := hp.legible hf
  have hrender (again : Bool) : (parse (p.render spaces)).render again = p.render again ↔
      ∀ t ∈ p.terms, t.coefficient.abs ≠ slipping := by
    rw [render, hterms, render, String.ofList_inj]
    exact termsText_reread_iff again hlegible
  refine ⟨?_, hrender, ?_, fun t ht l hl => ?_⟩
  · rw [hterms, reread, List.forall₂_map_right_iff, List.forall₂_same]
    exact fun t ht => (hlegible t ht).readsBack
  · rw [equals, beq_iff_eq]
    exact hrender true
  · have h : t.Legible := by
      rw [hterms] at ht
      exact (List.mem_append.1 ht).elim (hlegible t) (forall_reread hlegible t)
    exact sizeTextFrom_eq_coefficientText h.finite_abs h.toRat_abs_pos hl

/-- A polynomial that equals what is read from its text, and a constant that does not. -/
theorem parse_render_slipping :
    (parse ((ofTerms [⟨-1.5, 2⟩, ⟨0.1, -3⟩]).render true)).equals
        (ofTerms [⟨-1.5, 2⟩, ⟨0.1, -3⟩]) = true ∧
      (parse ((constant slipping).render true)).equals (constant slipping) = false := by
  have hterms : (ofTerms [⟨-1.5, 2⟩, ⟨0.1, -3⟩]).terms = [⟨-1.5, 2⟩, ⟨0.1, -3⟩] := by
    decide +kernel
  have hconstant : (constant slipping).terms = [⟨slipping, 0⟩] := by decide +kernel
  constructor
  · have h := parse_render (valid_ofTerms [⟨-1.5, 2⟩, ⟨0.1, -3⟩])
      (by rw [hterms]; decide +kernel) true
    rw [hterms] at h
    exact h.2.2.1.2 (by decide +kernel)
  · have hvalid : (constant slipping).Valid := valid_ofTerms [⟨slipping, 0⟩]
    have h := parse_render hvalid (by rw [hconstant]; decide +kernel) true
    rw [hconstant] at h
    rw [← Bool.not_eq_true, h.2.2.1]
    exact fun hne => hne ⟨slipping, 0⟩ (List.mem_singleton_self _) (by decide +kernel)

end Poly

end SparsePoly
