import Mathlib
import SparsePoly.Proofs.Poly.RoundTrip

/-!
# Equal texts

Polynomials count as equal if they have the same text.  The text can be taken apart into the texts
of the terms, and each of these tells the exponent, the sign and the text of the size of a term
(`termsText_eq_iff`).  An integral coefficient is written with all its digits, so that polynomials
with integral coefficients are equal only if they have the same terms (`render_eq_iff`).
-/

open SparsePoly.Binary64 SparsePoly.Decimal

namespace SparsePoly

namespace Term

variable {t u : Term}

/-- The terms have the same exponent and the same sign, and the same text is written for their
sizes. -/
structure WrittenAlike (t u : Term) : Prop where
  exponent : t.exponent = u.exponent
  sign : t.isNegative = u.isNegative
  size : coefficientText t.coefficient.abs = coefficientText u.coefficient.abs

theorem WrittenAlike.unsignedText_eq (h : WrittenAlike t u) : t.unsignedText = u.unsignedText := by
  rw [unsignedText, unsignedText, monomialText_eq, monomialText_eq, h.exponent, h.size]

/-- The text of a term tells the exponent and the sign, because they are read from it. -/
theorem Legible.chunkText_eq_iff (ht : t.Legible) (hu : u.Legible) :
    Poly.chunkText t = Poly.chunkText u ↔ WrittenAlike t u := by
  constructor
  · intro h
    have hexponent : t.exponent = u.exponent := by
      rw [← ht.readsBack.exponent, h, hu.readsBack.exponent]
    have hsign : t.isNegative = u.isNegative := by
      rw [← Poly.isNegative_reread ht, h, Poly.isNegative_reread hu]
    have hunsigned : t.unsignedText = u.unsignedText := by
      unfold Poly.chunkText at h
      rw [hsign] at h
      split_ifs at h
      · exact (List.cons.inj h).2
      · exact h
    rw [unsignedText, unsignedText, hexponent] at hunsigned
    exact ⟨hexponent, hsign, coefficientText_eq_of_monomialText_eq ht.coefficientText_ne_nil
      hu.coefficientText_ne_nil hunsigned⟩
  · intro h
    rw [Poly.chunkText, Poly.chunkText, h.sign, h.unsignedText_eq]

/-! ## Integral coefficients -/

/-- A positive integer is read back from its text. -/
theorem readFinite_coefficientText {x : Float} {n : ℤ} (h : IsInt x n) (hn : 0 < n) :
    readFinite? (coefficientText x) = some x := by
  have hpos : 0 < toRat x := by
    rw [h.toRat_eq]
    exact_mod_cast hn
  obtain ⟨r, -, hr, -, hf, hv, -⟩ := exists_readBack h.finite hpos
  rw [h.toRat_eq, printed_intCast, h.rounded] at hv
  rw [hr, IsInt.eq ⟨hf, hv⟩ h hn.ne']

/-- Terms with integral coefficients that are written alike are the same. -/
theorem WrittenAlike.eq (h : WrittenAlike t u) {m n : ℤ} (ht : IsInt t.coefficient m)
    (hm : m ≠ 0) (hu : IsInt u.coefficient n) (hn : n ≠ 0) : t = u := by
  have size {x : Float} {k : ℤ} (hx : IsInt x k) (hk : k ≠ 0) :
      readFinite? (coefficientText x.abs) = some x.abs := by
    refine readFinite_coefficientText (n := |k|) ⟨?_, ?_⟩ (abs_pos.2 hk)
    · rw [isFinite_abs, hx.finite]
    · rw [toRat_abs, hx.toRat_eq, Int.cast_abs]
  have hsign (v : Term) : withSign v.isNegative v.coefficient.abs = v.coefficient :=
    withSign_abs v.coefficient
  have habs : t.coefficient.abs = u.coefficient.abs := by
    have hread := size ht hm
    rw [h.size, size hu hn] at hread
    exact (Option.some.inj hread).symm
  have hcoefficient : t.coefficient = u.coefficient := by
    rw [← hsign t, h.sign, habs, hsign u]
  obtain ⟨c, e⟩ := t
  obtain ⟨d, f⟩ := u
  rw [Term.mk.injEq]
  exact ⟨hcoefficient, h.exponent⟩

end Term

namespace Poly

open Term

variable {p q : Poly}

/-! ## Lists of terms -/

theorem map_chunkText_eq_iff : ∀ {ts us : List Term}, (∀ t ∈ ts, t.Legible) →
    (∀ u ∈ us, u.Legible) →
    (ts.map chunkText = us.map chunkText ↔ List.Forall₂ WrittenAlike ts us)
  | [], [], _, _ => by simp
  | [], _ :: _, _, _ => by simp
  | _ :: _, [], _, _ => by simp
  | t :: ts, u :: us, hts, hus => by
    rw [List.forall_mem_cons] at hts hus
    rw [List.map_cons, List.map_cons, List.cons.injEq, List.forall₂_cons,
      hts.1.chunkText_eq_iff hus.1, map_chunkText_eq_iff hts.2 hus.2]

/-- Two lists have the same text exactly if their terms are written alike. -/
theorem termsText_eq_iff (spaces : Bool) {ts us : List Term} (hts : ∀ t ∈ ts, t.Legible)
    (hus : ∀ u ∈ us, u.Legible) :
    termsText spaces ts = termsText spaces us ↔ List.Forall₂ WrittenAlike ts us := by
  constructor
  · intro h
    exact (map_chunkText_eq_iff hts hus).1 (map_chunkText_eq spaces hts hus h)
  · intro h
    exact termsText_congr spaces (h.imp fun t u htu => ⟨htu.sign, htu.unsignedText_eq⟩)

theorem eq_of_forall₂_writtenAlike {ts us : List Term} (h : List.Forall₂ WrittenAlike ts us)
    (hts : ∀ t ∈ ts, t.Legible ∧ ∃ n, IsInt t.coefficient n)
    (hus : ∀ u ∈ us, u.Legible ∧ ∃ n, IsInt u.coefficient n) : ts = us := by
  have hne {t : Term} {n : ℤ} (ht : t.Legible) (hn : IsInt t.coefficient n) : n ≠ 0 := by
    rw [ne_eq, ← hn.beq_zero, Bool.not_eq_true]
    exact ht.nonzero
  induction h with
  | nil => rfl
  | cons htu _ ih =>
    rw [List.forall_mem_cons] at hts hus
    obtain ⟨⟨ht, m, hm⟩, hts⟩ := hts
    obtain ⟨⟨hu, n, hn⟩, hus⟩ := hus
    rw [htu.eq hm (hne ht hm) hn (hne hu hn), ih hts hus]

/-! ## Polynomials -/

/-- Polynomials with finite coefficients have the same text exactly if their terms have the same
exponents and at each exponent the same sign and the same text of the size.  Those with integral
coefficients are equal exactly if their terms are the same.  None of the texts depends on how the
logarithm of a coefficient is rounded. -/
theorem render_eq_iff (hp : p.Valid) (hq : q.Valid)
    (hpf : ∀ t ∈ p.terms, t.coefficient.isFinite = true)
    (hqf : ∀ t ∈ q.terms, t.coefficient.isFinite = true) :
    (∀ spaces, p.render spaces = q.render spaces ↔ List.Forall₂ WrittenAlike p.terms q.terms) ∧
      ((∀ t ∈ p.terms ++ q.terms, ∃ n, IsInt t.coefficient n) →
        (p.equals q = true ↔ p.terms = q.terms)) ∧
      ∀ t ∈ p.terms ++ q.terms, ∀ l : ℝ,
        |l - Real.logb 10 (toRat t.coefficient.abs)| ≤ 2 ^ (-44 : ℤ) →
        sizeTextFrom l (magnitude t.coefficient.abs) = coefficientText t.coefficient.abs := by
  have hpl := hp.legible hpf
  have hql := hq.legible hqf
  have hrender (spaces : Bool) : p.render spaces = q.render spaces ↔
      List.Forall₂ WrittenAlike p.terms q.terms := by
    rw [render, render, String.ofList_inj]
    exact termsText_eq_iff spaces hpl hql
  refine ⟨hrender, fun hint => ?_, fun t ht l hl => ?_⟩
  · rw [List.forall_mem_append] at hint
    rw [equals, beq_iff_eq]
    constructor
    · intro h
      exact eq_of_forall₂_writtenAlike ((hrender true).1 h)
        (fun t ht => ⟨hpl t ht, hint.1 t ht⟩) fun t ht => ⟨hql t ht, hint.2 t ht⟩
    · intro h
      rw [text, text, render, render, h]
  · have h : t.Legible := (List.mem_append.1 ht).elim (hpl t) (hql t)
    exact sizeTextFrom_eq_coefficientText h.finite_abs h.toRat_abs_pos hl

/-- In compact text only the minus sign of an exponent tells two polynomials apart. -/
theorem render_eq_iff_negative_power :
    let p := ofTerms [⟨1e17, 3⟩, ⟨-1.0, -2⟩]
    let q := ofTerms [⟨1e17, 3⟩, ⟨-1.0, 2⟩]
    p.render false ≠ q.render false ∧ p.equals q = false := by
  intro p q
  have hp : p.terms = [⟨1e17, 3⟩, ⟨-1.0, -2⟩] := by decide +kernel
  have hq : q.terms = [⟨1e17, 3⟩, ⟨-1.0, 2⟩] := by decide +kernel
  have hlarge : IsInt 1e17 (10 ^ 17 : ℕ) := isInt_of_isNat (by decide +kernel)
  have hone : IsInt 1.0 (1 : ℕ) := isInt_of_isNat (by decide +kernel)
  obtain ⟨hrender, hequals, -⟩ := render_eq_iff (valid_ofTerms _) (valid_ofTerms _)
    (p := p) (q := q) (by rw [hp]; decide +kernel) (by rw [hq]; decide +kernel)
  rw [hp, hq] at hrender hequals
  constructor
  · rw [Ne, hrender, List.forall₂_cons, List.forall₂_cons]
    rintro ⟨-, h, -⟩
    exact absurd h.exponent (by decide)
  · rw [← Bool.not_eq_true, hequals]
    · decide +kernel
    · simp only [List.cons_append, List.nil_append, List.forall_mem_cons, List.not_mem_nil,
        false_implies, implies_true, and_true]
      exact ⟨⟨_, hlarge⟩, ⟨_, hone.neg⟩, ⟨_, hlarge⟩, ⟨_, hone.neg⟩⟩

end Poly

end SparsePoly
