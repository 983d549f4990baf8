import Mathlib
import SparsePoly.Operand
import SparsePoly.Proofs.Binary64.Overflow
import SparsePoly.Proofs.Poly.Valid

/-!
# Coefficients that are read from text

Each chunk of a text reads as a term with a finite coefficient (`isFinite_ofChunk`): the words for
infinities and NaN and numerals beyond the range of the doubles are not read.  Like terms are added
afterwards, and a sum of finite coefficients may leave the range.  So a coefficient of the
polynomial is finite exactly if no sum that makes it up leaves the range (`SumsInRange`), an
infinity otherwise, and never a NaN (`coefficient_parse`).
-/

open SparsePoly.Binary64

namespace SparsePoly

namespace Term

/-! ## One chunk -/

theorem isFinite_readFinite {cs : List Char} {c : Float} (h : Decimal.readFinite? cs = some c) :
    c.isFinite = true :=
  (Option.filter_eq_some_iff.1 h).2

theorem isFinite_readCoefficient {cs : List Char} {c : Float}
    (h : readCoefficient? cs = some c) : c.isFinite = true := by
  unfold readCoefficient? at h
  split_ifs at h with hcs
  · obtain rfl := Option.some.inj h
    decide
  · exact isFinite_readFinite h

theorem isFinite_ofBody {body : List Char} {t : Term} (h : ofBody? body = some t) :
    t.coefficient.isFinite = true := by
  unfold ofBody? at h
  split at h
  · next coefficient exponent hsplit =>
    obtain ⟨c, hc, h⟩ := Option.bind_eq_some_iff.1 h
    obtain ⟨e, he, h⟩ := Option.bind_eq_some_iff.1 h
    obtain rfl := Option.some.inj h
    exact isFinite_readCoefficient hc
  · split_ifs at h with hx
    · obtain ⟨c, hc, rfl⟩ := Option.map_eq_some_iff.1 h
      exact isFinite_readCoefficient hc
    · obtain ⟨c, hc, rfl⟩ := Option.map_eq_some_iff.1 h
      exact isFinite_readFinite hc

theorem isFinite_getD_ofBody (body : List Char) :
    ((ofBody? body).getD zero).coefficient.isFinite = true := by
  cases h : ofBody? body with
  | none => decide
  | some t => exact isFinite_ofBody h

theorem isFinite_ofChunk (cs : List Char) : (ofChunk cs).coefficient.isFinite = true := by
  unfold ofChunk
  split
  · rw [negate, isFinite_neg]
    exact isFinite_getD_ofBody _
  · exact isFinite_getD_ofBody _

/-! ## Sums of finite coefficients -/

/-- No sum from the left of two or more of the numbers leaves the range of the doubles. -/
def SumsInRange (cs : List Float) : Prop :=
  ∀ ds c, ds ≠ [] → ds ++ [c] <+: cs → |rounded (toRat (leftSum ds) + toRat c)| < 2 ^ (1024 : ℤ)

variable {cs : List Float} {c : Float}

theorem leftSum_concat (h : cs ≠ []) (c : Float) : leftSum (cs ++ [c]) = leftSum cs + c := by
  cases cs with
  | nil => exact absurd rfl h
  | cons d ds => simp [leftSum]

theorem sumsInRange_singleton (c : Float) : SumsInRange [c] := by
  intro ds d hds h
  have hlen := h.length_le
  have := List.length_pos_of_ne_nil hds
  simp only [List.length_append, List.length_singleton] at hlen
  omega

theorem sumsInRange_concat_iff (h : cs ≠ []) : SumsInRange (cs ++ [c]) ↔
    SumsInRange cs ∧ |rounded (toRat (leftSum cs) + toRat c)| < 2 ^ (1024 : ℤ) := by
  constructor
  · intro hall
    exact ⟨fun ds d hds hp => hall ds d hds (hp.trans (List.prefix_append cs [c])),
      hall cs c h List.prefix_rfl⟩
  · rintro ⟨hcs, hlast⟩ ds d hds hp
    rcases List.prefix_concat_iff.1 hp with heq | hp
    · obtain ⟨rfl, hd⟩ := List.append_inj' heq rfl
      obtain rfl := List.singleton_inj.1 hd
      exact hlast
    · exact hcs ds d hds hp

/-- The first sum that leaves the range is an infinity, and so are all sums after it. -/
theorem isFinite_or_isInf_leftSum (h : ∀ c ∈ cs, c.isFinite = true) :
    (leftSum cs).isFinite = true ∧ SumsInRange cs ∨
      (leftSum cs).isInf = true ∧ ¬ SumsInRange cs := by
  induction cs using List.reverseRecOn with
  | nil => exact Or.inl ⟨by decide, fun ds c _ hp => by simp at hp⟩
  | append_singleton cs c ih =>
    have hc : c.isFinite = true := h c (by simp)
    rcases eq_or_ne cs [] with rfl | hcs
    · exact Or.inl ⟨hc, sumsInRange_singleton c⟩
    rw [leftSum_concat hcs, sumsInRange_concat_iff hcs]
    rcases ih fun d hd => h d (List.mem_append_left _ hd) with ⟨hf, hr⟩ | ⟨hi, hr⟩
    · rcases isFinite_or_isInf_add hf hc with ⟨hsum, hlt⟩ | ⟨hsum, hle⟩
      · exact Or.inl ⟨hsum, hr, hlt⟩
      · exact Or.inr ⟨hsum, fun h => absurd h.2 (not_lt.2 hle)⟩
    · exact Or.inr ⟨isInf_add_of_isInf hi hc, fun h => hr h.1⟩

end Term

open Term

namespace Poly

/-! ## The whole text -/

/-- The terms that the chunks of a text write, in their order. -/
def chunkTerms (s : String) : List Term := (chunks (Term.clean s.toList)).map Term.ofChunk

theorem isFinite_of_mem_chunkTerms {s : String} {t : Term} (h : t ∈ chunkTerms s) :
    t.coefficient.isFinite = true := by
  obtain ⟨cs, -, rfl⟩ := List.mem_map.1 h
  exact isFinite_ofChunk cs

theorem coefficient_eq_leftSum {ts : List Term} {t : Term} (h : t ∈ (ofTerms ts).terms) :
    t.coefficient = leftSum (coefficientsAt (Term.nonzero ts) t.exponent) := by
  rw [(represents_ofTerms ts).terms_eq, (lists_normalForm ts).mem_iff] at h
  exact h.2

/-- A text reads as a polynomial without a NaN among its coefficients.  Every chunk has a finite
coefficient, and a coefficient of the polynomial is finite exactly if no sum of the coefficients of
its like terms, from the left, leaves the range of the doubles. -/
theorem coefficient_parse (s : String) :
    Operand.resolve (.text s) = .ok (parse s) ∧
      (∀ t ∈ chunkTerms s, t.coefficient.isFinite = true) ∧
      ∀ t ∈ (parse s).terms, t.coefficient.isNaN = false ∧
        (t.coefficient.isFinite = true ↔
          SumsInRange (coefficientsAt (Term.nonzero (chunkTerms s)) t.exponent)) := by
  refine ⟨rfl, fun t ht => isFinite_of_mem_chunkTerms ht, fun t ht => ?_⟩
  have hfinite : ∀ c ∈ coefficientsAt (Term.nonzero (chunkTerms s)) t.exponent,
      c.isFinite = true := by
    intro c hc
    obtain ⟨u, hu, rfl⟩ := List.mem_map.1 hc
    exact isFinite_of_mem_chunkTerms (mem_nonzero.1 (List.mem_filter.1 hu).1).1
  have hsum : t.coefficient =
      leftSum (coefficientsAt (Term.nonzero (chunkTerms s)) t.exponent) :=
    coefficient_eq_leftSum ht
  rw [hsum]
  rcases isFinite_or_isInf_leftSum hfinite with ⟨hf, hr⟩ | ⟨hi, hr⟩
  · exact ⟨isNaN_eq_false_of_isFinite hf, iff_of_true hf hr⟩
  · refine ⟨isNaN_eq_false_of_isInf hi, iff_of_false ?_ hr⟩
    rw [isFinite_eq_false_of_isInf hi]
    exact Bool.false_ne_true

/-- Two finite numerals may add up to an infinity. -/
theorem parse_overflowing :
    Operand.resolve (.text "1e308 + 1e308") = .ok (parse "1e308 + 1e308") ∧
      ∃ t ∈ (parse "1e308 + 1e308").terms, t.coefficient.isFinite = false :=
  ⟨rfl, by decide +kernel⟩

end Poly

end SparsePoly
