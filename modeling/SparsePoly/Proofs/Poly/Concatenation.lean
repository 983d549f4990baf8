import Mathlib
import SparsePoly.Proofs.Poly.Chunks
import SparsePoly.Proofs.Poly.Overflow
import SparsePoly.Proofs.Poly.Ring

/-!
# Texts with a plus between them

No rewriting of a text reaches across a plus, so the chunks of two texts with a plus between them
are the chunks of the first and those of the second (`chunks_append_plus`).  A text without signs is
a single chunk, and adds nothing if it is no term.  Where the sums of like terms are exact, the two
texts together read as the sum of the two polynomials (`parse_join`).
-/

open SparsePoly.Binary64

namespace SparsePoly

namespace Term

/-! ## Exact sums of two lists -/

variable {ts us : List Term}

theorem length_coefficientsAt_pos {e : Exponent} (h : (laurent ts).coeff e.toInt ≠ 0) :
    0 < (coefficientsAt ts e).length := by
  rw [coeff_laurent] at h
  refine List.length_pos_iff.2 fun hnil => h ?_
  rw [hnil]
  rfl

/-- Where both lists have a sum, the sum of the two is one of the sums of both lists together. -/
theorem ExactSums.sumExact (h : ExactSums (ts ++ us)) : SumExact (laurent ts) (laurent us) := by
  intro n ht hu
  obtain ⟨t, -, rfl⟩ := exists_of_coeff_laurent_ne_zero ht
  have hpos := length_coefficientsAt_pos ht
  have hpos' := length_coefficientsAt_pos hu
  have hsum := h.bounded t.exponent _ List.prefix_rfl (by
    rw [coefficientsAt_append, List.length_map, List.length_append]
    omega)
  rwa [← coeff_laurent, laurent_append, AddMonoidAlgebra.coeff_add, Finsupp.add_apply] at hsum

end Term

open Term

namespace Poly

variable {p q : Option Char} {cs : List Char} {ts us : List Term}

/-! ## The chunks of joined texts -/

/-- A minus sign before a plus has no partner. -/
theorem mergeSigns_append_plus (a b : List Char) :
    mergeSigns (a ++ '+' :: b) = mergeSigns a ++ '+' :: mergeSigns b := by
  fun_induction mergeSigns a with
  | case1 cs ih => rw [List.cons_append, List.cons_append, mergeSigns, ih, List.cons_append]
  | case2 c cs hne ih =>
    have hhead : c = '-' → (cs ++ '+' :: b).head? ≠ some '-' := by
      rintro rfl hd
      cases cs with
      | nil => cases hd
      | cons d ds => exact hne ds rfl (by rw [Option.some.inj hd])
    rw [List.cons_append, mergeSigns_cons hhead, ih, List.cons_append]
  | case3 => exact mergeSigns_cons (by simp)

theorem separate_append_plus (b : List Char) : ∀ (a : List Char) (p : Option Char),
    separate p (a ++ '+' :: b) = separate p a ++ '+' :: separate (some '+') b
  | [], p => by simp [separate]
  | c :: cs, p => by
    rw [List.cons_append, separate, separate, separate_append_plus b cs]
    split_ifs <;> rfl

/-- Only a `^` before a text changes where it is cut. -/
theorem separate_congr (hp : p ≠ some '^') (hq : q ≠ some '^') (cs : List Char) :
    separate p cs = separate q cs := by
  cases cs with
  | nil => rfl
  | cons c cs => simp [separate, hp, hq]

/-- No chunk reaches across a plus. -/
theorem chunks_append_plus (a b : List Char) : chunks (a ++ '+' :: b) = chunks a ++ chunks b := by
  rw [chunks, mergeSigns_append_plus, separate_append_plus, List.splitOn_append_cons_self,
    separate_congr (p := some '+') (q := none) (by simp) (by simp)]
  rfl

/-- A text without signs is not cut. -/
theorem chunks_eq_singleton (hplus : '+' ∉ cs) (hminus : '-' ∉ cs) : chunks cs = [cs] := by
  have huncut : Uncut none cs := by
    have hsigns : ∀ c ∈ cs, c ≠ '-' ∧ c ≠ '+' := fun c hc =>
      ⟨fun h => hminus (h ▸ hc), fun h => hplus (h ▸ hc)⟩
    have := uncut_append (b := []) (fun _ => trivial) hsigns none
    rwa [List.append_nil] at this
  exact huncut.chunks_eq

/-- Cleaning a text puts only letters into it. -/
theorem mem_of_mem_clean {c : Char} (hc : c.isAlpha = false) (h : c ∈ clean cs) : c ∈ cs := by
  obtain ⟨d, hd, rfl⟩ := List.mem_map.1 h
  rw [Char.isAlpha_toLower_eq_isAlpha, Char.isAlpha, Bool.or_eq_false_iff] at hc
  rw [Char.toLower_eq_of_not_isUpper (by simp [hc.1])]
  exact (List.mem_filter.1 hd).1

theorem chunkTerms_plus (s t : String) :
    chunkTerms (s ++ "+" ++ t) = chunkTerms s ++ chunkTerms t := by
  have hclean : clean (s ++ "+" ++ t).toList = clean s.toList ++ '+' :: clean t.toList := by
    rw [String.toList_append, String.toList_append, clean_append, clean_append, List.append_assoc]
    rfl
  rw [chunkTerms, hclean, chunks_append_plus, List.map_append]
  rfl

theorem chunkTerms_eq_singleton {s : String} (hplus : '+' ∉ s.toList) (hminus : '-' ∉ s.toList) :
    chunkTerms s = [Term.parse s] := by
  rw [chunkTerms, chunks_eq_singleton (mt (mem_of_mem_clean rfl) hplus)
    (mt (mem_of_mem_clean rfl) hminus)]
  rfl

/-! ## Reading joined texts -/

theorem ofTerms_append_cons_of_isZero {t : Term} (ht : t.isZero = true) (ts us : List Term) :
    ofTerms (ts ++ t :: us) = ofTerms (ts ++ us) := by
  rw [ofTerms, ofTerms, extend_append, extend_append, extend_cons, append_of_isZero ht]

/-- What stands between two pluses and is no term does not matter, whatever the texts on either side
of it are.  Two texts with a plus between them read as the sum of what they read as, as long as the
chunks write integers and the sums of like terms, from left to right in the second text and in both
texts together, are at most `2 ^ 53`. -/
theorem parse_join (s t : String) :
    (∀ g : String, '+' ∉ g.toList → '-' ∉ g.toList → (Term.parse g).isZero = true →
      parse (s ++ "+" ++ g ++ "+" ++ t) = parse (s ++ "+" ++ t)) ∧
    (ExactSums (Term.nonzero (chunkTerms s ++ chunkTerms t)) →
      ExactSums (Term.nonzero (chunkTerms t)) →
      (parse (s ++ "+" ++ t)).terms = ((parse s).add (parse t)).terms) := by
  have hparse (u : String) : parse u = ofTerms (chunkTerms u) := rfl
  refine ⟨fun g hplus hminus hzero => ?_, fun hboth ht => ?_⟩
  · rw [hparse, hparse, chunkTerms_plus, chunkTerms_plus, chunkTerms_plus,
      chunkTerms_eq_singleton hplus hminus, List.append_assoc]
    exact ofTerms_append_cons_of_isZero hzero _ _
  · have hjoined := reads_ofTerms_of_exactSums hboth
    rw [nonzero_append] at hboth
    have hs := hboth.left
    have hexact := hboth.sumExact
    rw [laurent_nonzero, laurent_nonzero] at hexact
    have hsum := (reads_ofTerms_of_exactSums hs).add (reads_ofTerms_of_exactSums ht) hexact
    rw [hparse, hparse, hparse, chunkTerms_plus, hjoined.terms_eq, hsum.terms_eq, laurent_append]

/-- The `^` before the second plus does not keep the minus sign behind it from cutting. -/
theorem parse_join_power :
    parse "2x+foo^+-3x" = parse "2x+-3x" ∧
      (parse "2x+-3x").terms = ((parse "2x").add (parse "-3x")).terms := by
  have two : IsInt 2.0 2 := isInt_of_isNat (by decide)
  have three : IsInt 3.0 3 := isInt_of_isNat (by decide)
  have hs : chunkTerms "2x" = [⟨2.0, 1⟩] := by decide +kernel
  have ht : Term.nonzero (chunkTerms "-3x") = [⟨-3.0, 1⟩] := by decide +kernel
  have hboth : Term.nonzero (chunkTerms "2x" ++ chunkTerms "-3x") = [⟨2.0, 1⟩, ⟨-3.0, 1⟩] := by
    rw [nonzero_append, hs, ht]
    rfl
  have hlist (e : Exponent) : (coefficientsAt [⟨2.0, 1⟩, ⟨-3.0, 1⟩] e).map toInt =
      if 1 = e then [2, -3] else [] := by
    rw [coefficientsAt_cons, coefficientsAt_cons]
    split_ifs
    · simp [coefficientsAt, two.toInt_eq, three.neg.toInt_eq]
    · rfl
  have hexact : ExactSums [⟨2.0, 1⟩, ⟨-3.0, 1⟩] := by
    refine ⟨?_, fun e ns hns hlen => ?_⟩
    · simp only [Term.Integral, List.forall_mem_cons, two.toInt_eq, three.neg.toInt_eq]
      exact ⟨two, three.neg, by simp⟩
    · rw [hlist] at hns
      split_ifs at hns
      · rw [hns.eq_of_length_le hlen]
        norm_num
      · rw [List.prefix_nil.1 hns] at hlen
        cases hlen
  have hsecond : ExactSums [⟨-3.0, 1⟩] :=
    StrictlyDescending.exactSums (List.pairwise_singleton _ _) fun t h =>
      hexact.integral t (List.mem_cons_of_mem _ h)
  obtain ⟨hforgive, hsum⟩ := parse_join "2x" "-3x"
  exact ⟨hforgive "foo^" (by decide) (by decide) (by decide +kernel),
    hsum (hboth ▸ hexact) (ht ▸ hsecond)⟩

end Poly

end SparsePoly
