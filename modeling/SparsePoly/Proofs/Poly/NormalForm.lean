import Mathlib
import SparsePoly.Poly.Basic
import SparsePoly.Proofs.Binary64.Agree

/-!
# The normal form of a list of terms

A list of terms is seen through `sumAt`, the sum of its coefficients at each exponent in the order
of the list.  `Lists ns f` says that `ns` is the normal form that belongs to the sums `f`: strictly
descending, with a term for each sum that is not zero.  There is one such list (`Lists.unique`).
Sorting keeps every sum (`sumAt_sortDescending`), and combining a sorted list lists its sums
(`lists_combine`).
-/

namespace SparsePoly

open Binary64

namespace Term

theorem ext {t u : Term} (hc : t.coefficient = u.coefficient) (he : t.exponent = u.exponent) :
    t = u := by
  cases t
  cases u
  exact congrArg₂ Term.mk hc he

/-! ## Sums by exponent -/

/-- The sum from left to right that starts with the first number; zero if there is none. -/
def leftSum : List Float → Float
  | [] => 0.0
  | c :: cs => cs.foldl (· + ·) c

/-- The coefficients of the terms with exponent `e`. -/
def coefficientsAt (ts : List Term) (e : Exponent) : List Float :=
  (ts.filter (·.exponent = e)).map Term.coefficient

/-- The sum of the terms with exponent `e`. -/
def sumAt (ts : List Term) (e : Exponent) : Float := leftSum (coefficientsAt ts e)

@[simp] theorem sumAt_nil (e : Exponent) : sumAt [] e = 0.0 := rfl

theorem coefficientsAt_cons (t : Term) (ts : List Term) (e : Exponent) :
    coefficientsAt (t :: ts) e =
      if t.exponent = e then t.coefficient :: coefficientsAt ts e else coefficientsAt ts e := by
  unfold coefficientsAt
  by_cases h : t.exponent = e <;> simp [h]

theorem coefficientsAt_append (ts us : List Term) (e : Exponent) :
    coefficientsAt (ts ++ us) e = coefficientsAt ts e ++ coefficientsAt us e := by
  simp [coefficientsAt]

theorem coefficientsAt_eq_nil {ts : List Term} {e : Exponent} (h : ∀ t ∈ ts, t.exponent ≠ e) :
    coefficientsAt ts e = [] := by
  unfold coefficientsAt
  simpa using h

theorem sumAt_eq_zero {ts : List Term} {e : Exponent} (h : ∀ t ∈ ts, t.exponent ≠ e) :
    sumAt ts e = 0.0 := by
  rw [sumAt, coefficientsAt_eq_nil h, leftSum]

theorem sumAt_cons_of_ne {t : Term} {e : Exponent} (h : t.exponent ≠ e) (ts : List Term) :
    sumAt (t :: ts) e = sumAt ts e := by
  rw [sumAt, coefficientsAt_cons, if_neg h, sumAt]

theorem sumAt_cons_self {t : Term} {ts : List Term} (h : ∀ u ∈ ts, u.exponent ≠ t.exponent) :
    sumAt (t :: ts) t.exponent = t.coefficient := by
  rw [sumAt, coefficientsAt_cons, if_pos rfl, coefficientsAt_eq_nil h, leftSum, List.foldl_nil]

/-- Like terms at the front may be added first. -/
theorem sumAt_cons_cons {run t : Term} (h : t.exponent = run.exponent) (ts : List Term)
    (e : Exponent) :
    sumAt (run :: t :: ts) e =
      sumAt ({ run with coefficient := run.coefficient + t.coefficient } :: ts) e := by
  unfold sumAt
  simp only [coefficientsAt_cons, h]
  split_ifs
  · simp [leftSum]
  · rfl

/-- A term behind the others is added to the sum of its exponent. -/
theorem sumAt_append_singleton (ts : List Term) {t : Term} (ht : t.isZero = false)
    (e : Exponent) :
    sumAt (ts ++ [t]) e = if t.exponent = e then sumAt ts e + t.coefficient else sumAt ts e := by
  unfold sumAt
  rw [coefficientsAt_append, coefficientsAt_cons]
  split_ifs with h
  · cases coefficientsAt ts e with
    | nil => exact (zero_add_of_ne (x := 0.0) rfl ht).symm
    | cons c cs => simp [leftSum, coefficientsAt]
  · simp [coefficientsAt]

/-! ## Sorting -/

/-- The exponents do not ascend. -/
def Descending (ts : List Term) : Prop := ts.Pairwise fun a b => b.exponent ≤ a.exponent

/-- The exponents descend strictly. -/
def StrictlyDescending (ts : List Term) : Prop := ts.Pairwise fun a b => b.exponent < a.exponent

theorem descends_trans {α : Type} (key : α → Exponent) (a b c : α)
    (hab : decide (key b ≤ key a) = true) (hbc : decide (key c ≤ key b) = true) :
    decide (key c ≤ key a) = true := by
  rw [decide_eq_true_eq] at hab hbc ⊢
  exact Int32.le_trans hbc hab

theorem descends_total {α : Type} (key : α → Exponent) (a b : α) :
    (decide (key b ≤ key a) || decide (key a ≤ key b)) = true := by
  simpa using Int32.le_total (key b) (key a)

theorem descending_sortDescending (ts : List Term) : Descending (sortDescending ts) :=
  (List.pairwise_mergeSort (descends_trans exponent) (descends_total exponent) ts).imp
    fun hab => of_decide_eq_true hab

/-- Like terms keep their order when the terms are sorted. -/
theorem filter_sortDescending (ts : List Term) (e : Exponent) :
    (sortDescending ts).filter (·.exponent = e) = ts.filter (·.exponent = e) := by
  have like : (ts.filter (·.exponent = e)).Pairwise fun a b =>
      decide (b.exponent ≤ a.exponent) = true := by
    refine List.pairwise_of_forall_mem_list fun a ha b hb => ?_
    have ha : a.exponent = e := by simpa using (List.mem_filter.1 ha).2
    have hb : b.exponent = e := by simpa using (List.mem_filter.1 hb).2
    simp [ha, hb]
  have hsub : (ts.filter (·.exponent = e)).Sublist (sortDescending ts) :=
    List.sublist_mergeSort (descends_trans exponent) (descends_total exponent) like
      List.filter_sublist
  have hsub := hsub.filter (·.exponent = e)
  rw [List.filter_filter] at hsub
  simp only [Bool.and_self] at hsub
  refine (hsub.eq_of_length ?_).symm
  exact ((List.mergeSort_perm ts _).filter _).length_eq.symm

theorem sumAt_sortDescending (ts : List Term) (e : Exponent) :
    sumAt (sortDescending ts) e = sumAt ts e := by
  unfold sumAt coefficientsAt
  rw [filter_sortDescending]

/-! ## Normal forms -/

/-- The list is strictly descending and has a term for each sum that is not zero. -/
structure Lists (ns : List Term) (f : Exponent → Float) : Prop where
  descending : StrictlyDescending ns
  mem_iff : ∀ t, t ∈ ns ↔ t.isZero = false ∧ t.coefficient = f t.exponent

variable {ns ms : List Term} {f g : Exponent → Float}

/-- Strictly descending lists with the same terms are equal. -/
theorem StrictlyDescending.eq_of_mem_iff (hn : StrictlyDescending ns)
    (hm : StrictlyDescending ms) (h : ∀ t, t ∈ ns ↔ t ∈ ms) : ns = ms := by
  have irrefl (a : Term) : ¬ a.exponent < a.exponent := Int32.lt_irrefl
  have nodup {l : List Term} (hl : StrictlyDescending l) : l.Nodup := by
    refine List.Pairwise.imp ?_ hl
    rintro a b hab rfl
    exact irrefl a hab
  refine List.Perm.eq_of_pairwise (fun a b _ _ hab hba => ?_) hn hm
    ((List.perm_ext_iff_of_nodup (nodup hn) (nodup hm)).2 h)
  exact absurd (Int32.lt_trans hab hba) (irrefl b)

/-- The sums determine the normal form. -/
theorem Lists.unique (hn : Lists ns f) (hm : Lists ms f) : ns = ms :=
  hn.descending.eq_of_mem_iff hm.descending fun t => (hn.mem_iff t).trans (hm.mem_iff t).symm

/-- The sign of a sum that is zero does not matter. -/
theorem Lists.congr (h : Lists ns f) (hfg : ∀ e, Agree (f e) (g e)) : Lists ns g where
  descending := h.descending
  mem_iff t := by
    rw [h.mem_iff]
    refine and_congr_right fun ht => ?_
    rcases hfg t.exponent with heq | ⟨hf, hg⟩
    · rw [heq]
    · have zero {x : Float} (hx : (x == 0.0) = true) : t.coefficient ≠ x := by
        rintro rfl
        rw [isZero, hx] at ht
        cases ht
      exact iff_of_false (zero hf) (zero hg)

/-- The normal form determines the sums that are not zero. -/
theorem Lists.agree (hf : Lists ns f) (hg : Lists ns g) (e : Exponent) : Agree (f e) (g e) := by
  have found {f g : Exponent → Float} (hf : Lists ns f) (hg : Lists ns g)
      (h : (f e == 0.0) = false) : f e = g e :=
    ((hg.mem_iff ⟨f e, e⟩).1 ((hf.mem_iff ⟨f e, e⟩).2 ⟨h, rfl⟩)).2
  cases h₁ : f e == 0.0 with
  | false => exact Or.inl (found hf hg h₁)
  | true =>
    cases h₂ : g e == 0.0 with
    | false => exact Or.inl (found hg hf h₂).symm
    | true => exact Or.inr ⟨h₁, h₂⟩

/-! ## Combining -/

theorem mem_keep {t u : Term} : u ∈ keep t ns ↔ t.isZero = false ∧ u = t ∨ u ∈ ns := by
  unfold keep
  cases h : t.isZero <;> simp

theorem lists_nil : Lists [] (sumAt []) where
  descending := List.Pairwise.nil
  mem_iff t := by
    simp only [List.not_mem_nil, sumAt_nil, false_iff, not_and]
    intro ht h
    rw [isZero, h] at ht
    cases ht

/-- What bounds the exponents of a list bounds those of its normal form. -/
theorem Lists.exponent_lt {ts : List Term} (h : Lists ns (sumAt ts)) {e : Exponent}
    (he : ∀ t ∈ ts, t.exponent < e) : ∀ u ∈ ns, u.exponent < e := by
  intro u hu
  obtain ⟨hz, hc⟩ := (h.mem_iff u).1 hu
  by_contra hlt
  have : sumAt ts u.exponent = 0.0 := by
    refine sumAt_eq_zero fun t ht heq => hlt ?_
    rw [← heq]
    exact he t ht
  rw [isZero, hc, this] at hz
  cases hz

/-- A term above all others in front of their normal form. -/
theorem Lists.keep {run : Term} {ts : List Term} (h : Lists ns (sumAt ts))
    (hrun : ∀ t ∈ ts, t.exponent < run.exponent) :
    Lists (Term.keep run ns) (sumAt (run :: ts)) := by
  have hne : ∀ t ∈ ts, t.exponent ≠ run.exponent := fun t ht heq => by
    have := hrun t ht
    rw [heq] at this
    exact Int32.lt_irrefl this
  have below := h.exponent_lt hrun
  constructor
  · unfold Term.keep
    split
    · exact h.descending
    · exact List.Pairwise.cons below h.descending
  · intro u
    rw [mem_keep, h.mem_iff]
    by_cases he : run.exponent = u.exponent
    · have hsum : sumAt (run :: ts) u.exponent = run.coefficient := by
        rw [← he]
        exact sumAt_cons_self hne
      have habsent : ¬ (u.isZero = false ∧ u.coefficient = sumAt ts u.exponent) := by
        rw [← h.mem_iff]
        intro hu
        have := below u hu
        rw [he] at this
        exact Int32.lt_irrefl this
      rw [hsum, or_iff_left habsent]
      constructor
      · rintro ⟨hz, rfl⟩
        exact ⟨hz, rfl⟩
      · rintro ⟨hz, hc⟩
        obtain rfl : u = run := Term.ext hc he.symm
        exact ⟨hz, rfl⟩
    · have hu : u ≠ run := by
        rintro rfl
        exact he rfl
      rw [sumAt_cons_of_ne he, or_iff_right fun h => hu h.2]

theorem lists_combineRun : ∀ {run : Term} {ts : List Term}, Descending (run :: ts) →
    Lists (combineRun run ts) (sumAt (run :: ts))
  | run, [], _ => lists_nil.keep (by simp)
  | run, t :: ts, h => by
    obtain ⟨hrun, hts⟩ := List.pairwise_cons.1 h
    rw [combineRun]
    split_ifs with he
    · have h' : Descending ({ run with coefficient := run.coefficient + t.coefficient } :: ts) :=
        List.Pairwise.cons (fun u hu => hrun u (List.mem_cons_of_mem t hu))
          (List.Pairwise.of_cons hts)
      have heq := funext fun e => sumAt_cons_cons he ts e
      rw [heq]
      exact lists_combineRun h'
    · refine (lists_combineRun hts).keep fun u hu => ?_
      have hlt : t.exponent < run.exponent :=
        Int32.lt_of_le_of_ne (hrun t List.mem_cons_self) he
      rcases List.mem_cons.1 hu with rfl | hu
      · exact hlt
      · exact Int32.lt_of_le_of_lt ((List.pairwise_cons.1 hts).1 u hu) hlt

/-- Combining a list whose exponents do not ascend lists its sums. -/
theorem lists_combine {ts : List Term} (h : Descending ts) : Lists (combine ts) (sumAt ts) := by
  cases ts with
  | nil => exact lists_nil
  | cons t ts => exact lists_combineRun h

/-- A strictly descending list without zero terms is in normal form. -/
theorem lists_self : ∀ {ts : List Term}, StrictlyDescending ts → (∀ t ∈ ts, t.isZero = false) →
    Lists ts (sumAt ts)
  | [], _, _ => lists_nil
  | t :: ts, h, hz => by
    obtain ⟨ht, hts⟩ := List.pairwise_cons.1 h
    have key := (lists_self hts fun u hu => hz u (List.mem_cons_of_mem t hu)).keep ht
    rwa [Term.keep, hz t List.mem_cons_self] at key

end Term

end SparsePoly
