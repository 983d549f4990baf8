import Mathlib
import SparsePoly.Roots.Finder

/-!
# What Newton's method certifies

From the guess the method walks along the points `point f df guess k`.  At each of them it either
ends with one of four findings (`Ends`) or takes a finite step that is not short (`GoesOn`), and a
run is a walk of such steps up to the point where it ends or the iterations are used up
(`iterate_cases`).  The walk and the point where it ends determine the result (`Walks.iterate_eq`),
which is why more iterations do not change a result that is there.

`iterateM` is the method as a program that asks for the values of the function and its derivative.
Asked plainly it is the method (`iterateM_id`), and asked with a record it shows where each of the
two is evaluated (`exists_recorded`).
-/

namespace SparsePoly.Newton

open Binary64

variable {n : Newton} {f df : Float → Float} {tolerance guess x r : Float} {k left : ℕ}
  {result : Except Error Float}

/-! ## One step -/

/-- The zero of the tangent in `x`. -/
def step (f df : Float → Float) (x : Float) : Float := x - f x / df x

/-- The method takes another step from the next point. -/
structure GoesOn (tolerance : Float) (f df : Float → Float) (x : Float) : Prop where
  value : (f x == 0.0) = false
  slope : (df x == 0.0) = false
  finite : (step f df x).isFinite = true
  long : ¬ (step f df x - x).abs < tolerance * scaleOf x

/-- The step from `x` leads to `r`, is short, and is the last one. -/
structure LastStep (tolerance : Float) (f df : Float → Float) (x r : Float) : Prop where
  value : (f x == 0.0) = false
  slope : (df x == 0.0) = false
  eq : r = x - f x / df x
  finite : r.isFinite = true
  short : (r - x).abs < tolerance * scaleOf x

/-- What the method may find at `x` so that it does not go on. -/
inductive Ends (n : Newton) (f df : Float → Float) (guess x : Float) : Except Error Float → Prop
  /-- The point is a root. -/
  | root (value : (f x == 0.0) = true) : Ends n f df guess x (.ok x)
  /-- The tangent is flat. -/
  | flat (value : (f x == 0.0) = false) (slope : (df x == 0.0) = true) :
    Ends n f df guess x (.error (.zeroDerivative x))
  /-- The next point is not finite. -/
  | escape (value : (f x == 0.0) = false) (slope : (df x == 0.0) = false)
    (infinite : (step f df x).isFinite = false) :
    Ends n f df guess x (.error (.noConvergence guess n.maxIterations))
  /-- The step is short. -/
  | short {r : Float} (last : LastStep n.tolerance f df x r) : Ends n f df guess x (.ok r)

theorem Ends.iterate_eq (h : Ends n f df guess x result) (left : ℕ) :
    n.iterate f df guess (left + 1) x = result := by
  cases h with
  | root value => simp [iterate, value]
  | flat value slope => simp [iterate, value, slope]
  | escape value slope infinite =>
    unfold step at infinite
    simp [iterate, value, slope, infinite]
  | short last =>
    obtain ⟨value, slope, rfl, finite, short⟩ := last
    simp [iterate, value, slope, finite, short]

theorem GoesOn.iterate_eq (h : GoesOn n.tolerance f df x) (left : ℕ) :
    n.iterate f df guess (left + 1) x = n.iterate f df guess left (step f df x) := by
  obtain ⟨value, slope, finite, long⟩ := h
  unfold step at finite long ⊢
  simp [iterate, value, slope, finite, long]

/-- At each point the method ends or goes on. -/
theorem exists_ends_or_goesOn (n : Newton) (f df : Float → Float) (guess x : Float) :
    (∃ result, Ends n f df guess x result) ∨ GoesOn n.tolerance f df x := by
  cases value : f x == 0.0 with
  | true => exact Or.inl ⟨_, .root value⟩
  | false =>
    cases slope : df x == 0.0 with
    | true => exact Or.inl ⟨_, .flat value slope⟩
    | false =>
      cases finite : (step f df x).isFinite with
      | false => exact Or.inl ⟨_, .escape value slope finite⟩
      | true =>
        by_cases short : (step f df x - x).abs < n.tolerance * scaleOf x
        · exact Or.inl ⟨_, .short ⟨value, slope, rfl, finite, short⟩⟩
        · exact Or.inr ⟨value, slope, finite, short⟩

/-! ## A walk -/

/-- The point after `k` steps. -/
def point (f df : Float → Float) (guess : Float) (k : ℕ) : Float := (step f df)^[k] guess

/-- The method takes `k` steps and does not end on the way. -/
def Walks (tolerance : Float) (f df : Float → Float) (guess : Float) (k : ℕ) : Prop :=
  ∀ j < k, GoesOn tolerance f df (point f df guess j)

@[simp] theorem point_zero (f df : Float → Float) (guess : Float) :
    point f df guess 0 = guess := rfl

theorem walks_zero (tolerance : Float) (f df : Float → Float) (guess : Float) :
    Walks tolerance f df guess 0 := fun _ hj => absurd hj (Nat.not_lt_zero _)

theorem walks_succ_iff : Walks tolerance f df guess (k + 1) ↔
    GoesOn tolerance f df guess ∧ Walks tolerance f df (step f df guess) k := by
  constructor
  · exact fun h => ⟨h 0 k.succ_pos, fun j hj => h (j + 1) (by omega)⟩
  · rintro ⟨hstart, hrest⟩ j hj
    cases j with
    | zero => exact hstart
    | succ j => exact hrest j (by omega)

/-- A walk leads to finite points, the guess apart. -/
theorem Walks.isFinite_point (h : Walks tolerance f df guess k) :
    point f df guess k = guess ∨ (point f df guess k).isFinite = true := by
  cases k with
  | zero => exact Or.inl rfl
  | succ k =>
    right
    rw [point, Function.iterate_succ_apply']
    exact (h k k.lt_succ_self).finite

/-- The walk and what the method finds at its end determine the result. -/
theorem Walks.iterate_eq (h : Walks n.tolerance f df x k)
    (hends : Ends n f df guess (point f df x k) result) (hk : k < left) :
    n.iterate f df guess left x = result := by
  induction k generalizing x left with
  | zero =>
    obtain ⟨left, rfl⟩ := Nat.exists_eq_add_one.2 hk
    exact hends.iterate_eq left
  | succ k ih =>
    obtain ⟨left, rfl⟩ := Nat.exists_eq_add_one.2 (Nat.zero_lt_of_lt hk)
    obtain ⟨hstart, hrest⟩ := walks_succ_iff.1 h
    rw [hstart.iterate_eq]
    exact ih hrest hends (by omega)

/-- A run is a walk that ends within the iterations or uses them up. -/
theorem iterate_cases (n : Newton) (f df : Float → Float) (guess : Float) (left : ℕ) (x : Float) :
    (∃ k < left, Walks n.tolerance f df x k ∧
        Ends n f df guess (point f df x k) (n.iterate f df guess left x)) ∨
      Walks n.tolerance f df x left ∧
        n.iterate f df guess left x = .error (.noConvergence guess n.maxIterations) := by
  induction left generalizing x with
  | zero => exact Or.inr ⟨walks_zero _ _ _ _, rfl⟩
  | succ left ih =>
    rcases exists_ends_or_goesOn n f df guess x with ⟨result, hends⟩ | hon
    · refine Or.inl ⟨0, left.succ_pos, walks_zero _ _ _ _, ?_⟩
      rw [hends.iterate_eq]
      exact hends
    · rw [hon.iterate_eq]
      rcases ih (step f df x) with ⟨k, hk, hwalks, hends⟩ | ⟨hwalks, hfailed⟩
      · exact Or.inl ⟨k + 1, by omega, walks_succ_iff.2 ⟨hon, hwalks⟩, hends⟩
      · exact Or.inr ⟨walks_succ_iff.2 ⟨hon, hwalks⟩, hfailed⟩

/-! ## Results -/

/-- The method finds the roots at the end of a walk, and the points to which the last step is
short. -/
theorem refine_eq_ok_iff : n.refine f df guess = .ok r ↔
    ∃ k < n.maxIterations, Walks n.tolerance f df guess k ∧
      ((f r == 0.0) = true ∧ r = point f df guess k ∨
        LastStep n.tolerance f df (point f df guess k) r) := by
  constructor
  · intro h
    rcases n.iterate_cases f df guess n.maxIterations guess with
      ⟨k, hk, hwalks, hends⟩ | ⟨-, hfailed⟩
    · refine ⟨k, hk, hwalks, ?_⟩
      rw [show n.iterate f df guess n.maxIterations guess = .ok r from h] at hends
      cases hends with
      | root value => exact Or.inl ⟨value, rfl⟩
      | short last => exact Or.inr last
    · cases h.symm.trans hfailed
  · rintro ⟨k, hk, hwalks, ⟨hvalue, rfl⟩ | hlast⟩
    · exact hwalks.iterate_eq (.root hvalue) hk
    · exact hwalks.iterate_eq (.short hlast) hk

/-- The derivative that fails the method is zero at the end of a walk. -/
theorem refine_eq_zeroDerivative_iff : n.refine f df guess = .error (.zeroDerivative x) ↔
    ∃ k < n.maxIterations, Walks n.tolerance f df guess k ∧ x = point f df guess k ∧
      (df x == 0.0) = true ∧ (f x == 0.0) = false := by
  constructor
  · intro h
    rcases n.iterate_cases f df guess n.maxIterations guess with
      ⟨k, hk, hwalks, hends⟩ | ⟨-, hfailed⟩
    · refine ⟨k, hk, hwalks, ?_⟩
      rw [show n.iterate f df guess n.maxIterations guess = .error (.zeroDerivative x) from h]
        at hends
      cases hends with
      | flat value slope => exact ⟨rfl, slope, value⟩
    · cases h.symm.trans hfailed
  · rintro ⟨k, hk, hwalks, rfl, hslope, hvalue⟩
    exact hwalks.iterate_eq (.flat hvalue hslope) hk

/-- There is no other failure than these two. -/
theorem refine_eq_error {e : Error} (h : n.refine f df guess = .error e) :
    (∃ x, e = .zeroDerivative x) ∨ e = .noConvergence guess n.maxIterations := by
  rcases n.iterate_cases f df guess n.maxIterations guess with
    ⟨k, -, -, hends⟩ | ⟨-, hfailed⟩
  · rw [show n.iterate f df guess n.maxIterations guess = .error e from h] at hends
    cases hends with
    | flat => exact Or.inl ⟨_, rfl⟩
    | escape => exact Or.inr rfl
  · exact Or.inr (Except.error.inj (h.symm.trans hfailed))

/-! ## Evaluations -/

/-- Newton's method as a program that asks for the values of the function and of its derivative. -/
def iterateM {m : Type → Type} [Monad m] (n : Newton) (f df : Float → m Float) (guess : Float) :
    (left : ℕ) → (x : Float) → m (Except Error Float)
  | 0, _ => return .error (.noConvergence guess n.maxIterations)
  | left + 1, x => do
    let fx ← f x
    if fx == 0.0 then return .ok x
    else
      let dfx ← df x
      if dfx == 0.0 then return .error (.zeroDerivative x)
      else
        let next := x - fx / dfx
        if !next.isFinite then return .error (.noConvergence guess n.maxIterations)
        else if (next - x).abs < n.tolerance * scaleOf x then return .ok next
        else iterateM n f df guess left next

/-- Without effects the program is the method. -/
theorem iterateM_id (n : Newton) (f df : Float → Float) (guess : Float) (left : ℕ) (x : Float) :
    Id.run (iterateM n (fun x => pure (f x)) (fun x => pure (df x)) guess left x) =
      n.iterate f df guess left x := by
  induction left generalizing x with
  | zero => rfl
  | succ left ih =>
    simp only [iterateM, iterate, pure_bind]
    split_ifs <;> first | rfl | exact ih _

/-- The points at which the function and its derivative have been evaluated, in their order. -/
structure Record where
  /-- The arguments of the function. -/
  values : List Float
  /-- The arguments of the derivative. -/
  slopes : List Float

/-- Evaluates the function and records the point. -/
def askValue (f : Float → Float) (x : Float) : StateM Record Float :=
  modifyGet fun record => (f x, { record with values := record.values ++ [x] })

/-- Evaluates the derivative and records the point. -/
def askSlope (df : Float → Float) (x : Float) : StateM Record Float :=
  modifyGet fun record => (df x, { record with slopes := record.slopes ++ [x] })

@[simp] theorem run_askValue (f : Float → Float) (x : Float) (record : Record) :
    (askValue f x).run record = pure (f x, ⟨record.values ++ [x], record.slopes⟩) := rfl

@[simp] theorem run_askSlope (df : Float → Float) (x : Float) (record : Record) :
    (askSlope df x).run record = pure (df x, ⟨record.values, record.slopes ++ [x]⟩) := rfl

/-- The method with a record of its evaluations. -/
def recorded (n : Newton) (f df : Float → Float) (guess : Float) (left : ℕ) (x : Float)
    (record : Record) : Except Error Float × Record :=
  Id.run ((iterateM n (askValue f) (askSlope df) guess left x).run record)

/-- Where the method ends the function is evaluated once, and the derivative at most once. -/
theorem Ends.recorded (h : Ends n f df guess x result) (left : ℕ) (record : Record) :
    ∃ slopes, slopes <+: [x] ∧ recorded n f df guess (left + 1) x record =
      (result, ⟨record.values ++ [x], record.slopes ++ slopes⟩) := by
  unfold Newton.recorded
  cases h with
  | root value =>
    refine ⟨[], List.nil_prefix, ?_⟩
    simp [iterateM, value]
  | flat value slope =>
    refine ⟨[x], List.prefix_refl _, ?_⟩
    simp [iterateM, value, slope]
  | escape value slope infinite =>
    refine ⟨[x], List.prefix_refl _, ?_⟩
    unfold step at infinite
    simp [iterateM, value, slope, infinite]
  | short last =>
    obtain ⟨value, slope, rfl, finite, short⟩ := last
    refine ⟨[x], List.prefix_refl _, ?_⟩
    simp [iterateM, value, slope, finite, short]

theorem GoesOn.recorded (h : GoesOn n.tolerance f df x) (left : ℕ) (record : Record) :
    recorded n f df guess (left + 1) x record = recorded n f df guess left (step f df x)
      ⟨record.values ++ [x], record.slopes ++ [x]⟩ := by
  obtain ⟨value, slope, finite, long⟩ := h
  unfold Newton.recorded
  unfold step at finite long ⊢
  simp [iterateM, value, slope, finite, long]

/-- The points of a walk are evaluated one after the other, and the derivative at each of them but
perhaps the last one. -/
theorem exists_recorded (n : Newton) (f df : Float → Float) (guess : Float) (left : ℕ)
    (x : Float) (record : Record) :
    ∃ k ≤ left, ∃ slopes, slopes <+: (List.range k).map (point f df x) ∧
      recorded n f df guess left x record = (n.iterate f df guess left x,
        ⟨record.values ++ (List.range k).map (point f df x), record.slopes ++ slopes⟩) := by
  induction left generalizing x record with
  | zero => exact ⟨0, le_rfl, [], List.prefix_refl _, by simp [recorded, iterateM, iterate]⟩
  | succ left ih =>
    rcases exists_ends_or_goesOn n f df guess x with ⟨result, hends⟩ | hon
    · obtain ⟨slopes, hslopes, hrecorded⟩ := hends.recorded left record
      refine ⟨1, by omega, slopes, by simpa using hslopes, ?_⟩
      rw [hrecorded, hends.iterate_eq]
      simp
    · obtain ⟨k, hk, slopes, hslopes, hrecorded⟩ := ih (step f df x)
        ⟨record.values ++ [x], record.slopes ++ [x]⟩
      have hpoints : (List.range (k + 1)).map (point f df x) =
          x :: (List.range k).map (point f df (step f df x)) := by
        rw [List.range_succ_eq_map, List.map_cons, List.map_map]
        rfl
      refine ⟨k + 1, by omega, x :: slopes, ?_, ?_⟩
      · rw [hpoints]
        exact List.cons_prefix_cons.2 ⟨rfl, hslopes⟩
      · rw [hon.recorded, hrecorded, hon.iterate_eq, hpoints]
        simp

/-! ## The certificate -/

/-- What Newton's method says about a function and its derivative.  The root that it gives back is
the guess or a finite point of the walk where the function is zero, or a finite point to which the
last step is short.  The derivative that is zero is so at a point of the walk where the function is
not, and the only other failure names the guess.  The function is evaluated at one point of the walk
after the other, at most once for each iteration, and the derivative not more often.  With more
iterations a root and a zero of the derivative stay what they are. -/
theorem refine_certified (n : Newton) (f df : Float → Float) (guess : Float) :
    (∀ r, n.refine f df guess = .ok r ↔
      ∃ k < n.maxIterations, Walks n.tolerance f df guess k ∧
        ((f r == 0.0) = true ∧ r = point f df guess k ∧ (r = guess ∨ r.isFinite = true) ∨
          LastStep n.tolerance f df (point f df guess k) r)) ∧
    (∀ x, n.refine f df guess = .error (.zeroDerivative x) ↔
      ∃ k < n.maxIterations, Walks n.tolerance f df guess k ∧ x = point f df guess k ∧
        (df x == 0.0) = true ∧ (f x == 0.0) = false) ∧
    (∀ e, n.refine f df guess = .error e →
      (∃ x, e = .zeroDerivative x) ∨ e = .noConvergence guess n.maxIterations) ∧
    Id.run (iterateM n (fun x => pure (f x)) (fun x => pure (df x)) guess n.maxIterations guess) =
      n.refine f df guess ∧
    (∃ values slopes, values.length ≤ n.maxIterations ∧ slopes.length ≤ n.maxIterations ∧
      values = (List.range values.length).map (point f df guess) ∧ slopes <+: values ∧
      recorded n f df guess n.maxIterations guess ⟨[], []⟩ =
        (n.refine f df guess, ⟨values, slopes⟩)) ∧
    ∀ budget ≥ n.maxIterations,
      (∃ r, n.refine f df guess = .ok r) ∨ (∃ x, n.refine f df guess = .error (.zeroDerivative x)) →
        refine ⟨n.tolerance, budget⟩ f df guess = n.refine f df guess := by
  refine ⟨fun r => ?_, fun x => refine_eq_zeroDerivative_iff, fun e => refine_eq_error,
    n.iterateM_id f df guess n.maxIterations guess, ?_, ?_⟩
  · rw [refine_eq_ok_iff]
    refine exists_congr fun k => and_congr_right fun _ => and_congr_right fun hwalks => ?_
    refine or_congr_left (and_congr_right fun _ => ⟨?_, And.left⟩)
    rintro rfl
    exact ⟨rfl, hwalks.isFinite_point⟩
  · obtain ⟨k, hk, slopes, hslopes, hrecorded⟩ :=
      exists_recorded n f df guess n.maxIterations guess ⟨[], []⟩
    have hlength : ((List.range k).map (point f df guess)).length = k := by simp
    refine ⟨(List.range k).map (point f df guess), slopes, hlength.trans_le hk, ?_, ?_, hslopes,
      hrecorded⟩
    · exact hslopes.length_le.trans (hlength.trans_le hk)
    · rw [hlength]
  · intro budget hbudget hresult
    rcases hresult with ⟨r, hr⟩ | ⟨x, hx⟩
    · obtain ⟨k, hk, hcertified⟩ := refine_eq_ok_iff.1 hr
      rw [hr]
      exact refine_eq_ok_iff.2 ⟨k, hk.trans_le hbudget, hcertified⟩
    · obtain ⟨k, hk, hcertified⟩ := refine_eq_zeroDerivative_iff.1 hx
      rw [hx]
      exact refine_eq_zeroDerivative_iff.2 ⟨k, hk.trans_le hbudget, hcertified⟩

/-- From `1` the second step towards the double root of `x ^ 2` is the last one, and in the minimum
of `x ^ 2 + 1` the derivative is zero. -/
theorem refine_certified_square :
    let square : Float → Float := fun x => x * x
    let df : Float → Float := fun x => 2.0 * x
    (LastStep 0.375 square df (point square df 1.0 1) 0.25 ∧
      refine ⟨0.375, 2⟩ square df 1.0 = .ok 0.25 ∧
      refine ⟨0.375, 1000⟩ square df 1.0 = .ok 0.25) ∧
    refine ⟨0.375, 1000⟩ (fun x => square x + 1.0) df 0.0 = .error (.zeroDerivative 0.0) := by
  intro square df
  constructor
  · obtain ⟨hok, -, -, -, -, hmore⟩ := refine_certified ⟨0.375, 2⟩ square df 1.0
    have hlast : LastStep 0.375 square df (point square df 1.0 1) 0.25 :=
      ⟨by decide, by decide, by decide, by decide, by decide⟩
    have hwalks : Walks 0.375 square df 1.0 1 :=
      walks_succ_iff.2 ⟨⟨by decide, by decide, by decide, by decide⟩, walks_zero _ _ _ _⟩
    have hr := (hok 0.25).2 ⟨1, by decide, hwalks, Or.inr hlast⟩
    exact ⟨hlast, hr, (hmore 1000 (by decide) (Or.inl ⟨_, hr⟩)).trans hr⟩
  · obtain ⟨-, hzero, -⟩ := refine_certified ⟨0.375, 1000⟩ (fun x => square x + 1.0) df 0.0
    exact (hzero 0.0).2 ⟨0, by decide, walks_zero _ _ _ _, rfl, by decide, by decide⟩

end SparsePoly.Newton
