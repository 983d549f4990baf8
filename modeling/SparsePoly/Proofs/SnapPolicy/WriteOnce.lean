import Mathlib
import SparsePoly.InEffect

/-!
# The policy in effect over a whole run

Each call of the library ignores the policy in effect, reads it or installs one (`Call.effect`).
The first call of a run that does not ignore it decides which policy is in effect from then on
(`stateAfter_eq`), so that the policy is written once (`SnapPolicy.writeOnce`).
-/

namespace SparsePoly

/-! ## Calls -/

/-- A call of the library, by the type of its answer. -/
inductive Call : Type → Type 1
  | install (policy : SnapPolicy) : Call Unit
  | current : Call SnapPolicy
  | fromEnvironment : Call SnapPolicy
  | multiply (p q : Poly) : Call Poly
  | divide (p d : Poly) : Call Division
  | fromRoots (roots : List Float) : Call Poly
  | linearRoots (p : Poly) : Call (List Float)
  | quadraticRoots (p : Poly) : Call (List Float)
  | cubicRoots (p : Poly) : Call (List Float)
  | quarticRoots (p : Poly) : Call (List Float)
  | rootFinder (refine : Refiner) : Call RootFinder
  /-- The product under a given policy. -/
  | multiplyWith (policy : SnapPolicy) (p q : Poly) : Call Poly
  /-- Long division under a given policy. -/
  | divideWith (policy : SnapPolicy) (p d : Poly) : Call Division
  | productOf (p q : Operand) : Call Poly
  | divisionOf (p q : Operand) : Call Division
  | quotientOf (p q : Operand) : Call Poly
  | remainderOf (p q : Operand) : Call Poly
  | rootsOf (p : Operand) : Call (List Float)
  | rootsFrom (p : Operand) (guesses : List Float) : Call (List Float)
  | criticalPoints (p : Operand) : Call (List Float)
  | localMaxima (p : Operand) (lower upper : Option Float) : Call (List Float)
  | localMinima (p : Operand) (lower upper : Option Float) : Call (List Float)
  | inflectionPoints (p : Operand) : Call (List Float)
  /-- Any operation without access to the state of the process. -/
  | other {α : Type} (answer : Except Error α) : Call α

/-- What a call does about the policy in effect. -/
inductive Effect (α : Type)
  /-- The answer depends on the environment at most. -/
  | ignores (answer : Option String → Except Error α)
  /-- A policy is in effect afterwards, and the answer depends on it. -/
  | reads (answer : SnapPolicy → Except Error α)
  /-- A policy is put in effect unless there is one. -/
  | installs (policy : SnapPolicy) (answer : α)

/-- The policy that is in effect as soon as one is needed. -/
def PolicyState.policy (s : PolicyState) : SnapPolicy :=
  s.inEffect.getD (.ofVariable s.setting)

variable {α β : Type}

namespace Effect

/-- The answer in a state, and the state afterwards. -/
def run : Effect α → PolicyState → Except Error α × PolicyState
  | ignores answer, s => (answer s.setting, s)
  | reads answer, s => (answer s.policy, { s with inEffect := some s.policy })
  | installs policy answer, s =>
    if s.inEffect.isSome then (.error .policyInEffect, s)
    else (.ok answer, { s with inEffect := some policy })

/-- What follows once an operand has been read. -/
def after (x : Except Error β) (next : β → Effect α) : Effect α :=
  match x with
  | .ok b => next b
  | .error e => .ignores fun _ => .error e

/-- The effect of a call whose answer is computed from that of another one. -/
def map (f : β → α) : Effect β → Effect α
  | ignores answer => ignores fun setting => f <$> answer setting
  | reads answer => reads fun policy => f <$> answer policy
  | installs policy answer => installs policy (f answer)

/-- Whether a policy is in effect afterwards in any case. -/
def decides : Effect α → Bool
  | ignores _ => false
  | reads _ | installs _ _ => true

/-- The policy that the call puts in effect if there is none. -/
def chosen (setting : Option String) : Effect α → Option SnapPolicy
  | ignores _ => none
  | reads _ => some (.ofVariable setting)
  | installs policy _ => some policy

theorem chosen_eq_none_iff {setting : Option String} {e : Effect α} :
    e.chosen setting = none ↔ e.decides = false := by
  cases e <;> simp [chosen, decides]

theorem run_snd (e : Effect α) (s : PolicyState) :
    (e.run s).2 = { s with inEffect := s.inEffect.or (e.chosen s.setting) } := by
  obtain ⟨setting, inEffect⟩ := s
  cases inEffect <;> cases e <;> rfl

end Effect

namespace Call

/-- The computation that a call is. -/
def run : Call α → Run α
  | install policy => policy.install
  | current => SnapPolicy.current
  | fromEnvironment => SnapPolicy.fromEnvironment
  | multiply p q => InEffect.multiply p q
  | divide p d => InEffect.divide p d
  | fromRoots roots => InEffect.fromRoots roots
  | linearRoots p => InEffect.linearRoots p
  | quadraticRoots p => InEffect.quadraticRoots p
  | cubicRoots p => InEffect.cubicRoots p
  | quarticRoots p => InEffect.quarticRoots p
  | rootFinder refine => InEffect.rootFinder refine
  | multiplyWith policy p q => p.multiply policy q
  | divideWith policy p d => p.divide policy d
  | productOf p q => p.multiply q
  | divisionOf p q => p.divRem q
  | quotientOf p q => p.divide q
  | remainderOf p q => p.modulo q
  | rootsOf p => p.roots
  | rootsFrom p guesses => p.rootsFrom guesses
  | criticalPoints p => p.criticalPoints
  | localMaxima p lower upper => p.localMaxima lower upper
  | localMinima p lower upper => p.localMinima lower upper
  | inflectionPoints p => p.inflectionPoints
  | other answer => answer

/-- The answer of a call in a state, and the state afterwards. -/
def perform (c : Call α) (s : PolicyState) : Except Error α × PolicyState := c.run.run s

/-- The root finder that serves under a policy. -/
def standardFinder (policy : SnapPolicy) : RootFinder := ⟨Newton.standard.refine, policy, .system⟩

/-- What each call does about the policy in effect. -/
def effect : Call α → Effect α
  | install policy => .installs policy ()
  | current => .reads .ok
  | fromEnvironment => .ignores fun setting => .ok (.ofVariable setting)
  | multiply p q => .reads fun policy => p.multiply policy q
  | divide p d => .reads fun policy => p.divide policy d
  | fromRoots [] => .ignores fun _ => .ok .one
  | fromRoots (root :: roots) => .reads fun policy => Poly.fromRoots policy (root :: roots)
  | linearRoots p => .reads fun policy => p.linearRoots policy
  | quadraticRoots p => .reads fun policy => p.quadraticRoots policy
  | cubicRoots p => .reads fun policy => p.cubicRoots .system policy
  | quarticRoots p => .reads fun policy => p.quarticRoots .system policy
  | rootFinder refine => .reads fun policy => .ok ⟨refine, policy, .system⟩
  | multiplyWith policy p q => .ignores fun _ => p.multiply policy q
  | divideWith policy p d => .ignores fun _ => p.divide policy d
  | productOf p q =>
    .after p.resolve fun p => .after q.resolve fun q => .reads fun policy => p.multiply policy q
  | divisionOf p q =>
    .after p.resolve fun p => .after q.resolve fun q => .reads fun policy => p.divide policy q
  | quotientOf p q =>
    .map Division.quotient <| .after p.resolve fun p => .after q.resolve fun q =>
      .reads fun policy => p.divide policy q
  | remainderOf p q =>
    .map Division.remainder <| .after p.resolve fun p => .after q.resolve fun q =>
      .reads fun policy => p.divide policy q
  | rootsOf p => .after p.resolve fun p => .reads fun policy => (standardFinder policy).roots p
  | rootsFrom p guesses =>
    .after p.resolve fun p => .reads fun policy => (standardFinder policy).rootsFrom p guesses
  | criticalPoints p =>
    .after p.resolve fun p => .reads fun policy => (standardFinder policy).criticalPoints p
  | localMaxima p lower upper =>
    .after p.resolve fun p => .after p.derivative fun slope =>
      .reads fun policy => (standardFinder policy).maxima slope lower upper
  | localMinima p lower upper =>
    .after p.resolve fun p => .after p.derivative fun slope =>
      .reads fun policy => (standardFinder policy).minima slope lower upper
  | inflectionPoints p =>
    .after p.resolve fun p => .after (p.nthDerivative 2) fun bend =>
      .reads fun policy => (standardFinder policy).inflections bend
  | other answer => .ignores fun _ => answer

end Call

/-! ## One call -/

theorem run_bind (m : Run β) (k : β → Run α) (s : PolicyState) : (m >>= k).run s =
    match m.run s with
    | (.ok b, s') => (k b).run s'
    | (.error e, s') => (.error e, s') := by
  show (ExceptT.bindCont k (m s).1 : StateM PolicyState (Except Error α)) (m s).2 = _
  rcases h : m s with ⟨e | b, s'⟩
  · have : m.run s = (.error e, s') := h
    rw [this]
    rfl
  · have : m.run s = (.ok b, s') := h
    rw [this]
    rfl

/-- The computation has the effect, whatever the state is. -/
def Follows (m : Run α) (e : Effect α) : Prop := ∀ s, m.run s = e.run s

namespace Follows

theorem ignores (x : Except Error α) : Follows x (.ignores fun _ => x) := fun _ => rfl

theorem current : Follows SnapPolicy.current (.reads .ok) := by
  intro s
  obtain ⟨setting, inEffect⟩ := s
  cases inEffect <;> rfl

/-- A computation that goes on from an answer without access to the state. -/
theorem reads {m : Run β} {g : SnapPolicy → Except Error β} (h : Follows m (.reads g))
    (f : β → Except Error α) :
    Follows (do f (← m)) (.reads fun policy => do f (← g policy)) := by
  intro s
  rw [run_bind, h s, Effect.run, Effect.run]
  cases g s.policy <;> rfl

/-- What is computed with the policy in effect. -/
theorem underPolicy (f : SnapPolicy → Except Error α) :
    Follows (do f (← SnapPolicy.current)) (.reads f) := current.reads f

theorem after {x : Except Error β} {m : β → Run α} {e : β → Effect α}
    (h : ∀ b, Follows (m b) (e b)) : Follows (do m (← x)) (.after x e) := by
  cases x with
  | error e => exact fun s => rfl
  | ok b => exact h b

theorem map {m : Run β} {e : Effect β} (h : Follows m e) (f : β → α) :
    Follows (do return f (← m)) (e.map f) := by
  intro s
  rw [run_bind, h s]
  cases e with
  | ignores answer =>
    simp only [Effect.map, Effect.run]
    cases answer s.setting <;> rfl
  | reads answer =>
    simp only [Effect.map, Effect.run]
    cases answer s.policy <;> rfl
  | installs policy answer =>
    simp only [Effect.map, Effect.run]
    split_ifs <;> rfl

theorem install (policy : SnapPolicy) : Follows policy.install (.installs policy ()) := by
  intro s
  obtain ⟨setting, inEffect⟩ := s
  cases inEffect <;> rfl

theorem multiply (p q : Poly) : Follows (InEffect.multiply p q)
    (.reads fun policy => p.multiply policy q) :=
  underPolicy fun policy => p.multiply policy q

theorem fromRoots : ∀ roots, Follows (InEffect.fromRoots roots) (Call.fromRoots roots).effect
  | [] => fun _ => rfl
  | root :: roots => underPolicy fun policy => Poly.fromRoots policy (root :: roots)

theorem rootFinder (refine : Refiner) : Follows (InEffect.rootFinder refine)
    (.reads fun policy => .ok ⟨refine, policy, .system⟩) :=
  underPolicy fun policy => .ok (⟨refine, policy, .system⟩ : RootFinder)

theorem divisionOf (p q : Operand) : Follows (p.divRem q) (Call.divisionOf p q).effect :=
  after fun p => after fun q => underPolicy fun policy => p.divide policy q

/-- What the standard root finder computes. -/
theorem finder (f : RootFinder → Except Error α) : Follows (do f (← InEffect.standardFinder))
    (.reads fun policy => f (Call.standardFinder policy)) :=
  (rootFinder Newton.standard.refine).reads f

end Follows

/-- Every call has the effect that is listed for it. -/
theorem Call.follows (c : Call α) : Follows c.run c.effect := by
  cases c with
  | install policy => exact .install policy
  | current => exact .current
  | fromEnvironment => exact fun _ => rfl
  | multiply p q => exact .multiply p q
  | divide p d => exact .underPolicy fun policy => p.divide policy d
  | fromRoots roots => exact .fromRoots roots
  | linearRoots p => exact .underPolicy fun policy => p.linearRoots policy
  | quadraticRoots p => exact .underPolicy fun policy => p.quadraticRoots policy
  | cubicRoots p => exact .underPolicy fun policy => p.cubicRoots .system policy
  | quarticRoots p => exact .underPolicy fun policy => p.quarticRoots .system policy
  | rootFinder refine => exact .rootFinder refine
  | multiplyWith policy p q => exact .ignores _
  | divideWith policy p d => exact .ignores _
  | productOf p q =>
    exact .after fun p => .after fun q => .multiply p q
  | divisionOf p q => exact .divisionOf p q
  | quotientOf p q => exact (Follows.divisionOf p q).map _
  | remainderOf p q => exact (Follows.divisionOf p q).map _
  | rootsOf p => exact .after fun p => .finder fun finder => finder.roots p
  | rootsFrom p guesses => exact .after fun p => .finder fun finder => finder.rootsFrom p guesses
  | criticalPoints p => exact .after fun p => .finder fun finder => finder.criticalPoints p
  | localMaxima p lower upper =>
    exact .after fun p => .after fun slope => .finder fun finder => finder.maxima slope lower upper
  | localMinima p lower upper =>
    exact .after fun p => .after fun slope => .finder fun finder => finder.minima slope lower upper
  | inflectionPoints p =>
    exact .after fun p => .after fun bend => .finder fun finder => finder.inflections bend
  | other answer => exact .ignores answer

theorem Call.perform_eq (c : Call α) (s : PolicyState) : c.perform s = c.effect.run s := c.follows s

/-! ## Installations -/

theorem Effect.after_ne_installs {x : Except Error β} {next : β → Effect α} {policy : SnapPolicy}
    {answer : α} (h : ∀ b, next b ≠ .installs policy answer) :
    after x next ≠ .installs policy answer := by
  cases x with
  | ok b => exact h b
  | error e => exact fun h => by cases h

theorem Effect.map_ne_installs {f : β → α} {e : Effect β} {policy : SnapPolicy}
    (h : ∀ b, e ≠ .installs policy b) (answer : α) : e.map f ≠ .installs policy answer := by
  cases e with
  | installs policy' b =>
    intro heq
    cases heq
    exact h b rfl
  | _ => exact fun h => by cases h

/-- Only an installation installs. -/
theorem Call.eq_install {c : Call α} {policy : SnapPolicy} {answer : α}
    (h : c.effect = .installs policy answer) : (⟨α, c⟩ : Σ α, Call α) = ⟨Unit, install policy⟩ := by
  have reads {β γ : Type} {x : Except Error γ} {next : γ → SnapPolicy → Except Error β} (b : β) :
      Effect.after x (fun y => .reads (next y)) ≠ .installs policy b :=
    Effect.after_ne_installs fun _ h => by cases h
  have readsTwice {β γ δ : Type} {x : Except Error γ} {y : γ → Except Error δ}
      {next : γ → δ → SnapPolicy → Except Error β} (b : β) :
      Effect.after x (fun z => .after (y z) fun w => .reads (next z w)) ≠ .installs policy b :=
    Effect.after_ne_installs fun _ => reads b
  cases c with
  | install policy' =>
    cases h
    rfl
  | fromRoots roots => cases roots <;> cases h
  | productOf | divisionOf | localMaxima | localMinima | inflectionPoints =>
    exact absurd h (readsTwice _)
  | quotientOf | remainderOf => exact absurd h (Effect.map_ne_installs readsTwice _)
  | rootsOf | rootsFrom | criticalPoints => exact absurd h (reads _)
  | _ => cases h

/-! ## Products over a list of roots -/

/-- Once a policy is in effect, every product of the fold is computed with it. -/
theorem foldlM_multiply (policy : SnapPolicy) (setting : Option String) (roots : List Float)
    (p : Poly) : (roots.foldlM (fun p root => InEffect.multiply p (Poly.rootFactor root)) p).run
      ⟨setting, some policy⟩ =
        (roots.foldlM (fun p root => p.multiply policy (Poly.rootFactor root)) p,
          ⟨setting, some policy⟩) := by
  induction roots generalizing p with
  | nil => rfl
  | cons root roots ih =>
    rw [List.foldlM_cons, List.foldlM_cons, run_bind, Follows.multiply, Effect.run]
    simp only [PolicyState.policy, Option.getD_some]
    cases p.multiply policy (Poly.rootFactor root) with
    | ok q => exact ih q
    | error e => rfl

/-- The product over a list of roots may as well look for the policy in effect at each factor. -/
theorem fromRoots_eq_foldlM (roots : List Float) (s : PolicyState) :
    (InEffect.fromRoots roots).run s =
      (roots.foldlM (fun p root => InEffect.multiply p (Poly.rootFactor root)) Poly.one).run s := by
  rw [Follows.fromRoots roots s]
  cases roots with
  | nil => rfl
  | cons root roots =>
    rw [List.foldlM_cons, run_bind, Follows.multiply, Call.effect, Effect.run, Effect.run,
      Poly.fromRoots, List.foldlM_cons]
    cases Poly.one.multiply s.policy (Poly.rootFactor root) with
    | ok q => exact (foldlM_multiply s.policy s.setting roots q).symm
    | error e => rfl

/-! ## Runs -/

/-- A call with an answer of any type. -/
abbrev AnyCall := Σ α : Type, Call α

/-- The state of a process after a list of calls. -/
def stateAfter (setting : Option String) (calls : List AnyCall) : PolicyState :=
  calls.foldl (fun s c => (c.2.perform s).2) (.fresh setting)

/-- The call at position `i` of a run installs a policy, and succeeds. -/
structure Installed (setting : Option String) (calls : List AnyCall) (i : ℕ)
    (policy : SnapPolicy) : Prop where
  call : calls[i]? = some ⟨Unit, .install policy⟩
  answer : ((Call.install policy).perform (stateAfter setting (calls.take i))).1 = .ok ()

/-- The first call of a list that does not ignore the policy in effect chooses it. -/
def chosenBy (setting : Option String) (calls : List AnyCall) : Option SnapPolicy :=
  calls.findSome? fun c => c.2.effect.chosen setting

variable {setting : Option String} {calls : List AnyCall} {i j : ℕ} {policy : SnapPolicy}

theorem foldl_perform (calls : List AnyCall) (s : PolicyState) :
    calls.foldl (fun s c => (c.2.perform s).2) s =
      { s with inEffect := s.inEffect.or (chosenBy s.setting calls) } := by
  induction calls generalizing s with
  | nil => simp [chosenBy]
  | cons c calls ih =>
    rw [List.foldl_cons, Call.perform_eq, Effect.run_snd, ih]
    simp only [chosenBy, List.findSome?_cons, Option.or_assoc]
    cases c.2.effect.chosen s.setting <;> rfl

theorem stateAfter_eq (setting : Option String) (calls : List AnyCall) :
    stateAfter setting calls = ⟨setting, chosenBy setting calls⟩ := by
  rw [stateAfter, foldl_perform]
  rfl

theorem chosenBy_eq_none_iff :
    chosenBy setting calls = none ↔ ∀ c ∈ calls, c.2.effect.decides = false := by
  rw [chosenBy, List.findSome?_eq_none_iff]
  exact forall₂_congr fun c _ => Effect.chosen_eq_none_iff

/-- What has been chosen stays. -/
theorem chosenBy_take_mono (hij : i ≤ j) (h : chosenBy setting (calls.take i) = some policy) :
    chosenBy setting (calls.take j) = some policy := by
  have hsplit : calls.take j = calls.take i ++ (calls.take j).drop i := by
    conv_lhs => rw [← List.take_append_drop i (calls.take j)]
    rw [List.take_take, min_eq_left hij]
  rw [hsplit, chosenBy, List.findSome?_append, ← chosenBy, h]
  rfl

theorem installed_iff (hc : calls[i]? = some ⟨Unit, .install policy⟩) :
    Installed setting calls i policy ↔ chosenBy setting (calls.take i) = none := by
  have hanswer : ((Call.install policy).perform (stateAfter setting (calls.take i))).1 = .ok () ↔
      chosenBy setting (calls.take i) = none := by
    rw [Call.perform_eq, stateAfter_eq]
    cases chosenBy setting (calls.take i) <;> simp [Call.effect, Effect.run]
  exact ⟨fun h => hanswer.1 h.answer, fun h => ⟨hc, hanswer.2 h⟩⟩

theorem Installed.chosen (h : Installed setting calls i policy) :
    chosenBy setting (calls.take (i + 1)) = some policy := by
  have hbefore := (installed_iff h.call).1 h
  rw [chosenBy] at hbefore
  rw [List.take_add_one, h.call, chosenBy, List.findSome?_append, hbefore]
  rfl

theorem Installed.le (hi : Installed setting calls i policy) {policy' : SnapPolicy}
    (hj : Installed setting calls j policy') : j ≤ i := by
  by_contra hlt
  have := chosenBy_take_mono (Nat.succ_le_of_lt (not_le.1 hlt)) hi.chosen
  rw [(installed_iff hj.call).1 hj] at this
  cases this

/-- No call but the one that chooses the policy is an installation that succeeds. -/
theorem Installed.eq_length {before rest : List AnyCall} {c : AnyCall} {policy' : SnapPolicy}
    (h : Installed setting (before ++ c :: rest) i policy')
    (hbefore : chosenBy setting before = none)
    (hc : c.2.effect.chosen setting = some policy) : i = before.length := by
  have htake : (before ++ c :: rest).take before.length = before := List.take_left
  have htake' : (before ++ c :: rest).take (before.length + 1) = before ++ [c] := by
    rw [List.take_add_one, htake, List.getElem?_append_right le_rfl, Nat.sub_self]
    rfl
  have hchosen : chosenBy setting (before ++ [c]) = some policy := by
    rw [chosenBy, List.findSome?_append, ← chosenBy, hbefore]
    simp [hc]
  rcases lt_trichotomy i before.length with hlt | heq | hlt
  · -- the installation would have chosen its own policy
    rw [← htake, chosenBy_take_mono hlt h.chosen] at hbefore
    cases hbefore
  · exact heq
  · -- the policy was in effect before the installation
    rw [← htake'] at hchosen
    have := chosenBy_take_mono hlt hchosen
    rw [(installed_iff h.call).1 h] at this
    cases this

/-- The policy in effect is the one that was installed, or else the one of the environment. -/
theorem installed_or_ofVariable (h : chosenBy setting calls = some policy) :
    (∃ i, Installed setting calls i policy) ∨
      policy = .ofVariable setting ∧ ∀ i policy', ¬ Installed setting calls i policy' := by
  rw [chosenBy, List.findSome?_eq_some_iff] at h
  obtain ⟨before, c, rest, rfl, hc, hbefore⟩ := h
  have hnone : chosenBy setting before = none := List.findSome?_eq_none_iff.2 hbefore
  have hget : (before ++ c :: rest)[before.length]? = some c := by simp
  cases he : c.2.effect with
  | ignores answer =>
    rw [he] at hc
    cases hc
  | installs policy' answer =>
    rw [he] at hc
    cases hc
    have hinstall : c = ⟨Unit, .install policy⟩ := Call.eq_install he
    refine Or.inl ⟨before.length, (installed_iff ?_).2 ?_⟩
    · rw [hget, hinstall]
    · rw [List.take_left, hnone]
  | reads answer =>
    have hpolicy : policy = .ofVariable setting := by
      rw [he] at hc
      exact (Option.some.inj hc).symm
    refine Or.inr ⟨hpolicy, fun i policy' hi => ?_⟩
    have hcall := hi.call
    rw [hi.eq_length hnone hc, hget] at hcall
    cases hcall
    cases he

/-- The policy of a process is written once.  An installation succeeds exactly if every call before
it ignores the policy in effect, so at most one does.  A policy in effect stays: later installations
fail and later calls that read it are answered under it, and neither changes the state.  It is the
one that was installed, or else the one of the environment, and its distance is finite and not
negative.  What the calls do about the policy is listed by their effects. -/
theorem SnapPolicy.writeOnce (setting : Option String) (calls : List AnyCall) :
    (∀ (α : Type) (c : Call α) s, c.perform s = c.effect.run s) ∧
    (∀ i policy, calls[i]? = some ⟨Unit, .install policy⟩ →
      (Installed setting calls i policy ↔ ∀ c ∈ calls.take i, c.2.effect.decides = false)) ∧
    (∀ i j policy policy', Installed setting calls i policy → Installed setting calls j policy' →
      i = j) ∧
    (∀ i policy, (stateAfter setting (calls.take i)).inEffect = some policy → ∀ j, i ≤ j →
      let s := stateAfter setting (calls.take j)
      s.inEffect = some policy ∧
      (∀ policy', (Call.install policy').perform s = (.error .policyInEffect, s)) ∧
      ∀ (α : Type) (c : Call α) answer, c.effect = .reads answer →
        c.perform s = (answer policy, s)) ∧
    ((stateAfter setting calls).inEffect = none ↔ ∀ c ∈ calls, c.2.effect.decides = false) ∧
    ∀ policy, (stateAfter setting calls).inEffect = some policy →
      ((∃ i, Installed setting calls i policy) ∨
        policy = .ofVariable setting ∧ ∀ i policy', ¬ Installed setting calls i policy') ∧
      policy.epsilon.isFinite = true ∧ ¬ policy.epsilon < 0.0 := by
  simp only [stateAfter_eq]
  refine ⟨fun α c s => c.perform_eq s, fun i policy hc => ?_, fun i j policy policy' hi hj => ?_,
    fun i policy h j hij => ?_, chosenBy_eq_none_iff, fun policy h => ?_⟩
  · rw [installed_iff hc, chosenBy_eq_none_iff]
  · exact le_antisymm (hj.le hi) (hi.le hj)
  · have hj := chosenBy_take_mono hij h
    refine ⟨hj, fun policy' => ?_, fun α c answer hc => ?_⟩
    · rw [Call.perform_eq, hj]
      rfl
    · rw [Call.perform_eq, hc, hj]
      rfl
  · exact ⟨installed_or_ofVariable h, policy.finite, policy.nonneg⟩

end SparsePoly
