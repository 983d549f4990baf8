import SparsePoly.Error

/-!
# Snapping to integers

Products and roots carry rounding errors.  A snap policy replaces a result by the nearest integer
when the two are closer than the policy's distance.

A process has at most one snap policy.  It is the first one that is installed or, if the policy is
needed before that, the one that the environment sets.  Once a policy is in effect it stays.
-/

namespace SparsePoly

/-! ## Policies -/

/-- How close to an integer a result counts as that integer. -/
structure SnapPolicy where
  /-- The distance; zero never snaps. -/
  epsilon : Float
  /-- The distance is finite. -/
  finite : epsilon.isFinite = true
  /-- The distance is not negative. -/
  nonneg : ¬ epsilon < 0.0
  deriving DecidableEq

namespace SnapPolicy

/-- The policy with the given distance. -/
def ofEpsilon (epsilon : Float) : Except Error SnapPolicy :=
  if h : epsilon.isFinite = true ∧ ¬ epsilon < 0.0 then .ok ⟨epsilon, h.1, h.2⟩
  else .error (.invalidEpsilon epsilon)

/-- The policy that never snaps. -/
def disabled : SnapPolicy := ⟨0.0, by decide, by decide⟩

/-- The policy of a process that does not choose one. -/
def standard : SnapPolicy := ⟨1e-4, by decide, by decide⟩

/-- The nearest integer if it is closer than the distance, else the value itself. -/
def snap (policy : SnapPolicy) (v : Float) : Float :=
  let nearest := Binary64.roundHalfAway v
  if (nearest - v).abs < policy.epsilon then nearest else v

/-- Snaps every value of a list. -/
def snapAll (policy : SnapPolicy) (vs : List Float) : List Float := vs.map policy.snap

/-- The policy whose distance a text writes, blanks around it apart. -/
def parse? (s : String) : Option SnapPolicy := do
  let epsilon ← Decimal.readNumeral? (Text.trim s.toList)
  (ofEpsilon epsilon).toOption

/-- The policy that an environment variable sets; the standard one if it is unset or invalid. -/
def ofVariable (value : Option String) : SnapPolicy := (value.bind parse?).getD standard

end SnapPolicy

/-! ## The policy in effect -/

/-- What a process knows about its snap policy. -/
structure PolicyState where
  /-- The value of the environment variable for the distance, if it is set. -/
  setting : Option String
  /-- The policy in effect, if there is one. -/
  inEffect : Option SnapPolicy
  deriving DecidableEq

/-- A process at its start. -/
def PolicyState.fresh (setting : Option String) : PolicyState := ⟨setting, none⟩

/-- A computation that may need or install the policy.  An error keeps what was put in effect. -/
abbrev Run := ExceptT Error (StateM PolicyState)

namespace SnapPolicy

/-- The policy that the environment sets, whatever is in effect. -/
def fromEnvironment : Run SnapPolicy := do
  return ofVariable (← get).setting

/-- The policy in effect; without one, the policy of the environment takes effect. -/
def current : Run SnapPolicy := do
  let state ← get
  match state.inEffect with
  | some policy => return policy
  | none =>
    let policy := ofVariable state.setting
    set { state with inEffect := some policy }
    return policy

/-- Puts a policy in effect unless there is one. -/
def install (policy : SnapPolicy) : Run Unit := do
  let state ← get
  match state.inEffect with
  | some _ => throw .policyInEffect
  | none => set { state with inEffect := some policy }

end SnapPolicy

end SparsePoly
