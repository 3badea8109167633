import TrustSimplex.Event

/-!
# Observers

An observer is shown one thing after another and may answer each with an action. Its memory is a
value that it is handed and hands on. `StopRule` names the observers that end a run at a target or
at a counted event.
-/

namespace TrustSimplex

/-- An observer of events `ε` that answers with actions `A` and remembers a `σ`. -/
structure Observer (ε A σ : Type) where
  observe : σ → ε → Option A × σ

namespace Observer

def silent {ε A : Type} : Observer ε A Unit := ⟨fun _ _ => (none, ())⟩

def ofFunction {ε A : Type} (answer : ε → Option A) : Observer ε A Unit :=
  ⟨fun _ e => (answer e, ())⟩

end Observer

/-! ## Stopping at a target or at a count -/

inductive EventName where
  | probe (kind : Probe)
  | penaltyIncreased
  | radiusReduced
  | finished
deriving DecidableEq

def EventName.text : EventName → String
  | .probe kind => kind.name
  | .penaltyIncreased => "PenaltyIncreased"
  | .radiusReduced => "RadiusReduced"
  | .finished => "Finished"

def Event.name {α I O : Type} {n : Nat} : Event α I O n → EventName
  | .evaluated _ kind _ _ => .probe kind
  | .penaltyIncreased _ => .penaltyIncreased
  | .radiusReduced .. => .radiusReduced
  | .finished .. => .finished

inductive StopRule (α : Type) where
  /-- Stop at a point no worse than `objective` and violated by no more than `tolerance`. -/
  | target (objective tolerance : α)
  /-- Stop at the first event with a point after this many evaluations. -/
  | evaluation (count : Nat)
  /-- Stop at the event of this name with this number, from one. -/
  | occurrence (name : EventName) (number : Nat)

def Event.meets {α I O : Type} [Scalar α] {n : Nat} (e : Event α I O n)
    (objective tolerance : α) : Bool :=
  match e.point? with
  | none => false
  | some p => p.maxViolation ≤ tolerance && p.objective ≤ objective

namespace StopRule

variable {α I O : Type} [Scalar α] {n : Nat}

def asks (rule : StopRule α) (number : Nat) (e : Event α I O n) : Bool :=
  match rule with
  | target objective tolerance => e.meets objective tolerance
  | evaluation count => e.evals? == some count && e.point?.isSome
  | occurrence name k => e.name == name && number == k

def observer (rule : StopRule α) : Observer (Event α I O n) Action (List EventName) :=
  ⟨fun seen e =>
    let seen := e.name :: seen
    (if rule.asks (seen.count e.name) e then some .stopEarly else none, seen)⟩

end StopRule

end TrustSimplex
