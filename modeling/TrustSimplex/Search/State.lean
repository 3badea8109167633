import TrustSimplex.Config
import TrustSimplex.Observer
import TrustSimplex.Simplex.Geometry
import TrustSimplex.Simplex.Merit

/-!
# The state of a run

A search is what a run is given and does not change. What changes is the state, the simplex with the
radius and the penalty, and a ledger of what was evaluated and shown. A failure is a phase in which
nothing happens any more, so that the ledger outlives it.
-/

namespace TrustSimplex

inductive Failure (α ε : Type) (n : Nat) where
  | invalidConfig (cause : ConfigError)
  | evaluation (cause : EvalError ε)
  /-- The objective or a constraint at `x` was no number. -/
  | nonFinite (x : Vector α n) (objective : α)

structure Search (α I O ε σ : Type) [Scalar α] (n m : Nat) where
  model : Model I O ε
  problem : Problem α I O ε n m
  config : Config α
  observer : Observer (Event α I O n) Action σ

inductive Entry (α I O : Type) (n : Nat) where
  | attempted (x : Vector α n)
  | shown (event : Event α I O n) (answer : Option Action)
  | inaccurate (error : α) (evals : Nat)

structure Ledger (α I O σ : Type) (n : Nat) where
  evals : Nat
  memory : σ
  entries : List (Entry α I O n)

/-- The state between two phases. `repairArmed` lets the next selection repair the simplex, and
`acceptable` is what the last selection found of its shape. -/
structure State (α I O σ : Type) (n m : Nat) where
  ledger : Ledger α I O σ n
  simplex : Simplex α (Snapshot I O) n m
  radius : α
  penalty : α
  repairArmed : Bool
  acceptable : Bool

inductive Phase (α ε : Type) (n : Nat) where
  | selectBest
  | shrinkRadius
  | finish (status : Status)
  | failed (cause : Failure α ε n)
  /-- A step of the linear models was not found within its passes. -/
  | unresolved

def Phase.isActive {α ε : Type} {n : Nat} : Phase α ε n → Bool
  | selectBest => true
  | shrinkRadius => true
  | finish _ => false
  | failed _ => false
  | unresolved => false

namespace Ledger

variable {α I O σ : Type} {n : Nat}

def start (memory : σ) : Ledger α I O σ n := ⟨0, memory, []⟩

def add (l : Ledger α I O σ n) (entry : Entry α I O n) : Ledger α I O σ n :=
  { l with entries := entry :: l.entries }

def announce (l : Ledger α I O σ n) (observer : Observer (Event α I O n) Action σ)
    (event : Event α I O n) : Option Action × Ledger α I O σ n :=
  let (answer, memory) := observer.observe l.memory event
  (answer, { l with memory, entries := .shown event answer :: l.entries })

def events (l : Ledger α I O σ n) : List (Event α I O n) :=
  l.entries.reverse.filterMap fun
    | .shown event _ => some event
    | _ => none

def attempts (l : Ledger α I O σ n) : List (Vector α n) :=
  l.entries.reverse.filterMap fun
    | .attempted x => some x
    | _ => none

@[simp] theorem events_start (memory : σ) : (start memory : Ledger α I O σ n).events = [] := rfl

@[simp] theorem events_announce (l : Ledger α I O σ n) (observer : Observer (Event α I O n) Action σ)
    (event : Event α I O n) : (l.announce observer event).2.events = l.events ++ [event] := by
  simp [announce, events]

@[simp] theorem events_add_attempted (l : Ledger α I O σ n) (x : Vector α n) :
    (l.add (.attempted x)).events = l.events := by
  simp [add, events]

@[simp] theorem events_add_inaccurate (l : Ledger α I O σ n) (error : α) (evals : Nat) :
    (l.add (.inaccurate error evals)).events = l.events := by
  simp [add, events]

@[simp] theorem attempts_announce (l : Ledger α I O σ n)
    (observer : Observer (Event α I O n) Action σ) (event : Event α I O n) :
    (l.announce observer event).2.attempts = l.attempts := by
  simp [announce, attempts]

@[simp] theorem attempts_add_attempted (l : Ledger α I O σ n) (x : Vector α n) :
    (l.add (.attempted x)).attempts = l.attempts ++ [x] := by
  simp [add, attempts]

@[simp] theorem attempts_add_inaccurate (l : Ledger α I O σ n) (error : α) (evals : Nat) :
    (l.add (.inaccurate error evals)).attempts = l.attempts := by
  simp [add, attempts]

end Ledger

namespace Search

section
variable {α I O ε σ : Type} [Scalar α] {n m : Nat}

/-- Evaluates at `x`, counts and shows it, and returns the sample with the answer of the observer.
An evaluation that fails or is not finite is neither counted nor shown. -/
def probe (q : Search α I O ε σ n m) (l : Ledger α I O σ n) (x : Vector α n) (kind : Probe) :
    Except (Failure α ε n) (Sample α (Snapshot I O) m × Option Action) × Ledger α I O σ n :=
  let l := l.add (.attempted x)
  match evaluate q.model q.problem x with
  | .error cause => (.error (.evaluation cause), l)
  | .ok e =>
    if e.isFinite then
      let l := { l with evals := l.evals + 1 }
      let (answer, l) := l.announce q.observer
        (.evaluated l.evals kind ⟨x, e.objective, e.maxViolation⟩ e.snapshot)
      (.ok (e.sample, answer), l)
    else (.error (.nonFinite x e.objective), l)

def hasBudget (q : Search α I O ε σ n m) (l : Ledger α I O σ n) : Bool :=
  l.evals < q.config.maxEvals

end

end Search

end TrustSimplex
