import TrustSimplex.Decimal.Text
import TrustSimplex.Search.State

/-!
# Reports of a run

Records of what a run does, as far as a verbosity asks for them. Reporting answers no event, so it
never stops a run.
-/

namespace TrustSimplex

inductive Verbosity where
  | silent
  /-- The end of the run. -/
  | final
  /-- Also reductions of the radius and raised penalties. -/
  | radius
  /-- Also every evaluation. -/
  | evaluations
deriving DecidableEq

namespace Verbosity

def ofLevel : Nat → Verbosity
  | 0 => silent
  | 1 => final
  | 2 => radius
  | _ => evaluations

def rank : Verbosity → Nat
  | silent => 0
  | final => 1
  | radius => 2
  | evaluations => 3

def covers (v w : Verbosity) : Bool := w.rank ≤ v.rank

def standard : Verbosity := final

def name : Verbosity → String
  | silent => "Silent"
  | final => "Final"
  | radius => "Radius"
  | evaluations => "Evaluations"

def sorted (vs : List Verbosity) : List Verbosity := vs.mergeSort fun v w => w.covers v

end Verbosity

inductive Severity where
  | debug
  | info
  | warn
deriving DecidableEq

def Severity.name : Severity → String
  | .debug => "DEBUG"
  | .info => "INFO"
  | .warn => "WARN"

inductive FieldValue where
  | real (x : Float)
  | count (n : Nat)
  | text (s : String)

structure Record where
  severity : Severity
  message : String
  fields : List (String × FieldValue)

namespace Record

def vectorText {n : Nat} (x : Vector Float n) : String :=
  Decimal.bracketed (x.toList.map (Decimal.scientific 6))

def pointFields {n : Nat} (p : Point Float n) : List (String × FieldValue) :=
  [("objective", .real p.objective), ("max_violation", .real p.maxViolation),
    ("x", .text (vectorText p.x))]

def verbosityFor {I O : Type} {n : Nat} : Event Float I O n → Verbosity
  | .evaluated .. => .evaluations
  | .penaltyIncreased _ => .radius
  | .radiusReduced .. => .radius
  | .finished .. => .final

def ofEvent {I O : Type} {n : Nat} : Event Float I O n → Record
  | .evaluated evals kind point _ =>
    ⟨.debug, "evaluated", [("evals", .count evals), ("kind", .text kind.name)] ++ pointFields point⟩
  | .penaltyIncreased penalty => ⟨.info, "increased penalty", [("penalty", .real penalty)]⟩
  | .radiusReduced radius penalty evals best =>
    ⟨.info, "reduced trust region",
      [("rho", .real radius), ("penalty", .real penalty), ("evals", .count evals)] ++
        pointFields best⟩
  | .finished status evals best =>
    ⟨.info, "finished", [("status", .text status.name), ("evals", .count evals)] ++
      pointFields best⟩

def inaccuracy (error : Float) (evals : Nat) : Record :=
  ⟨.warn, "simplex inverse lost accuracy, stopping",
    [("error", .real error), ("evals", .count evals)]⟩

end Record

/-! ## Reporting events -/

def Verbosity.report? {I O : Type} {n : Nat} (v : Verbosity) (e : Event Float I O n) :
    Option Record :=
  if v.covers (Record.verbosityFor e) then some (Record.ofEvent e) else none

def Verbosity.reporter {I O : Type} {n : Nat} (v : Verbosity) :
    Observer (Event Float I O n) Action (List Record) :=
  ⟨fun records e => (none, (v.report? e).toList ++ records)⟩

/-- The records of a whole run in order. Without a verbosity only what the run itself warns of. -/
def Ledger.report {I O σ : Type} {n : Nat} (l : Ledger Float I O σ n) (v : Option Verbosity) :
    List Record :=
  l.entries.reverse.flatMap fun
    | .attempted _ => []
    | .shown event _ => (v.bind (·.report? event)).toList
    | .inaccurate error evals => [.inaccuracy error evals]

end TrustSimplex
