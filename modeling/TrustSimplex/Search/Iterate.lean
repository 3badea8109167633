import TrustSimplex.Search.State
import TrustSimplex.TrustRegion.Step

/-!
# The phases of a run

`Search.iterate` makes the best vertex the pole and then moves a vertex, to repair the shape of the
simplex or to try a step of the linear models. `Search.shrink` halves the radius when the steps at the
present one have no more to give.
-/

namespace TrustSimplex

namespace Search

section
variable {α I O ε σ : Type} [Scalar α] {n m : Nat}

def accuracyBound : α := 0.1

/-! ## Repairing the simplex -/

def repair (q : Search α I O ε σ n m) (s : State α I O σ n m) (g : Geometry α n) (j : Fin n)
    (L : Linearization α n m) : Phase α ε n × State α I O σ n m :=
  let step := s.simplex.repairStep g j L s.penalty
  let s := { s with simplex := s.simplex.replace j step }
  if q.hasBudget s.ledger then
    match q.probe s.ledger (s.simplex.offset step) .geometry with
    | (.error cause, ledger) => (.failed cause, { s with ledger })
    | (.ok (_, some .stopEarly), ledger) => (.finish .stoppedByObserver, { s with ledger })
    | (.ok (sample, none), ledger) =>
      (.selectBest,
        { s with ledger, simplex := s.simplex.store j sample, repairArmed := false })
  else (.finish .maxEvals, s)

/-! ## Trying a step -/

structure Prediction (α : Type) where
  violationDrop : α
  objectiveRise : α

def predict (s : State α I O σ n m) (L : Linearization α n m) (step : Vector α n) : Prediction α :=
  ⟨s.simplex.maxViolation .pole - L.violation step, -dot (L.gradient (Fin.last m)) step⟩

def Prediction.leastPenalty (p : Prediction α) : α :=
  if 0 < p.violationDrop then p.objectiveRise / p.violationDrop else 0

/-- The reduction of the merit that is predicted and the one that the sample has. At a zero penalty
equal objectives are compared by violation. -/
def reductions (s : State α I O σ n m) (p : Prediction α) (r : Sample α (Snapshot I O) m) :
    α × α :=
  let objective := s.simplex.objective .pole
  let violation := s.simplex.maxViolation .pole
  if s.penalty == 0 && r.objective == objective then
    (p.violationDrop, violation - r.maxViolation)
  else
    (s.penalty * p.violationDrop - p.objectiveRise,
      objective + s.penalty * violation - (r.objective + s.penalty * r.maxViolation))

/-- Puts the sample of a step in the place of a vertex, if one is to be replaced. The radius stays
if a tenth of the predicted reduction was reached. -/
def accept (s : State α I O σ n m) (g : Geometry α n) (step : Vector α n) (p : Prediction α)
    (r : Sample α (Snapshot I O) m) : Phase α ε n × State α I O σ n m :=
  let (predicted, actual) := reductions s p r
  match s.simplex.vertexToReplace? g step actual with
  | none => (.shrinkRadius, s)
  | some j =>
    (if 0 < actual ∧ 0.1 * predicted ≤ actual then .selectBest else .shrinkRadius,
      { s with simplex := (s.simplex.replace j step).store j r })

def tryStep (q : Search α I O ε σ n m) (s : State α I O σ n m) (g : Geometry α n)
    (step : Vector α n) (p : Prediction α) : Phase α ε n × State α I O σ n m :=
  let s := { s with repairArmed := false }
  if q.hasBudget s.ledger then
    match q.probe s.ledger (s.simplex.offset step) .trial with
    | (.error cause, ledger) => (.failed cause, { s with ledger })
    | (.ok (_, some .stopEarly), ledger) => (.finish .stoppedByObserver, { s with ledger })
    | (.ok (sample, none), ledger) => accept { s with ledger } g step p sample
  else (.finish .maxEvals, s)

/-- Raises the penalty to twice the least one where it falls short of one and a half times that.
If another vertex is the best under the new penalty the selection is made again. -/
def weighStep (q : Search α I O ε σ n m) (s : State α I O σ n m) (g : Geometry α n)
    (step : Vector α n) (p : Prediction α) : Phase α ε n × State α I O σ n m :=
  if s.penalty < 1.5 * p.leastPenalty then
    let penalty := 2.0 * p.leastPenalty
    let (answer, ledger) := s.ledger.announce q.observer (.penaltyIncreased penalty)
    let s := { s with penalty, ledger }
    match answer with
    | some .stopEarly => (.finish .stoppedByObserver, s)
    | none =>
      if s.simplex.poleIsBeaten s.penalty then (.selectBest, s) else q.tryStep s g step p
  else q.tryStep s g step p

def isTooShort (radius : α) (step : Step α n) : Bool :=
  !step.isFull && decide (normSq step.move < 0.25 * radius * radius)

def findStep (q : Search α I O ε σ n m) (s : State α I O σ n m) (g : Geometry α n)
    (L : Linearization α n m) (fuel : Nat) : Phase α ε n × State α I O σ n m :=
  match L.solveWithin s.radius fuel with
  | none => (.unresolved, s)
  | some step =>
    if isTooShort s.radius step then (.shrinkRadius, { s with repairArmed := false })
    else q.weighStep s g step.move (predict s L step.move)

/-! ## The two phases -/

def iterate (q : Search α I O ε σ n m) (s : State α I O σ n m) (fuel : Nat) :
    Phase α ε n × State α I O σ n m :=
  let s := { s with simplex := s.simplex.pivotTo (s.simplex.selectBest s.penalty) }
  let error := s.simplex.inverseError
  if accuracyBound < error then
    (.finish .roundingErrors,
      { s with ledger := s.ledger.add (.inaccurate error s.ledger.evals) })
  else
    let L := s.simplex.linearize
    let g := s.simplex.geometry s.radius
    let s := { s with acceptable := g.isAcceptable }
    match if s.repairArmed then g.vertexToRepair? else none with
    | some j => q.repair s g j L
    | none => q.findStep s g L fuel

def reducedRadius (q : Search α I O ε σ n m) (radius : α) : α :=
  let half := radius * 0.5
  if half ≤ 1.5 * q.config.finalRadius then q.config.finalRadius else half

def shrink (q : Search α I O ε σ n m) (s : State α I O σ n m) : Phase α ε n × State α I O σ n m :=
  if !s.acceptable then (.selectBest, { s with repairArmed := true })
  else if s.radius ≤ q.config.finalRadius then (.finish .converged, s)
  else
    let radius := q.reducedRadius s.radius
    let penalty := if 0 < s.penalty then s.simplex.rescaledPenalty s.penalty else s.penalty
    let (answer, ledger) := s.ledger.announce q.observer
      (.radiusReduced radius penalty s.ledger.evals s.simplex.best)
    (match answer with
      | some .stopEarly => .finish .stoppedByObserver
      | none => .selectBest,
      { s with radius, penalty, ledger })

end

end Search

end TrustSimplex
