import TrustSimplex.Problem

/-!
# Events of a run

What a run shows to the one who watches it, and what the watcher may answer.
-/

namespace TrustSimplex

structure Point (α : Type) (n : Nat) where
  x : Vector α n
  objective : α
  maxViolation : α

def Point.isFeasible {α : Type} [Scalar α] {n : Nat} (p : Point α n) : Bool :=
  p.maxViolation ≤ 0

/-- Why a point was evaluated: as a vertex of the first simplex, to restore the shape of the
simplex, or as a step of the linear models. -/
inductive Probe where
  | initial
  | geometry
  | trial
deriving DecidableEq

inductive Status where
  | converged
  | maxEvals
  | roundingErrors
  | stoppedByObserver
deriving DecidableEq

def Probe.name : Probe → String
  | .initial => "Initial"
  | .geometry => "Geometry"
  | .trial => "Trial"

def Status.name : Status → String
  | .converged => "Converged"
  | .maxEvals => "MaxEvals"
  | .roundingErrors => "RoundingErrors"
  | .stoppedByObserver => "StoppedByObserver"

inductive Event (α I O : Type) (n : Nat) where
  | evaluated (evals : Nat) (kind : Probe) (point : Point α n) (snapshot : Snapshot I O)
  | penaltyIncreased (penalty : α)
  | radiusReduced (radius penalty : α) (evals : Nat) (best : Point α n)
  | finished (status : Status) (evals : Nat) (best : Point α n)

namespace Event

variable {α I O : Type} {n : Nat}

def point? : Event α I O n → Option (Point α n)
  | evaluated _ _ point _ => some point
  | penaltyIncreased _ => none
  | radiusReduced _ _ _ best => some best
  | finished _ _ best => some best

def evals? : Event α I O n → Option Nat
  | evaluated evals _ _ _ => some evals
  | penaltyIncreased _ => none
  | radiusReduced _ _ evals _ => some evals
  | finished _ evals _ => some evals

def objective? (e : Event α I O n) : Option α := e.point?.map Point.objective

def maxViolation? (e : Event α I O n) : Option α := e.point?.map Point.maxViolation

end Event

inductive Action where
  | stopEarly
deriving DecidableEq

structure Solution (α I O : Type) (n : Nat) where
  status : Status
  point : Point α n
  snapshot : Snapshot I O
  evals : Nat
  radius : α

end TrustSimplex
