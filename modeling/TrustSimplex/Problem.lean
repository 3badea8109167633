import TrustSimplex.Vec

/-!
# Constrained problems and their evaluation

A problem turns the variables into the input of a model, and the input and output of the model into
an objective and constraints; a constraint holds where its value is at least zero. `evaluate` runs
the four stages in order and stops at the first that fails.
-/

namespace TrustSimplex

structure Model (I O ε : Type) where
  call : I → Except ε O

structure Snapshot (I O : Type) where
  input : I
  output : O

/-- Minimize the objective over `n` variables while `m` constraints are at least zero. -/
structure Problem (α I O ε : Type) (n m : Nat) where
  input : Vector α n → Except ε I
  objective : I → O → Except ε α
  constraints : I → O → Except ε (Vector α m)

structure Evaluation (α I O : Type) (n m : Nat) where
  x : Vector α n
  objective : α
  constraints : Vector α m
  snapshot : Snapshot I O

inductive EvalError (ε : Type) where
  | model (cause : ε)
  | problem (cause : ε)

section
variable {α I O ε : Type} [Scalar α] {n m : Nat}

def greatestViolation (constraints : Vector α m) : α :=
  constraints.foldl (fun worst c => larger worst (-c)) 0

namespace Evaluation

def maxViolation (e : Evaluation α I O n m) : α := greatestViolation e.constraints

def isFinite (e : Evaluation α I O n m) : Bool :=
  Scalar.isFinite e.objective && e.constraints.all Scalar.isFinite

end Evaluation

def evaluate (model : Model I O ε) (problem : Problem α I O ε n m) (x : Vector α n) :
    Except (EvalError ε) (Evaluation α I O n m) := do
  let input ← (problem.input x).mapError .problem
  let output ← (model.call input).mapError .model
  let objective ← (problem.objective input output).mapError .problem
  let constraints ← (problem.constraints input output).mapError .problem
  return ⟨x, objective, constraints, ⟨input, output⟩⟩

end

def EvalError.cause {ε : Type} : EvalError ε → ε
  | .model e => e
  | .problem e => e

def EvalError.message {ε : Type} : EvalError ε → String
  | .model _ => "model call failed"
  | .problem _ => "problem error"

end TrustSimplex
