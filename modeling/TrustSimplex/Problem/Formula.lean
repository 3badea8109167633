import TrustSimplex.Problem

/-!
# Problems given by formulas

A formula computes a double from the variables, the model input and the model output, or fails. A
`FormulaProblem` gives each stage of an evaluation by formulas, which are computed in order up to
the first that fails.
-/

namespace TrustSimplex

inductive Source where
  | variable
  | input
  | output
deriving DecidableEq

inductive UnaryOp where
  | neg
  | abs
  | square
  | sqrt
  | floor

inductive BinaryOp where
  | add
  | sub
  | mul
  | div

inductive Formula where
  | constant (x : Float)
  | entry (source : Source) (i : Nat)
  | unary (op : UnaryOp) (a : Formula)
  | binary (op : BinaryOp) (a b : Formula)
  /-- The first of two values where the third is at least zero, else the second. -/
  | select (p q c : Formula)
  /-- The first value; fails where it is above the second. -/
  | guarded (a b : Formula)

def UnaryOp.apply : UnaryOp → Float → Float
  | neg, x => -x
  | abs, x => x.abs
  | square, x => x * x
  | sqrt, x => x.sqrt
  | floor, x => x.floor

def BinaryOp.apply : BinaryOp → Float → Float → Float
  | add, x, y => x + y
  | sub, x, y => x - y
  | mul, x, y => x * y
  | div, x, y => x / y

structure Scope where
  point : Array Float
  input : Array Float
  output : Array Float

def Scope.read (s : Scope) : Source → Nat → Float
  | .variable, i => s.point.getD i 0
  | .input, i => s.input.getD i 0
  | .output, i => s.output.getD i 0

def Formula.eval (s : Scope) : Formula → Option Float
  | constant x => some x
  | entry source i => some (s.read source i)
  | unary op a => return op.apply (← a.eval s)
  | binary op a b => return op.apply (← a.eval s) (← b.eval s)
  | select p q c => do
    let p ← p.eval s
    let q ← q.eval s
    let c ← c.eval s
    return if 0 ≤ c then p else q
  | guarded a b => do
    let a ← a.eval s
    let b ← b.eval s
    if b < a then none else return a

/-! ## Postfix form -/

inductive PostfixToken where
  | constant (x : Float)
  | entry (source : Source) (i : Nat)
  | unary (op : UnaryOp)
  | binary (op : BinaryOp)
  | select
  | guarded

def PostfixToken.push? : List Formula → PostfixToken → Option (List Formula)
  | stack, constant x => some (.constant x :: stack)
  | stack, entry source i => some (.entry source i :: stack)
  | a :: stack, unary op => some (.unary op a :: stack)
  | b :: a :: stack, binary op => some (.binary op a b :: stack)
  | c :: q :: p :: stack, select => some (.select p q c :: stack)
  | b :: a :: stack, guarded => some (.guarded a b :: stack)
  | _, _ => none

def Formula.ofPostfix? (tokens : List PostfixToken) : Option Formula :=
  match tokens.foldlM PostfixToken.push? [] with
  | some [f] => some f
  | _ => none

/-! ## Problems -/

inductive FormulaStage where
  | input
  | model
  | objective
  | constraints
deriving DecidableEq

def FormulaStage.message : FormulaStage → String
  | input => "failure in input"
  | model => "failure in model"
  | objective => "failure in objective"
  | constraints => "failure in constraints"

/-- A problem by formulas. Without formulas for the input the variables are the input. -/
structure FormulaProblem (m : Nat) where
  input : Option (Array Formula)
  model : Array Formula
  objective : Formula
  constraints : Vector Formula m

namespace FormulaProblem

def evalAll (stage : FormulaStage) (s : Scope) (fs : Array Formula) :
    Except FormulaStage (Array Float) :=
  fs.mapM fun f => match f.eval s with
    | some x => .ok x
    | none => .error stage

def toModel {m : Nat} (p : FormulaProblem m) : Model (Array Float) (Array Float) FormulaStage :=
  ⟨fun input => evalAll .model ⟨#[], input, #[]⟩ p.model⟩

def toProblem {m : Nat} (p : FormulaProblem m) (n : Nat) :
    Problem Float (Array Float) (Array Float) FormulaStage n m where
  input x := match p.input with
    | none => .ok x.toArray
    | some fs => evalAll .input ⟨x.toArray, #[], #[]⟩ fs
  objective input output := match p.objective.eval ⟨#[], input, output⟩ with
    | some x => .ok x
    | none => .error .objective
  constraints input output := p.constraints.mapM fun f =>
    match f.eval ⟨#[], input, output⟩ with
    | some x => .ok x
    | none => .error .constraints

end FormulaProblem

end TrustSimplex
