import TrustSimplex.ColMatrix
import TrustSimplex.Event

/-!
# The simplex

A simplex of `n + 1` vertices around its pole. The pole is a position; the other vertices are edges,
displacements from the pole, and `inverse` is kept to be the inverse of the matrix of edges. Every
evaluated vertex has its sample, the values and the snapshot of one evaluation, so that the two
never part. The first simplex is grown vertex by vertex: `others` holds the samples so far.
-/

namespace TrustSimplex

structure Sample (α S : Type) (m : Nat) where
  constraints : Vector α m
  objective : α
  maxViolation : α
  snapshot : S

def Evaluation.sample {α I O : Type} [Scalar α] {n m : Nat} (e : Evaluation α I O n m) :
    Sample α (Snapshot I O) m :=
  ⟨e.constraints, e.objective, e.maxViolation, e.snapshot⟩

inductive Vertex (n : Nat) where
  | pole
  | other (j : Fin n)
deriving DecidableEq

structure Simplex (α S : Type) (n m : Nat) where
  pole : Vector α n
  edges : ColMatrix α n n
  inverse : ColMatrix α n n
  poleSample : Sample α S m
  others : Array (Sample α S m)

namespace Simplex

section
variable {α S : Type} [Scalar α] {n m : Nat}

/-! ## Reading -/

def sample? (s : Simplex α S n m) : Vertex n → Option (Sample α S m)
  | .pole => some s.poleSample
  | .other j => s.others[j]?

def objective (s : Simplex α S n m) (v : Vertex n) : α :=
  match s.sample? v with
  | some r => r.objective
  | none => 0

def maxViolation (s : Simplex α S n m) (v : Vertex n) : α :=
  match s.sample? v with
  | some r => r.maxViolation
  | none => 0

def constraint (s : Simplex α S n m) (v : Vertex n) (k : Fin m) : α :=
  match s.sample? v with
  | some r => r.constraints.get k
  | none => 0

/-- The constraints by number, and the objective after them. -/
def value (s : Simplex α S n m) (v : Vertex n) (k : Fin (m + 1)) : α :=
  if h : k.val < m then s.constraint v ⟨k, h⟩ else s.objective v

def offset (s : Simplex α S n m) (d : Vector α n) : Vector α n := addVec s.pole d

def position (s : Simplex α S n m) : Vertex n → Vector α n
  | .pole => s.pole
  | .other j => s.offset (s.edges.col j)

def best (s : Simplex α S n m) : Point α n :=
  ⟨s.offset (zeroVec n), s.objective .pole, s.maxViolation .pole⟩

/-! ## Growing the first simplex -/

def start (x : Vector α n) (radius : α) (first : Sample α S m) : Simplex α S n m :=
  ⟨x, .identity n radius, .identity n (1 / radius), first, #[]⟩

def isBuilding (s : Simplex α S n m) : Bool := s.others.size < n

def nextInitial (s : Simplex α S n m) : Vector α n :=
  let j := s.others.size
  s.offset ((zeroVec n).setIfInBounds j (s.edges.entry j j))

/-- Adds the next vertex. It becomes the pole if its objective is lower, and then the edges so far
are measured from it. -/
def extend (s : Simplex α S n m) (r : Sample α S m) : Simplex α S n m :=
  let j := s.others.size
  let length := s.edges.entry j j
  if s.objective .pole ≤ r.objective then { s with others := s.others.push r }
  else
    { pole := s.pole.setIfInBounds j (s.pole.getD j 0 + length)
      edges := .ofFn fun i k =>
        if i = j ∧ k.val ≤ j then -length else s.edges.entry i k
      inverse := .ofFn fun i k =>
        if i = j ∧ k.val ≤ j then
          -(sumOf (j + 1 - k) fun l => s.inverse.entry (k + l) k)
        else s.inverse.entry i k
      poleSample := r
      others := s.others.push s.poleSample }

/-! ## Moving vertices -/

def pivot (s : Simplex α S n m) (j : Fin n) : Simplex α S n m :=
  let shift := s.edges.col j
  { pole := addVec s.pole shift
    edges := .ofFn fun i k => (if k = j then 0 else s.edges.entry i k) - shift.get i
    inverse := .ofFn fun i k =>
      if i = j then Fin.foldl n (fun sum l => sum - s.inverse.entry l k) 0
      else s.inverse.entry i k
    poleSample := s.others.getD j s.poleSample
    others := s.others.setIfInBounds j s.poleSample }

def pivotTo (s : Simplex α S n m) : Vertex n → Simplex α S n m
  | .pole => s
  | .other j => s.pivot j

/-- Moves vertex `j` to `d` from the pole and eliminates its row from the inverse. -/
def replace (s : Simplex α S n m) (j : Fin n) (d : Vector α n) : Simplex α S n m :=
  let divisor := dot (s.inverse.row j) d
  let pivotRow := (s.inverse.row j).map (· / divisor)
  let factors := Vector.ofFn fun i : Fin n => dot (s.inverse.row i) d
  { s with
    edges := s.edges.setCol j d
    inverse := .ofFn fun i k =>
      if i = j then pivotRow.get k else s.inverse.entry i k - factors.get i * pivotRow.get k }

def store (s : Simplex α S n m) (j : Fin n) (r : Sample α S m) : Simplex α S n m :=
  { s with others := s.others.setIfInBounds j r }

/-! ## How many vertices were evaluated -/

theorem size_others_extend (s : Simplex α S n m) (r : Sample α S m) :
    (s.extend r).others.size = s.others.size + 1 := by
  unfold extend
  dsimp only
  split <;> simp

@[simp] theorem size_others_pivotTo (s : Simplex α S n m) (v : Vertex n) :
    (s.pivotTo v).others.size = s.others.size := by
  cases v <;> simp [pivotTo, pivot]

omit [Scalar α] in
@[simp] theorem size_others_store (s : Simplex α S n m) (j : Fin n) (r : Sample α S m) :
    (s.store j r).others.size = s.others.size := by
  simp [store]

@[simp] theorem others_replace (s : Simplex α S n m) (j : Fin n) (d : Vector α n) :
    (s.replace j d).others = s.others := rfl

/-! ## Accuracy of the inverse -/

def inverseError (s : Simplex α S n m) : α :=
  Fin.foldl n (fun error i =>
    let row := s.inverse.row i
    Fin.foldl n (fun error j =>
      larger error (Scalar.abs (dot row (s.edges.col j) - if i = j then 1 else 0))) error) 0

end

end Simplex

end TrustSimplex
