import TrustSimplex.Simplex.Basic

/-!
# Merit of vertices

Vertices are compared by `objective + penalty * violation`. At a zero penalty equal merits go to
the lower violation.
-/

namespace TrustSimplex.Simplex

section
variable {α S : Type} [Scalar α] {n m : Nat}

def merit (s : Simplex α S n m) (penalty : α) (v : Vertex n) : α :=
  s.objective v + penalty * s.maxViolation v

def beats (s : Simplex α S n m) (penalty : α) (v w : Vertex n) : Bool :=
  s.merit penalty v < s.merit penalty w ||
    (s.merit penalty v == s.merit penalty w && penalty == 0 &&
      decide (s.maxViolation v < s.maxViolation w))

/-- The best vertex; of equals the earliest, with the pole before the others. -/
def selectBest (s : Simplex α S n m) (penalty : α) : Vertex n :=
  Fin.foldl n (fun best j => if s.beats penalty (.other j) best then .other j else best) .pole

def poleIsBeaten (s : Simplex α S n m) (penalty : α) : Bool :=
  (List.finRange n).any fun j => s.beats penalty (.other j) .pole

/-! ## Rescaling the penalty -/

def valuesOf (s : Simplex α S n m) (k : Fin (m + 1)) : List α :=
  (List.finRange n).map (fun j => s.value (.other j) k) ++ [s.value .pole k]

/-- The spread of a constraint that is not comfortably satisfied at every vertex, measured from the
lowest value up to the highest or to zero. -/
def tightSpread? (s : Simplex α S n m) (k : Fin m) : Option α :=
  match range? (s.valuesOf k.castSucc) with
  | none => none
  | some (low, high) => if low < 0.5 * high then some (larger high 0 - low) else none

def leastTightSpread (s : Simplex α S n m) : α :=
  Fin.foldl m (fun least k =>
    match s.tightSpread? k with
    | none => least
    | some spread => if least ≤ 0 then spread else smaller least spread) 0

def objectiveSpread (s : Simplex α S n m) : α :=
  match range? (s.valuesOf (Fin.last m)) with
  | none => -(1 / 0)
  | some (low, high) => high - low

/-- The penalty after a reduction of the radius: no more than the spread of the objective over the
least spread of a tight constraint, and zero if no constraint is tight. -/
def rescaledPenalty (s : Simplex α S n m) (penalty : α) : α :=
  let least := s.leastTightSpread
  let spread := s.objectiveSpread
  if least == 0 then 0
  else if spread < penalty * least then spread / least
  else penalty

end

end TrustSimplex.Simplex
