import TrustSimplex.Simplex.Linearization

/-!
# Shape of a simplex

A simplex is acceptable at a radius if no vertex is near the face opposite it and no edge is long.
This module measures the shape, chooses the vertex that a repair moves and its step, and the vertex
that a new point replaces.
-/

namespace TrustSimplex

/-- The heights of the vertices over their opposite faces and the lengths of the edges. -/
structure Geometry (α : Type) (n : Nat) where
  radius : α
  heights : Vector α n
  lengths : Vector α n

namespace Geometry

section
variable {α : Type} [Scalar α] {n : Nat}

def leastHeight (g : Geometry α n) : α := 0.25 * g.radius

def greatestLength (g : Geometry α n) : α := 2.1 * g.radius

def isAcceptable (g : Geometry α n) : Bool :=
  g.heights.all (fun h => g.leastHeight ≤ h) && g.lengths.all (fun l => l ≤ g.greatestLength)

def longest? (lengths : Vector α n) (bound : α) : Option (Fin n) :=
  (Fin.foldl n (fun (found, most) j =>
    if most < lengths.get j then (some j, lengths.get j) else (found, most)) (none, bound)).1

def lowest? (heights : Vector α n) (bound : α) : Option (Fin n) :=
  (Fin.foldl n (fun (found, least) j =>
    if heights.get j < least then (some j, heights.get j) else (found, least)) (none, bound)).1

def vertexToRepair? (g : Geometry α n) : Option (Fin n) :=
  if g.isAcceptable then none
  else (longest? g.lengths g.greatestLength).or (lowest? g.heights g.greatestLength)

end

end Geometry

namespace Simplex

section
variable {α S : Type} [Scalar α] {n m k : Nat}

def geometry (s : Simplex α S n m) (radius : α) : Geometry α n where
  radius := radius
  heights := Vector.ofFn fun j => 1 / Scalar.sqrt (normSq (s.inverse.row j))
  lengths := Vector.ofFn fun j => Scalar.sqrt (normSq (s.edges.col j))

/-! ## Repair -/

def violationBothWays (s : Simplex α S n m) (L : Linearization α n m) (d : Vector α n) : α × α :=
  Fin.foldl m (fun (ahead, back) k =>
    let change := dot (L.gradient k.castSucc) d
    let value := s.constraint .pole k
    (larger ahead (-change - value), larger back (change - value))) (0, 0)

/-- The step that moves vertex `j` straight over its opposite face to half the radius, on the side
where the linear models predict the lower merit. -/
def repairStep (s : Simplex α S n m) (g : Geometry α n) (j : Fin n) (L : Linearization α n m)
    (penalty : α) : Vector α n :=
  let d := scaleVec (0.5 * g.radius * g.heights.get j) (s.inverse.row j)
  let (ahead, back) := s.violationBothWays L d
  let gain := dot (L.gradient (Fin.last m)) d
  if gain + gain < penalty * (ahead - back) then d.map (- ·) else d

/-! ## Replacement -/

def volumeRatios (s : Simplex α S n m) (d : Vector α k) : Vector α n :=
  Vector.ofFn fun j => Scalar.abs (dot (s.inverse.row j) d)

/-- The distance of vertex `j` from where a step that improves the merit leads; for a step that does
not, its distance from the pole. -/
def edgeFrom (s : Simplex α S n m) (g : Geometry α n) (d : Vector α k) (improves : Bool)
    (j : Fin n) : α :=
  if improves then Scalar.sqrt (distSq d (s.edges.col j)) else g.lengths.get j

/-- The vertex that the point at step `d` replaces.

A step that lowers the merit by `reduction > 0` may shrink the volume, another has to make it grow.
Of the vertices that leave a sound height the farthest beyond `1.1` radii is preferred, else
the greatest volume decides. -/
def vertexToReplace? (s : Simplex α S n m) (g : Geometry α n) (d : Vector α k) (reduction : α) :
    Option (Fin n) :=
  let ratios := s.volumeRatios d
  let greatest := Geometry.longest? ratios (if reduction ≤ 0 then 1 else 0)
  let far := (Fin.foldl n (fun (found, most) j =>
    let height := ratios.get j * g.heights.get j
    if g.leastHeight ≤ height ∨ g.heights.get j ≤ height then
      let edge := s.edgeFrom g d (0 < reduction) j
      if most < edge then (some j, edge) else (found, most)
    else (found, most)) ((none : Option (Fin n)), 1.1 * g.radius)).1
  far.or greatest

end

end Simplex

end TrustSimplex
