import TrustSimplex.Simplex.Basic

/-!
# Linear models

The affine functions that take the values of the constraints and of the objective at all vertices
of a simplex.
-/

namespace TrustSimplex

/-- Linear models of `m` constraints and, in the last place, of the objective turned around.

At a step `d` from the pole constraint `k` is modelled by `gradients k ⬝ d - bounds k`, and the
objective by the same with both signs changed. -/
structure Linearization (α : Type) (n m : Nat) where
  gradients : ColMatrix α n (m + 1)
  bounds : Vector α (m + 1)

namespace Linearization

section
variable {α : Type} [Scalar α] {n m : Nat}

def gradient (L : Linearization α n m) (k : Fin (m + 1)) : Vector α n := L.gradients.col k

def residual (L : Linearization α n m) (k : Fin (m + 1)) (d : Vector α n) : α :=
  L.bounds.get k - dot (L.gradient k) d

def violation (L : Linearization α n m) (d : Vector α n) : α :=
  Fin.foldl m (fun worst k => larger worst (L.residual k.castSucc d)) 0

end

end Linearization

def Simplex.linearize {α S : Type} [Scalar α] {n m : Nat} (s : Simplex α S n m) :
    Linearization α n m :=
  let bounds := Vector.ofFn fun k : Fin (m + 1) => -s.value .pole k
  let columns := Vector.ofFn fun k : Fin (m + 1) =>
    let rises := Vector.ofFn fun j : Fin n => s.value (.other j) k + bounds.get k
    Vector.ofFn fun i : Fin n =>
      let slope := dot rises (s.inverse.col i)
      if k = Fin.last m then -slope else slope
  ⟨⟨columns⟩, bounds⟩

end TrustSimplex
