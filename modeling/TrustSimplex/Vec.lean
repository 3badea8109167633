import TrustSimplex.Scalar

/-!
# Vectors

Inner products and distances of `Vector α n` and the vector operations of the method.
-/

namespace TrustSimplex

section
variable {α : Type} [Scalar α] {n k : Nat}

/-- The inner product over the indices that both vectors have. -/
def dot (a : Vector α n) (b : Vector α k) : α :=
  sumOf (min n k) fun i => a[i.val] * b[i.val]

def normSq (a : Vector α n) : α :=
  sumOf n fun i => a.get i * a.get i

def distSq (a : Vector α n) (b : Vector α k) : α :=
  sumOf (min n k) fun i => (a[i.val] - b[i.val]) * (a[i.val] - b[i.val])

def guardedDot (a : Vector α n) (b : Vector α k) : α :=
  let (sum, magnitude) := Fin.foldl (min n k) (fun (sum, magnitude) i =>
    let term := a[i.val] * b[i.val]
    (sum + term, magnitude + Scalar.abs term)) ((0 : α), (0 : α))
  snapToZero sum magnitude

/-! ## Entrywise operations -/

def zeroVec (n : Nat) : Vector α n := Vector.replicate n 0

def scaleVec (s : α) (v : Vector α n) : Vector α n := v.map (s * ·)

def addVec (v w : Vector α n) : Vector α n := v.zipWith (· + ·) w

def subScaled (v : Vector α n) (s : α) (w : Vector α n) : Vector α n :=
  v.zipWith (fun a b => a - s * b) w

@[simp] theorem getElem_zeroVec {i : Nat} (h : i < n) : (zeroVec n : Vector α n)[i] = 0 := by
  simp [zeroVec]

@[simp] theorem getElem_scaleVec (s : α) (v : Vector α n) {i : Nat} (h : i < n) :
    (scaleVec s v)[i] = s * v[i] := by
  simp [scaleVec]

@[simp] theorem getElem_addVec (v w : Vector α n) {i : Nat} (h : i < n) :
    (addVec v w)[i] = v[i] + w[i] := by
  simp [addVec]

@[simp] theorem getElem_subScaled (v : Vector α n) (s : α) (w : Vector α n) {i : Nat} (h : i < n) :
    (subScaled v s w)[i] = v[i] - s * w[i] := by
  simp [subScaled]

end

end TrustSimplex
