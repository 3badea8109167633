import TrustSimplex.Simplex.Linearization

/-!
# Active sets

The constraints that hold with equality at a step, with an orthogonal basis. Column `i` of the basis
is a Gram-Schmidt vector of the `i`-th active gradient: it is orthogonal to the gradients before,
and the columns past the active ones are orthogonal to all. Plane rotations keep it so while
constraints are exchanged, enter and leave.
-/

namespace TrustSimplex

/-- An order of all constraints, the objective among them, whose first `size` are active.

`diagonal` holds the inner product of each active gradient with its own column. `multipliers` go by
position: of an active constraint its Lagrange multiplier, of another its residual, shifted so that
it is zero for the most violated. -/
structure ActiveSet (α : Type) (n m : Nat) where
  basis : ColMatrix α n n
  diagonal : Vector α (m + 1)
  order : Vector (Fin (m + 1)) (m + 1)
  multipliers : Vector α (m + 1)
  size : Nat

def descending (low high : Nat) : List Nat := (List.range' low (high - low)).reverse

def nonzero? {α : Type} [Scalar α] (x : α) : Option α := if x == 0 then none else some x

namespace ActiveSet

section
variable {α : Type} [Scalar α] {n m : Nat}

def empty (n m : Nat) : ActiveSet α n m where
  basis := .identity n 1
  diagonal := zeroVec (m + 1)
  order := Vector.ofFn id
  multipliers := zeroVec (m + 1)
  size := 0

def constraintAt (s : ActiveSet α n m) (k : Nat) : Fin (m + 1) := s.order.getD k (Fin.last m)

def multiplier (s : ActiveSet α n m) (k : Nat) : α := s.multipliers.getD k 0

def diagonalAt (s : ActiveSet α n m) (k : Nat) : α := s.diagonal.getD k 0

def last (s : ActiveSet α n m) : Nat := s.size - 1

omit [Scalar α] in
theorem last_lt {s : ActiveSet α n m} (h : 0 < s.size) : s.last < s.size := by
  unfold last
  omega

def setMultiplier (s : ActiveSet α n m) (k : Nat) (x : α) : ActiveSet α n m :=
  { s with multipliers := s.multipliers.setIfInBounds k x }

def setDiagonal (s : ActiveSet α n m) (k : Nat) (x : α) : ActiveSet α n m :=
  { s with diagonal := s.diagonal.setIfInBounds k x }

/-! ## Exchanging neighbours -/

def exchange (L : Linearization α n m) (s : ActiveSet α n m) (k : Nat) : ActiveSet α n m :=
  let product := dot (s.basis.col k) (L.gradient (s.constraintAt (k + 1)))
  let own := s.diagonalAt (k + 1)
  let length := Scalar.sqrt (product * product + own * own)
  let cosine := own / length
  { s with
    basis := s.basis.exchangeCols k (k + 1) cosine (product / length)
    diagonal := (s.diagonal.setIfInBounds (k + 1) (cosine * s.diagonalAt k)).setIfInBounds k length
    order := s.order.swapIfInBounds k (k + 1)
    multipliers := s.multipliers.swapIfInBounds k (k + 1) }

def moveToEnd (L : Linearization α n m) (s : ActiveSet α n m) (k : Nat) : ActiveSet α n m :=
  (List.range' k (s.last - k)).foldl (exchange L) s

@[simp] theorem size_exchange (L : Linearization α n m) (s : ActiveSet α n m) (k : Nat) :
    (s.exchange L k).size = s.size := rfl

theorem size_foldl_exchange (L : Linearization α n m) (s : ActiveSet α n m) (ks : List Nat) :
    (ks.foldl (exchange L) s).size = s.size := by
  induction ks generalizing s with
  | nil => rfl
  | cons k ks ih => rw [List.foldl_cons, ih, size_exchange]

@[simp] theorem size_moveToEnd (L : Linearization α n m) (s : ActiveSet α n m) (k : Nat) :
    (s.moveToEnd L k).size = s.size := size_foldl_exchange L s _

@[simp] theorem last_moveToEnd (L : Linearization α n m) (s : ActiveSet α n m) (k : Nat) :
    (s.moveToEnd L k).last = s.last := congrArg (· - 1) (s.size_moveToEnd L k)

/-! ## Entering -/

/-- Rotates column `k + 1` of the basis into column `k`, so that of the two only the latter keeps a
component along `gradient`. The component of column `k + 1` is given if it is not zero. -/
def absorb (gradient : Vector α n) (found : ColMatrix α n n × Option α) (k : Nat) :
    ColMatrix α n n × Option α :=
  let (basis, component) := found
  let product := guardedDot (basis.col k) gradient
  match component with
  | none => (basis, nonzero? product)
  | some rest =>
    let length := Scalar.sqrt (product * product + rest * rest)
    (basis.rotateCols k (k + 1) (product / length) (rest / length), nonzero? length)

/-- Rotates the columns past the active ones until only the first of them has a component along
`gradient`, and returns that component unless it is zero. -/
def alignBasis (s : ActiveSet α n m) (gradient : Vector α n) : ColMatrix α n n × Option α :=
  (descending s.size n).foldl (absorb gradient) (s.basis, none)

/-- A dependent gradient written in the active ones: the coefficient at each active position, and
the position and multiplier ratio of the constraint whose multiplier vanishes first. -/
structure Dependence (α : Type) (n m : Nat) where
  rest : Vector α n
  coefficients : Vector α (m + 1)
  leaving : Option (Nat × α)

def Dependence.isLeast (d : Dependence α n m) (ratio : α) : Bool :=
  match d.leaving with
  | none => true
  | some (_, least) => ratio < least

def splitOff (L : Linearization α n m) (s : ActiveSet α n m) (d : Dependence α n m) (k : Nat) :
    Dependence α n m :=
  match nonzero? (guardedDot (s.basis.col k) d.rest) with
  | none => { d with coefficients := d.coefficients.setIfInBounds k 0 }
  | some product =>
    let coefficient := product / s.diagonalAt k
    let ratio := s.multiplier k / coefficient
    { rest := if k = 0 then d.rest
        else subScaled d.rest coefficient (L.gradient (s.constraintAt k))
      coefficients := d.coefficients.setIfInBounds k coefficient
      leaving :=
        if 0 < coefficient && (s.constraintAt k).val < m && d.isLeast ratio then some (k, ratio)
        else d.leaving }

def dependence (L : Linearization α n m) (s : ActiveSet α n m) (gradient : Vector α n) :
    Dependence α n m :=
  (descending 0 s.size).foldl (splitOff L s) ⟨gradient, zeroVec (m + 1), none⟩

def grow (s : ActiveSet α n m) (k : Nat) (component : α) : ActiveSet α n m :=
  let p := s.size
  (({ s with size := p + 1 }.setDiagonal p component).setMultiplier k (s.multiplier p)).setMultiplier
    p 0

def shiftMultipliers (s : ActiveSet α n m) (ratio : α) (coefficients : Vector α (m + 1)) :
    ActiveSet α n m :=
  { s with
    multipliers := Vector.ofFn fun k =>
      if k.val < s.size then larger 0 (s.multipliers.get k - ratio * coefficients.get k)
      else s.multipliers.get k }

def placeLast (s : ActiveSet α n m) (k : Nat) : ActiveSet α n m :=
  let entering := s.constraintAt k
  { s with
    order := (s.order.setIfInBounds k (s.constraintAt s.last)).setIfInBounds s.last entering }

/-- Lets the constraint at the inactive position `k` into the active set. If its gradient depends on
the active ones it takes the place of one of them; the answer is `false` with what was done so far
if none can leave, or if none of the new gradient remains without it. -/
def enter (L : Linearization α n m) (s : ActiveSet α n m) (k : Nat) : Bool × ActiveSet α n m :=
  let gradient := L.gradient (s.constraintAt k)
  let (basis, component) := s.alignBasis gradient
  let s := { s with basis }
  match component with
  | some x => (true, (s.grow k x).placeLast k)
  | none =>
    let d := s.dependence L gradient
    match d.leaving with
    | none => (false, s)
    | some (position, ratio) =>
      let s := (s.shiftMultipliers ratio d.coefficients).moveToEnd L position
      match nonzero? (dot (s.basis.col s.last) gradient) with
      | none => (false, s)
      | some own =>
        let s := ((s.setDiagonal s.last own).setMultiplier k 0).setMultiplier s.last ratio
        (true, s.placeLast k)

def leave (L : Linearization α n m) (s : ActiveSet α n m) (k : Nat) : ActiveSet α n m :=
  let s := s.moveToEnd L k
  { s with size := s.size - 1 }

@[simp] theorem size_grow (s : ActiveSet α n m) (k : Nat) (x : α) :
    (s.grow k x).size = s.size + 1 := rfl

@[simp] theorem size_leave (L : Linearization α n m) (s : ActiveSet α n m) (k : Nat) :
    (s.leave L k).size = s.size - 1 := by
  simp [leave]

/-! ## Multipliers of a step -/

def multipliersAt (L : Linearization α n m) (s : ActiveSet α n m) (target : Vector α n) :
    Vector α (m + 1) :=
  ((descending 0 s.size).foldl (fun (rest, multipliers) k =>
    let multiplier := guardedDot (s.basis.col k) rest / s.diagonalAt k
    (if k = 0 then rest else subScaled rest multiplier (L.gradient (s.constraintAt k)),
      multipliers.setIfInBounds k multiplier)) (target, zeroVec (m + 1))).2

end

end ActiveSet

end TrustSimplex
