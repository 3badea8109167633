import TrustSimplex.TrustRegion.ActiveSet

/-!
# One pass of a stage

A step of linear models within a radius is found in two stages. The first lowers the greatest
violation, the second improves the objective while that violation stays. The objective is one more
constraint that the second stage adds, so one pass serves both: a constraint enters or leaves the
active set, and the step is taken along the direction that follows until it meets the boundary, has
no violation left, or a multiplier or residual would change sign.
-/

namespace TrustSimplex

inductive Stage where
  | feasibility
  | optimality
deriving DecidableEq

def Stage.width (m : Nat) : Stage → Nat
  | .feasibility => m
  | .optimality => m + 1

theorem Stage.width_le {stage : Stage} {m : Nat} : stage.width m ≤ m + 1 := by
  cases stage with
  | feasibility => exact Nat.le_succ m
  | optimality => exact Nat.le_refl _

inductive StageEnd where
  | boundary
  | feasible
  | stalled
deriving DecidableEq

/-- A step under construction, the direction it grows in, and its greatest violation. -/
structure Draft (α : Type) (n m : Nat) where
  active : ActiveSet α n m
  step : Vector α n
  direction : Vector α n
  violation : α

inductive Advance where
  | blocked (position : Nat)
  | ended (how : StageEnd)

namespace Draft

section
variable {α : Type} [Scalar α] {n m : Nat}

/-! ## Changing the active set -/

def objectiveDirection (d : Draft α n m) : Draft α n m :=
  let s := d.active
  { d with direction := scaleVec (1 / s.diagonalAt s.last) (s.basis.col s.last) }

/-- Lets the constraint at position `k` enter; the answer is `false` if it cannot. In the second
stage the objective stays last. -/
def add (L : Linearization α n m) (stage : Stage) (d : Draft α n m) (k : Nat) :
    Bool × Draft α n m :=
  let entering := d.active.constraintAt k
  match d.active.enter L k with
  | (false, s) => (false, { d with active := s })
  | (true, s) =>
    match stage with
    | .feasibility =>
      let excess := (dot d.direction (L.gradient entering) - 1) / s.diagonalAt s.last
      (true, { d with
        active := s
        direction := subScaled d.direction excess (s.basis.col s.last) })
    | .optimality =>
      let s := if entering = Fin.last m then s else s.exchange L (s.last - 1)
      (true, { d with active := s }.objectiveDirection)

def remove (L : Linearization α n m) (stage : Stage) (d : Draft α n m) (k : Nat) : Draft α n m :=
  let s := d.active.leave L k
  match stage with
  | .feasibility =>
    let freed := s.basis.col s.size
    { d with
      active := s
      direction := subScaled d.direction (dot d.direction freed) freed }
  | .optimality => { d with active := s }.objectiveDirection

/-! ## Taking the step -/

/-- The length along the direction at which the step meets the boundary, if it is inside.

Entries below a millionth of the radius and inner products below a millionth of their bound are left
out. -/
def boundaryLength? (radius : α) (d : Draft α n m) : Option α :=
  let room := Fin.foldl n (fun room i =>
    if 1e-6 * radius ≤ Scalar.abs (d.step.get i) then room - d.step.get i * d.step.get i else room)
    (radius * radius)
  let along := Fin.foldl n (fun sum i => sum + d.step.get i * d.direction.get i) 0
  let square := Fin.foldl n (fun sum i => sum + d.direction.get i * d.direction.get i) 0
  if room ≤ 0 then none
  else
    let root := Scalar.sqrt (square * room)
    let root := if 1e-6 * root ≤ Scalar.abs along then Scalar.sqrt (square * room + along * along)
      else root
    some (room / (root + along))

def activeViolation (L : Linearization α n m) (d : Draft α n m) (target : Vector α n) : α :=
  (List.range d.active.size).foldl
    (fun worst k => larger worst (L.residual (d.active.constraintAt k) target)) 0

def shiftedResidual (L : Linearization α n m) (violation : α) (target : Vector α n)
    (k : Fin (m + 1)) : α :=
  let gradient := L.gradient k
  let (total, magnitude) := Fin.foldl n (fun (total, magnitude) i =>
    let term := gradient.get i * target.get i
    (total + term, magnitude + Scalar.abs term))
    (violation - L.bounds.get k, violation + Scalar.abs (L.bounds.get k))
  snapToZero total magnitude

def multipliersAt (L : Linearization α n m) (stage : Stage) (d : Draft α n m) (violation : α)
    (target : Vector α n) : Vector α (m + 1) :=
  let s := d.active
  let active := s.multipliersAt L target
  let active := match stage with
    | .feasibility => active
    | .optimality => active.setIfInBounds s.last (larger 0 (active.getD s.last 0))
  Vector.ofFn fun k =>
    if k.val < s.size then active.get k
    else if k.val < stage.width m then shiftedResidual L violation target (s.constraintAt k)
    else active.get k

/-- The fraction of the way from the present multipliers to `next` on which none of the first
`width` changes sign, and the position that limits it. -/
def fraction (s : ActiveSet α n m) (next : Vector α (m + 1)) (width : Nat) : α × Option Nat :=
  (List.range width).foldl (fun (ratio, blocked) k =>
    let goal := next.getD k 0
    if goal < 0 then
      let part := s.multiplier k / (s.multiplier k - goal)
      if part < ratio then (part, some k) else (ratio, blocked)
    else (ratio, blocked)) (1, none)

theorem fraction_succ (s : ActiveSet α n m) (next : Vector α (m + 1)) (width : Nat) :
    fraction s next (width + 1) = if next.getD width 0 < 0 then
        if s.multiplier width / (s.multiplier width - next.getD width 0) < (fraction s next width).1 then
          (s.multiplier width / (s.multiplier width - next.getD width 0), some width)
        else fraction s next width
      else fraction s next width := by
  unfold fraction
  rw [List.range_succ, List.foldl_append]
  rfl

def moveTowards (stage : Stage) (d : Draft α n m) (ratio : α) (target : Vector α n)
    (next : Vector α (m + 1)) (violation : α) : Draft α n m :=
  let keep := 1 - ratio
  { d with
    step := d.step.zipWith (fun x t => keep * x + ratio * t) target
    active := { d.active with
      multipliers := Vector.ofFn fun k =>
        if k.val < stage.width m then
          larger 0 (keep * d.active.multipliers.get k + ratio * next.get k)
        else d.active.multipliers.get k }
    violation := match stage with
      | .feasibility => d.violation + ratio * (violation - d.violation)
      | .optimality => d.violation }

/-- Steps along the direction to the boundary, or in the first stage to where no violation is left,
but stops where a multiplier or a residual would turn negative. -/
def advance (L : Linearization α n m) (radius : α) (stage : Stage) (d : Draft α n m) :
    Advance × Draft α n m :=
  match d.boundaryLength? radius with
  | none => (.ended .stalled, d)
  | some full =>
    if stage = .feasibility ∧ snapToZero d.violation full == 0 then (.ended .feasible, d)
    else
      let length := match stage with
        | .feasibility => smaller full d.violation
        | .optimality => full
      let target := d.step.zipWith (fun x s => x + length * s) d.direction
      let violation := match stage with
        | .feasibility => d.activeViolation L target
        | .optimality => d.violation
      let next := d.multipliersAt L stage violation target
      let (ratio, blocked) := fraction d.active next (stage.width m)
      let moved := d.moveTowards stage ratio target next violation
      match blocked with
      | some k => (.blocked k, moved)
      | none => (.ended (if length == full then .boundary else .feasible), moved)

end

end Draft

end TrustSimplex
