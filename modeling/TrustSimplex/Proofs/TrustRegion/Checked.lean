import TrustSimplex.Proofs.TrustRegion.Heading

/-!
# Checked steps

The search for a step with every position checked against the vector that it reads or writes, and every count before it is
lowered. The divisors of the factorization and of the multiplier loops, and the values that are clamped at zero, are put to
tests of their own. The search goes on exactly as without checks until one of them fails.
-/

namespace TrustSimplex

inductive Fault where
  | position
  | count
  | divisor
  | clamp

/-- Tests of the values that are divided by and of those that are clamped at zero. -/
structure Checks (α : Type) where
  divisor : α → Bool
  clamp : α → Bool

def Checks.accepts {α : Type} (checks : Checks α) : Fault → α → Bool
  | .divisor, x => checks.divisor x
  | .clamp, x => checks.clamp x
  | _, _ => true

namespace Checked

section
variable {β : Type} {size : Nat}

def read (v : Vector β size) (k : Nat) : Except Fault β :=
  if h : k < size then .ok v[k] else .error .position

def write (v : Vector β size) (k : Nat) (x : β) : Except Fault (Vector β size) :=
  if k < size then .ok (v.setIfInBounds k x) else .error .position

def swap (v : Vector β size) (k l : Nat) : Except Fault (Vector β size) :=
  if k < size ∧ l < size then .ok (v.swapIfInBounds k l) else .error .position

def mapBetween (low high : Nat) (f : Nat → β → Except Fault β) (v : Vector β size) : Except Fault (Vector β size) :=
  (List.range' low (high - low)).foldlM (fun v k => do write v k (← f k (← read v k))) v

def pred : Nat → Except Fault Nat
  | 0 => .error .count
  | k + 1 => .ok k

end

section
variable {α : Type} [Scalar α] {n m : Nat} (checks : Checks α)

def quotient (x y : α) : Except Fault α := if checks.divisor y then .ok (x / y) else .error .divisor

def clamp (x : α) : Except Fault α := if checks.clamp x then .ok (larger 0 x) else .error .clamp

/-! ## Active sets -/

def rotateCols (A : ColMatrix α n n) (k l : Nat) (c s : α) : Except Fault (ColMatrix α n n) := do
  let z ← read A.columns k
  let w ← read A.columns l
  let columns ← write A.columns k (z.zipWith (fun x y => c * x + s * y) w)
  let columns ← write columns l (z.zipWith (fun x y => c * y - s * x) w)
  return ⟨columns⟩

def exchangeCols (A : ColMatrix α n n) (k l : Nat) (c s : α) : Except Fault (ColMatrix α n n) := do
  let z ← read A.columns k
  let w ← read A.columns l
  let columns ← write A.columns k (z.zipWith (fun x y => c * y + s * x) w)
  let columns ← write columns l (z.zipWith (fun x y => c * x - s * y) w)
  return ⟨columns⟩

def absorb (gradient : Vector α n) (found : ColMatrix α n n × Option α) (k : Nat) :
    Except Fault (ColMatrix α n n × Option α) := do
  let (basis, component) := found
  let z ← read basis.columns k
  let product := guardedDot z gradient
  match component with
  | none => return (basis, nonzero? product)
  | some rest =>
    let length := Scalar.sqrt (product * product + rest * rest)
    let cosine ← quotient checks product length
    let sine ← quotient checks rest length
    return (← rotateCols basis k (k + 1) cosine sine, nonzero? length)

def alignBasis (s : ActiveSet α n m) (gradient : Vector α n) : Except Fault (ColMatrix α n n × Option α) :=
  (descending s.size n).foldlM (absorb checks gradient) (s.basis, none)

def shiftMultipliers (s : ActiveSet α n m) (ratio : α) (coefficients : Vector α (m + 1)) :
    Except Fault (ActiveSet α n m) := do
  let multipliers ← mapBetween 0 s.size
    (fun k x => do clamp checks (x - ratio * (← read coefficients k))) s.multipliers
  return { s with multipliers }

def grow (s : ActiveSet α n m) (k : Nat) (component : α) : Except Fault (ActiveSet α n m) := do
  let diagonal ← write s.diagonal s.size component
  let shifted ← read s.multipliers s.size
  let multipliers ← write s.multipliers k shifted
  let multipliers ← write multipliers s.size 0
  return { s with size := s.size + 1, diagonal, multipliers }

def placeLast (s : ActiveSet α n m) (k : Nat) : Except Fault (ActiveSet α n m) := do
  let entering ← read s.order k
  let last ← pred s.size
  let order ← write s.order k (← read s.order last)
  let order ← write order last entering
  return { s with order }

variable (L : Linearization α n m)

def exchange (s : ActiveSet α n m) (k : Nat) : Except Fault (ActiveSet α n m) := do
  let z ← read s.basis.columns k
  let product := dot z (L.gradient (← read s.order (k + 1)))
  let own ← read s.diagonal (k + 1)
  let length := Scalar.sqrt (product * product + own * own)
  let cosine ← quotient checks own length
  let sine ← quotient checks product length
  let diagonal ← write s.diagonal (k + 1) (cosine * (← read s.diagonal k))
  let diagonal ← write diagonal k length
  let basis ← exchangeCols s.basis k (k + 1) cosine sine
  let order ← swap s.order k (k + 1)
  let multipliers ← swap s.multipliers k (k + 1)
  return { s with basis, diagonal, order, multipliers }

def moveToEnd (s : ActiveSet α n m) (k : Nat) : Except Fault (ActiveSet α n m) := do
  let last ← pred s.size
  (List.range' k (last - k)).foldlM (exchange checks L) s

def splitOff (s : ActiveSet α n m) (d : ActiveSet.Dependence α n m) (k : Nat) :
    Except Fault (ActiveSet.Dependence α n m) := do
  let z ← read s.basis.columns k
  match nonzero? (guardedDot z d.rest) with
  | none => return { d with coefficients := ← write d.coefficients k 0 }
  | some product =>
    let coefficient ← quotient checks product (← read s.diagonal k)
    let c ← read s.order k
    let leaving ← if 0 < coefficient && c.val < m then do
        let ratio ← quotient checks (← read s.multipliers k) coefficient
        pure (if d.isLeast ratio then some (k, ratio) else d.leaving)
      else pure d.leaving
    return {
      rest := if k = 0 then d.rest else subScaled d.rest coefficient (L.gradient c)
      coefficients := ← write d.coefficients k coefficient
      leaving }

def dependence (s : ActiveSet α n m) (gradient : Vector α n) : Except Fault (ActiveSet.Dependence α n m) :=
  (descending 0 s.size).foldlM (splitOff checks L s) ⟨gradient, zeroVec (m + 1), none⟩

def enter (s : ActiveSet α n m) (k : Nat) : Except Fault (Bool × ActiveSet α n m) := do
  let gradient := L.gradient (← read s.order k)
  let (basis, component) ← alignBasis checks s gradient
  let s := { s with basis }
  match component with
  | some x => return (true, ← placeLast (← grow s k x) k)
  | none =>
    let d ← dependence checks L s gradient
    match d.leaving with
    | none => return (false, s)
    | some (position, ratio) =>
      let s ← moveToEnd checks L (← shiftMultipliers checks s ratio d.coefficients) position
      let last ← pred s.size
      match nonzero? (dot (← read s.basis.columns last) gradient) with
      | none => return (false, s)
      | some own =>
        let diagonal ← write s.diagonal last own
        let multipliers ← write s.multipliers k 0
        let multipliers ← write multipliers last ratio
        return (true, ← placeLast { s with diagonal, multipliers } k)

def leave (s : ActiveSet α n m) (k : Nat) : Except Fault (ActiveSet α n m) := do
  let s ← moveToEnd checks L s k
  return { s with size := ← pred s.size }

def multipliersOf (s : ActiveSet α n m) (target : Vector α n) : Except Fault (Vector α (m + 1)) := do
  let found ← (descending 0 s.size).foldlM (fun (rest, multipliers) k => do
    let z ← read s.basis.columns k
    let multiplier ← quotient checks (guardedDot z rest) (← read s.diagonal k)
    let c ← read s.order k
    let multipliers ← write multipliers k multiplier
    return (if k = 0 then rest else subScaled rest multiplier (L.gradient c), multipliers))
    (target, zeroVec (m + 1))
  return found.2

/-! ## Drafts -/

def objectiveDirection (d : Draft α n m) : Except Fault (Draft α n m) := do
  let last ← pred d.active.size
  let scale ← quotient checks 1 (← read d.active.diagonal last)
  return { d with direction := scaleVec scale (← read d.active.basis.columns last) }

def add (stage : Stage) (d : Draft α n m) (k : Nat) : Except Fault (Bool × Draft α n m) := do
  let entering ← read d.active.order k
  match ← enter checks L d.active k with
  | (false, s) => return (false, { d with active := s })
  | (true, s) =>
    match stage with
    | .feasibility =>
      let last ← pred s.size
      let excess ← quotient checks (dot d.direction (L.gradient entering) - 1) (← read s.diagonal last)
      return (true, { d with
        active := s
        direction := subScaled d.direction excess (← read s.basis.columns last) })
    | .optimality =>
      let s ← if entering = Fin.last m then pure s else do
        exchange checks L s (← pred (← pred s.size))
      return (true, ← objectiveDirection checks { d with active := s })

def remove (stage : Stage) (d : Draft α n m) (k : Nat) : Except Fault (Draft α n m) := do
  let s ← leave checks L d.active k
  match stage with
  | .feasibility =>
    let freed ← read s.basis.columns s.size
    return { d with
      active := s
      direction := subScaled d.direction (dot d.direction freed) freed }
  | .optimality => objectiveDirection checks { d with active := s }

def activeViolation (d : Draft α n m) (target : Vector α n) : Except Fault α :=
  (List.range d.active.size).foldlM
    (fun worst k => do return larger worst (L.residual (← read d.active.order k) target)) 0

def multipliersAt (stage : Stage) (d : Draft α n m) (violation : α) (target : Vector α n) :
    Except Fault (Vector α (m + 1)) := do
  let s := d.active
  let active ← multipliersOf checks L s target
  let active ← match stage with
    | .feasibility => pure active
    | .optimality => do
      let last ← pred s.size
      write active last (← clamp checks (← read active last))
  mapBetween s.size (stage.width m)
    (fun k _ => do return Draft.shiftedResidual L violation target (← read s.order k)) active

def fraction (s : ActiveSet α n m) (next : Vector α (m + 1)) (width : Nat) : Except Fault (α × Option Nat) :=
  (List.range width).foldlM (fun (ratio, blocked) k => do
    let goal ← read next k
    if goal < 0 then
      let held ← read s.multipliers k
      let part ← quotient checks held (held - goal)
      return if part < ratio then (part, some k) else (ratio, blocked)
    else return (ratio, blocked)) (1, none)

def moveTowards (stage : Stage) (d : Draft α n m) (ratio : α) (target : Vector α n) (next : Vector α (m + 1))
    (violation : α) : Except Fault (Draft α n m) := do
  let keep := 1 - ratio
  let multipliers ← mapBetween 0 (stage.width m)
    (fun k x => do clamp checks (keep * x + ratio * (← read next k))) d.active.multipliers
  return { d.moveTowards stage ratio target next violation with active := { d.active with multipliers } }

def headFor (stage : Stage) (d : Draft α n m) (t v : α) (how : StageEnd) : Except Fault (Advance × Draft α n m) := do
  let next ← multipliersAt checks L stage d v (d.targetAt t)
  let (ratio, blocked) ← fraction checks d.active next (stage.width m)
  let moved ← moveTowards checks stage d ratio (d.targetAt t) next v
  match blocked with
  | some k => return (.blocked k, moved)
  | none => return (.ended how, moved)

def advance (radius : α) (stage : Stage) (d : Draft α n m) : Except Fault (Advance × Draft α n m) := do
  match d.boundaryLength? radius with
  | none => return (.ended .stalled, d)
  | some full =>
    if stage = .feasibility ∧ snapToZero d.violation full == 0 then return (.ended .feasible, d)
    else
      let length := match stage with
        | .feasibility => smaller full d.violation
        | .optimality => full
      let violation ← match stage with
        | .feasibility => activeViolation L d (d.targetAt length)
        | .optimality => pure d.violation
      headFor checks L stage d length violation (if length == full then .boundary else .feasible)

/-! ## Passes -/

def change (stage : Stage) (p : Pass α n m) : Except Fault (Bool × Draft α n m) := do
  if p.position < p.draft.active.size then return (true, ← remove checks L stage p.draft p.position)
  else add checks L stage p.draft p.position

def run (radius : α) (stage : Stage) (p : Pass α n m) : Except Fault (PassResult α n m) := do
  match Progress.count? p.progress (p.value L stage) p.draft.active.size with
  | none => return .ended .stalled p.draft
  | some progress =>
    match ← change checks L stage p with
    | (false, d) => return .ended .stalled d
    | (true, d) =>
      match ← advance checks L radius stage d with
      | (.blocked k, d) => return .next ⟨d, k, some progress⟩
      | (.ended how, d) => return .ended how d

def runWithin (radius : α) (stage : Stage) : Pass α n m → Nat → Except Fault (Option (StageEnd × Draft α n m))
  | _, 0 => return none
  | p, fuel + 1 => do
    match ← run checks L radius stage p with
    | .ended how d => return some (how, d)
    | .next q => runWithin radius stage q fuel

/-! ## The two stages -/

def openOptimality (d : Draft α n m) : Except Fault (Pass α n m) := do
  let order ← write d.active.order m (Fin.last m)
  let multipliers ← write d.active.multipliers m 0
  return ⟨{ d with active := { d.active with order, multipliers } }, m, none⟩

def optimizeWithin (radius : α) (d : Draft α n m) (fuel : Nat) : Except Fault (Option (Step α n)) := do
  match ← runWithin checks L radius .optimality (← openOptimality d) fuel with
  | none => return none
  | some (how, d) => return some ⟨d.step, how != .stalled⟩

def solveWithin (radius : α) (fuel : Nat) : Except Fault (Option (Step α n)) := do
  match L.mostViolated.1 with
  | none => optimizeWithin checks L radius L.firstDraft fuel
  | some k =>
    match ← runWithin checks L radius .feasibility ⟨L.firstDraft, k, none⟩ fuel with
    | none => return none
    | some (.boundary, d) => return some ⟨d.step, true⟩
    | some (_, d) => optimizeWithin checks L radius d fuel

end

end Checked

end TrustSimplex
