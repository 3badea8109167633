import TrustSimplex.TrustRegion.Stage

/-!
# The step of linear models

`Linearization.solveWithin` seeks a step within a radius that has the least greatest violation and,
among those, the best objective. A stage is a run of passes; it gives up at the third pass in a row
that finds neither the value of the stage improved nor the active set wider. The passes are bounded
by fuel: `none` says that it ran out, and `solveWithin_of_le` that more fuel changes no answer.
-/

namespace TrustSimplex

/-- A step, and whether no degeneracy kept it from the boundary. -/
structure Step (α : Type) (n : Nat) where
  move : Vector α n
  isFull : Bool

/-! ## Progress of a stage -/

/-- The best value a stage has seen, the widest active set since then, and the passes that it may
still make without progress. -/
structure Progress (α : Type) where
  record : α
  widest : Nat
  patience : Nat

/-- Counts a pass that starts with the given value and active set; the first one has no count before
it. The answer is `none` if the stage gives up. -/
def Progress.count? {α : Type} [Scalar α] (before : Option (Progress α)) (value : α) (size : Nat) :
    Option (Progress α) :=
  match before with
  | none => some ⟨value, size, 3⟩
  | some p =>
    if value < p.record then some ⟨value, size, 3⟩
    else if p.widest < size then some { p with widest := size, patience := 3 }
    else if p.patience ≤ 1 then none
    else some { p with patience := p.patience - 1 }

/-! ## Passes -/

/-- The state at the top of a pass: the draft, the position that is to enter or leave the active
set, and the progress before. -/
structure Pass (α : Type) (n m : Nat) where
  draft : Draft α n m
  position : Nat
  progress : Option (Progress α)

inductive PassResult (α : Type) (n m : Nat) where
  | next (pass : Pass α n m)
  | ended (how : StageEnd) (draft : Draft α n m)

def PassResult.draft {α : Type} {n m : Nat} : PassResult α n m → Draft α n m
  | .next q => q.draft
  | .ended _ d => d

section
variable {α : Type} [Scalar α] {n m : Nat}

namespace Pass

def value (L : Linearization α n m) (stage : Stage) (p : Pass α n m) : α :=
  match stage with
  | .feasibility => p.draft.violation
  | .optimality => -dot p.draft.step (L.gradient (Fin.last m))

def change (L : Linearization α n m) (stage : Stage) (p : Pass α n m) : Bool × Draft α n m :=
  if p.position < p.draft.active.size then (true, p.draft.remove L stage p.position)
  else p.draft.add L stage p.position

def run (L : Linearization α n m) (radius : α) (stage : Stage) (p : Pass α n m) :
    PassResult α n m :=
  match Progress.count? p.progress (p.value L stage) p.draft.active.size with
  | none => .ended .stalled p.draft
  | some progress =>
    match p.change L stage with
    | (false, d) => .ended .stalled d
    | (true, d) =>
      match d.advance L radius stage with
      | (.blocked k, d) => .next ⟨d, k, some progress⟩
      | (.ended how, d) => .ended how d

def runWithin (L : Linearization α n m) (radius : α) (stage : Stage) :
    Pass α n m → Nat → Option (StageEnd × Draft α n m)
  | _, 0 => none
  | p, fuel + 1 =>
    match p.run L radius stage with
    | .ended how d => some (how, d)
    | .next q => q.runWithin L radius stage fuel

theorem runWithin_of_le (L : Linearization α n m) (radius : α) (stage : Stage) {p : Pass α n m}
    {fuel more : Nat} (h : fuel ≤ more) {r : StageEnd × Draft α n m}
    (hr : p.runWithin L radius stage fuel = some r) : p.runWithin L radius stage more = some r := by
  induction fuel generalizing p more with
  | zero => cases hr
  | succ fuel ih =>
    cases more with
    | zero => exact absurd h (Nat.not_succ_le_zero fuel)
    | succ more =>
      unfold runWithin at hr ⊢
      split at hr
      · exact hr
      · exact ih (Nat.le_of_succ_le_succ h) hr

end Pass

/-! ## The two stages -/

namespace Linearization

def mostViolated (L : Linearization α n m) : Option (Fin m) × α :=
  Fin.foldl m (fun (found, worst) k =>
    let b := L.bounds.get k.castSucc
    if worst < b then (some k, b) else (found, worst)) (none, 0)

def firstDraft (L : Linearization α n m) : Draft α n m :=
  let violation := L.mostViolated.2
  { active := { ActiveSet.empty n m with
      multipliers := Vector.ofFn fun k =>
        if k = Fin.last m then 0 else violation - L.bounds.get k }
    step := zeroVec n
    direction := zeroVec n
    violation := violation }

def openOptimality (d : Draft α n m) : Pass α n m :=
  let s := d.active
  ⟨{ d with active := { s with
      order := s.order.setIfInBounds m (Fin.last m)
      multipliers := s.multipliers.setIfInBounds m 0 } }, m, none⟩

def optimizeWithin (L : Linearization α n m) (radius : α) (d : Draft α n m) (fuel : Nat) :
    Option (Step α n) :=
  match (openOptimality d).runWithin L radius .optimality fuel with
  | none => none
  | some (how, d) => some ⟨d.step, how != .stalled⟩

/-- The step of the two stages. A first stage that ends at the boundary leaves nothing to the
second. -/
def solveWithin (L : Linearization α n m) (radius : α) (fuel : Nat) : Option (Step α n) :=
  match L.mostViolated.1 with
  | none => L.optimizeWithin radius L.firstDraft fuel
  | some k =>
    match (⟨L.firstDraft, k, none⟩ : Pass α n m).runWithin L radius .feasibility fuel with
    | none => none
    | some (.boundary, d) => some ⟨d.step, true⟩
    | some (_, d) => L.optimizeWithin radius d fuel

theorem optimizeWithin_of_le (L : Linearization α n m) (radius : α) (d : Draft α n m)
    {fuel more : Nat} (h : fuel ≤ more) {s : Step α n}
    (hs : L.optimizeWithin radius d fuel = some s) : L.optimizeWithin radius d more = some s := by
  unfold optimizeWithin at hs ⊢
  split at hs
  · cases hs
  · next hr =>
    rw [Pass.runWithin_of_le L radius .optimality h hr]
    exact hs

theorem solveWithin_of_le (L : Linearization α n m) (radius : α) {fuel more : Nat}
    (h : fuel ≤ more) {s : Step α n} (hs : L.solveWithin radius fuel = some s) :
    L.solveWithin radius more = some s := by
  unfold solveWithin at hs ⊢
  split at hs
  · exact L.optimizeWithin_of_le radius _ h hs
  · split at hs
    · cases hs
    · next hr =>
      rw [Pass.runWithin_of_le L radius .feasibility h hr]
      exact hs
    · next how d hend hr =>
      rw [Pass.runWithin_of_le L radius .feasibility h hr]
      cases how with
      | boundary => exact absurd rfl hend
      | feasible => exact L.optimizeWithin_of_le radius d h hs
      | stalled => exact L.optimizeWithin_of_le radius d h hs

end Linearization

end

def doubleCount : Nat := 1 <<< 64

/-- Passes enough for any stage on doubles: each value a stage records is below the one before, and
between two records there are at most `3 * n + 2` passes. -/
def passLimit (n : Nat) : Nat := (3 * n + 3) * doubleCount

def Linearization.solve {α : Type} [Scalar α] {n m : Nat} (L : Linearization α n m) (radius : α) :
    Option (Step α n) :=
  L.solveWithin radius (passLimit n)

end TrustSimplex
