import TrustSimplex.Proofs.TrustRegion.Order
import TrustSimplex.TrustRegion.Step

/-!
# Where an advance heads

An advance that does not end at once heads for the target at some length, and takes as much of the way as no multiplier and
no residual turns negative on. It leaves the order, the number and the diagonal of the active constraints alone.
-/

namespace TrustSimplex.Draft

section
variable {α : Type} [Scalar α] {n m : Nat} {L : Linearization α n m} {radius t v : α} {stage : Stage} {d : Draft α n m}

def targetAt (d : Draft α n m) (t : α) : Vector α n :=
  d.step.zipWith (fun x s => x + t * s) d.direction

def headFor (L : Linearization α n m) (stage : Stage) (d : Draft α n m) (t v : α) (how : StageEnd) :
    Advance × Draft α n m :=
  let next := d.multipliersAt L stage v (d.targetAt t)
  let (ratio, blocked) := fraction d.active next (stage.width m)
  let moved := d.moveTowards stage ratio (d.targetAt t) next v
  match blocked with
  | some k => (.blocked k, moved)
  | none => (.ended how, moved)

theorem headFor_snd (d : Draft α n m) (t v : α) (how : StageEnd) : (d.headFor L stage t v how).2 =
    d.moveTowards stage (fraction d.active (d.multipliersAt L stage v (d.targetAt t)) (stage.width m)).1 (d.targetAt t)
      (d.multipliersAt L stage v (d.targetAt t)) v := by
  unfold headFor
  dsimp only
  split <;> rfl

theorem fraction_of_headFor {k : Nat} {how : StageEnd} (h : (d.headFor L stage t v how).1 = .blocked k) :
    (fraction d.active (d.multipliersAt L stage v (d.targetAt t)) (stage.width m)).2 = some k := by
  unfold headFor at h
  dsimp only at h
  split at h
  · next hfound =>
    cases h
    exact hfound
  · cases h

inductive Heads (L : Linearization α n m) (radius : α) (d : Draft α n m) : Stage → α → α → Prop
  | feasibility {full : α} (hfull : d.boundaryLength? radius = some full)
      (hgo : ¬ (snapToZero d.violation full == 0) = true) :
      Heads L radius d .feasibility (smaller full d.violation)
        (d.activeViolation L (d.targetAt (smaller full d.violation)))
  | optimality {full : α} (hfull : d.boundaryLength? radius = some full) :
      Heads L radius d .optimality full d.violation

theorem advance_cases (L : Linearization α n m) (radius : α) (stage : Stage) (d : Draft α n m) :
    (∃ how, d.advance L radius stage = (.ended how, d)) ∨
      ∃ t v how, d.Heads L radius stage t v ∧ d.advance L radius stage = d.headFor L stage t v how := by
  unfold advance
  cases hfull : d.boundaryLength? radius with
  | none => exact Or.inl ⟨_, rfl⟩
  | some full =>
    dsimp only
    split
    · exact Or.inl ⟨_, rfl⟩
    · next hgo =>
      cases stage with
      | feasibility => exact Or.inr ⟨_, _, _, .feasibility hfull fun hstop => hgo ⟨rfl, hstop⟩, rfl⟩
      | optimality => exact Or.inr ⟨_, _, _, .optimality hfull, rfl⟩

theorem advance_keeps (L : Linearization α n m) (radius : α) (stage : Stage) (d : Draft α n m) :
    (d.advance L radius stage).2.active.order = d.active.order ∧
      (d.advance L radius stage).2.active.size = d.active.size ∧
      (d.advance L radius stage).2.active.diagonal = d.active.diagonal := by
  rcases advance_cases L radius stage d with ⟨how, e⟩ | ⟨t, v, how, -, e⟩
  · rw [e]
    exact ⟨rfl, rfl, rfl⟩
  · rw [e, headFor_snd]
    exact ⟨rfl, rfl, rfl⟩

theorem fraction_blocked (s : ActiveSet α n m) (next : Vector α (m + 1)) {k : Nat} :
    ∀ width : Nat, (fraction s next width).2 = some k → k < width ∧ next.getD k 0 < 0
  | 0, h => nomatch h
  | width + 1, h => by
    have earlier : (fraction s next width).2 = some k → k < width + 1 ∧ next.getD k 0 < 0 :=
      fun h => (fraction_blocked s next width h).imp_left Nat.lt_succ_of_lt
    rw [fraction_succ] at h
    split at h
    · next hneg =>
      split at h
      · cases h
        exact ⟨Nat.lt_succ_self k, hneg⟩
      · exact earlier h
    · exact earlier h

/-- The multiplier of the objective is clamped at zero. -/
theorem multipliersAt_last (d : Draft α n m) (v : α) (target : Vector α n) (hpos : 0 < d.active.size)
    (hm : d.active.size ≤ m + 1) : (d.multipliersAt L .optimality v target).getD d.active.last 0 =
      larger 0 ((d.active.multipliersAt L target).getD d.active.last 0) := by
  have hlt := ActiveSet.last_lt hpos
  have hlm : d.active.last < m + 1 := by omega
  unfold multipliersAt
  dsimp only
  rw [getD_eq (Vector.ofFn _), dif_pos hlm, Vector.getElem_ofFn, if_pos hlt]
  exact Vector.getElem_setIfInBounds_self hlm

end

end TrustSimplex.Draft
