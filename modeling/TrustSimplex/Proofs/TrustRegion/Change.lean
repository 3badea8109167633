import TrustSimplex.Proofs.TrustRegion.Balance
import TrustSimplex.TrustRegion.Step

/-!
# Changing the active set of a draft

A draft is sound if its multipliers are in balance, and directed if its direction lowers the residuals
of the active constraints at the rate of the stage. A change of the active set keeps the step and leads
from one such draft to another; it is refused only where the gradient to enter is locked.
-/

namespace TrustSimplex

def Stage.rate (K : Type) [EuclideanField K] : Stage → K
  | .feasibility => 1
  | .optimality => 0

namespace ActiveSet

section
variable {K : Type} [EuclideanField K] {n m : Nat} {L : Linearization K n m} {s : ActiveSet K n m}
  {x : Vector K n} {v : K} {total : Fin n → K}

theorem Balanced.ne_last_of_apart (h : s.Balanced L x v total) (ha : s.ObjectiveApart) {k : Nat}
    (hk : k < m) : s.constraintAt k ≠ Fin.last m := fun e => by
  have := h.distinct k (by omega) m (Nat.lt_succ_self m) (e.trans ha.1.symm)
  omega

theorem Balanced.ne_last_of_last (h : s.Balanced L x v total) (hl : s.ObjectiveLast) {k : Nat}
    (hk : k < m + 1) (hne : k ≠ s.last) : s.constraintAt k ≠ Fin.last m := fun e =>
  hne (h.distinct k hk s.last (by have := h.factored.size_le; have := hl.1; unfold last; omega)
    (e.trans hl.2.symm))

end

end ActiveSet

namespace Draft

section
variable {K : Type} [EuclideanField K] {n m : Nat} (L : Linearization K n m)

structure Sound (d : Draft K n m) : Prop where
  balanced : d.active.Balanced L d.step d.violation (coords d.step)
  violation_nonneg : 0 ≤ d.violation

/-- The direction of a stage. In the first, all active residuals fall alike and the direction lies
in the span of the active gradients; in the second, only the objective changes. -/
def Directed : Stage → Draft K n m → Prop
  | .feasibility, d => d.active.ObjectiveApart ∧
      (∀ k < d.active.size, d.active.normal L k ⬝ᵥ coords d.direction = 1) ∧
      ∀ j, d.active.size ≤ j → d.active.axis j ⬝ᵥ coords d.direction = 0
  | .optimality, d => d.active.ObjectiveLast ∧
      coords d.direction = (1 / d.active.diagonalAt d.active.last) • d.active.axis d.active.last

variable {L} {d : Draft K n m} {stage : Stage}

theorem Directed.free (h : d.Directed L stage) (hs : d.Sound L) {j : Nat} (hj : d.active.size ≤ j) :
    d.active.axis j ⬝ᵥ coords d.direction = 0 := by
  cases stage with
  | feasibility => exact h.2.2 j hj
  | optimality =>
    obtain ⟨⟨hpos, -⟩, hdir⟩ := h
    rw [hdir, dotProduct_smul]
    have hlt := ActiveSet.last_lt hpos
    have hvars := hs.balanced.factored.size_le_vars
    rw [hs.balanced.factored.axis_dot_axis (by omega) (by omega), smul_zero]

theorem Directed.last (h : d.Directed L .optimality) (hs : d.Sound L) :
    d.active.normal L d.active.last ⬝ᵥ coords d.direction = 1 := by
  obtain ⟨⟨hpos, -⟩, hdir⟩ := h
  have hlt := ActiveSet.last_lt hpos
  rw [hdir, dotProduct_smul, dotProduct_comm, hs.balanced.factored.diagonal _ hlt, smul_eq_mul]
  exact one_div_mul_cancel (hs.balanced.factored.diagonal_ne _ hlt)

theorem Directed.slope (h : d.Directed L stage) (hs : d.Sound L) {k : Nat} (hk : k < d.active.size)
    (hobj : d.active.constraintAt k ≠ Fin.last m) :
    d.active.normal L k ⬝ᵥ coords d.direction = stage.rate K := by
  cases stage with
  | feasibility => exact h.2.1 k hk
  | optimality =>
    obtain ⟨⟨hpos, hlast⟩, hdir⟩ := h
    have hne : k ≠ d.active.last := fun e => hobj (e ▸ hlast)
    rw [hdir, dotProduct_smul, dotProduct_comm,
      hs.balanced.factored.triangular k hk _ (by unfold ActiveSet.last at hne ⊢; omega), smul_zero]
    rfl

theorem Directed.direction_ne (h : d.Directed L stage) (hs : d.Sound L) (hpos : 0 < d.active.size) :
    coords d.direction ≠ 0 := by
  have hone : ∃ k, d.active.normal L k ⬝ᵥ coords d.direction = 1 := by
    cases stage with
    | feasibility => exact ⟨0, h.2.1 0 hpos⟩
    | optimality => exact ⟨_, h.last hs⟩
  obtain ⟨k, hk⟩ := hone
  intro hzero
  rw [hzero, dotProduct_zero] at hk
  exact zero_ne_one hk

/-! ## The direction of the objective -/

theorem directed_objectiveDirection (h : d.active.ObjectiveLast) :
    d.objectiveDirection.Directed L .optimality := by
  refine ⟨h, ?_⟩
  unfold objectiveDirection
  dsimp only
  rw [coords_scaleVec]
  rfl

structure Changed (L : Linearization K n m) (stage : Stage) (d e : Draft K n m) : Prop where
  sound : e.Sound L
  directed : e.Directed L stage
  pos : 0 < e.active.size
  step : e.step = d.step
  violation : e.violation = d.violation

/-! ## Leaving -/

theorem Sound.leave (hs : d.Sound L) {k : Nat} (hk : k < d.active.size)
    (hzero : d.active.multiplier k = 0) (p : Vector K n) :
    ({ d with active := d.active.leave L k, direction := p } : Draft K n m).Sound L :=
  ⟨hs.balanced.leave hk hzero, hs.violation_nonneg⟩

theorem changed_remove_feasibility (hs : d.Sound L) (hd : d.Directed L .feasibility) {k : Nat}
    (hk : k < d.active.size) (hsize : 1 < d.active.size) (hzero : d.active.multiplier k = 0) :
    Changed L .feasibility d (d.remove L .feasibility k) := by
  obtain ⟨⟨hlast, hle⟩, hslope, hfree⟩ := hd
  have hf := hs.balanced.factored.moveToEnd (L := L) hk
  have hsm : (d.active.moveToEnd L k).size = d.active.size := d.active.size_moveToEnd L k
  have hsl : (d.active.leave L k).size = d.active.size - 1 := d.active.size_leave L k
  have hc := d.active.constraintAt_moveToEnd (L := L) hk hs.balanced.factored.size_le
  have hcycle := cycleFrom_lt_iff (ActiveSet.add_last_sub_lt hk)
  have hslope' : ∀ j < d.active.size,
      (d.active.moveToEnd L k).normal L j ⬝ᵥ coords d.direction = 1 := fun j hj => by
    rw [ActiveSet.normal, hc]
    exact hslope _ ((hcycle j).mpr hj)
  have hvars := hs.balanced.factored.size_le_vars
  -- the freed axis is the last one of the active set before
  generalize hfreed : (d.active.moveToEnd L k).axis (d.active.size - 1) = freed
  have hdir : coords (d.remove L .feasibility k).direction =
      coords d.direction - (coords d.direction ⬝ᵥ freed) • freed := by
    show coords (subScaled _ _ _) = _
    rw [coords_subScaled, dot_eq, ← hfreed, hsl]
    rfl
  have hapart : (d.active.leave L k).ObjectiveApart :=
    ActiveSet.ObjectiveApart.leave ⟨hlast, hle⟩ hs.balanced.factored.size_le hk
  refine ⟨hs.leave hk hzero _, ⟨hapart, fun j hj => ?_, fun j hj => ?_⟩, ?_, rfl, rfl⟩
  · have hj : j < (d.active.leave L k).size := hj
    rw [hdir, dotProduct_sub, dotProduct_smul]
    show (d.active.moveToEnd L k).normal L j ⬝ᵥ _ - _ • ((d.active.moveToEnd L k).normal L j ⬝ᵥ _) = _
    have hzero : (d.active.moveToEnd L k).normal L j ⬝ᵥ freed = 0 := by
      rw [dotProduct_comm, ← hfreed]
      exact hf.triangular j (by omega) _ (by omega)
    rw [hslope' j (by omega), hzero, smul_zero, sub_zero]
  · have hj : (d.active.leave L k).size ≤ j := hj
    rw [hdir, dotProduct_sub, dotProduct_smul]
    show (d.active.moveToEnd L k).axis j ⬝ᵥ _ - _ • ((d.active.moveToEnd L k).axis j ⬝ᵥ _) = _
    by_cases hjs : j = d.active.size - 1
    · subst hjs
      rw [hfreed, ← hfreed, hf.frame.dot_self (by omega), hfreed, dotProduct_comm, smul_eq_mul, mul_one,
        sub_self]
    · rw [← hfreed, hf.axis_dot_axis (by omega) hjs, d.active.axis_moveToEnd hk (by omega),
        hfree j (by omega), smul_zero, sub_zero]
  · show 0 < (d.active.leave L k).size
    omega

theorem changed_remove_optimality (hs : d.Sound L) (hd : d.active.ObjectiveLast) {k : Nat}
    (hk : k + 1 < d.active.size) (hzero : d.active.multiplier k = 0) :
    Changed L .optimality d (d.remove L .optimality k) := by
  have hlast : (d.active.leave L k).ObjectiveLast := hd.leave hs.balanced.factored.size_le hk
  exact ⟨hs.leave (by omega) hzero _, directed_objectiveDirection (d := { d with
    active := d.active.leave L k }) hlast, hlast.1, rfl, rfl⟩

/-! ## Entering -/

structure Refused (L : Linearization K n m) (d e : Draft K n m) (k : Nat) : Prop where
  sound : e.Sound L
  order : e.active.order = d.active.order
  size : e.active.size = d.active.size
  step : e.step = d.step
  violation : e.violation = d.violation
  locked : d.active.Locked L k

theorem changed_add_feasibility (hs : d.Sound L) (hd : d.Directed L .feasibility) {k : Nat}
    (hk : d.active.size ≤ k) (hkm : k < m) (hzero : d.active.multiplier k = 0) :
    (∃ e, d.add L .feasibility k = (true, e) ∧ Changed L .feasibility d e) ∨
      ∃ e, d.add L .feasibility k = (false, e) ∧ Refused L d e k := by
  obtain ⟨hapart, hslope, hfree⟩ := hd
  have hobj : ∀ j < d.active.size, d.active.constraintAt j ≠ Fin.last m := fun j hj =>
    hs.balanced.ne_last_of_apart hapart (by omega)
  unfold add
  rcases hs.balanced.enter hk (by omega) hzero fun j hj hlast => absurd hlast (hobj j hj) with
    ⟨t, ht, hbal, hent⟩ | ⟨B, hB, hbal, hlocked⟩
  · rw [ht]
    refine Or.inl ⟨_, rfl, ⟨⟨hbal, hs.violation_nonneg⟩, ⟨⟨?_, ?_⟩, fun j hj => ?_, fun j hj => ?_⟩,
      hent.pos, rfl, rfl⟩⟩
    · rw [hent.above m hkm]
      exact hapart.1
    · exact hent.size_le.trans hkm
    · have hj : j < t.size := hj
      dsimp only
      rw [coords_subScaled, dot_eq, dotProduct_sub, dotProduct_smul]
      have hlt := ActiveSet.last_lt hent.pos
      by_cases hjl : j = t.last
      · subst hjl
        have hown : t.normal L t.last ⬝ᵥ coords (t.basis.col t.last) = t.diagonalAt t.last := by
          rw [dotProduct_comm]
          exact hbal.factored.diagonal _ hlt
        rw [hown, smul_eq_mul, div_mul_cancel₀ _ (hbal.factored.diagonal_ne _ hlt), ActiveSet.normal,
          hent.entrant, dotProduct_comm]
        exact sub_sub_cancel _ _
      · obtain ⟨i, hi, hc⟩ := hent.kept j (by unfold ActiveSet.last at hjl ⊢; omega)
        have hnull : t.normal L j ⬝ᵥ coords (t.basis.col t.last) = 0 := by
          rw [dotProduct_comm]
          exact hbal.factored.triangular j hj _ (by unfold ActiveSet.last at hjl ⊢; omega)
        rw [hnull, smul_zero, sub_zero, ActiveSet.normal, hc]
        exact hslope i hi
    · have hj : t.size ≤ j := hj
      have hlt := ActiveSet.last_lt hent.pos
      have hvars := hbal.factored.size_le_vars
      dsimp only
      rw [coords_subScaled, dotProduct_sub, dotProduct_smul, hent.orthogonal _ hfree j hj]
      show 0 - _ • (t.axis j ⬝ᵥ t.axis t.last) = 0
      rw [hbal.factored.axis_dot_axis (by omega) (by omega), smul_zero, sub_zero]
  · rw [hB]
    exact Or.inr ⟨_, rfl, ⟨⟨hbal, hs.violation_nonneg⟩, rfl, rfl, rfl, rfl, hlocked⟩⟩

/-- In the second stage the constraint that enters is the objective, or one that stands in the way of
its direction. -/
def Hindered (L : Linearization K n m) (d : Draft K n m) (k : Nat) : Prop :=
  (d.active.ObjectiveApart ∧ k = m) ∨
    (d.Directed L .optimality ∧ d.active.size ≤ k ∧ k < m + 1 ∧
      d.active.normal L k ⬝ᵥ coords d.direction < 0)

theorem Hindered.lt {k : Nat} (hk : d.Hindered L k) : d.active.size ≤ k ∧ k < m + 1 := by
  rcases hk with ⟨⟨-, hle⟩, rfl⟩ | ⟨-, hle, hlt, -⟩
  · exact ⟨hle, Nat.lt_succ_self k⟩
  · exact ⟨hle, hlt⟩

/-- The objective, if it is active, is the last one and loses no weight to a constraint that is hindered. -/
theorem Hindered.objective {k : Nat} (hk : d.Hindered L k) (hs : d.Sound L) :
    ∀ j < d.active.size, d.active.constraintAt j = Fin.last m → j = d.active.last ∧
      1 / d.active.diagonalAt d.active.last *
        (d.active.axis d.active.last ⬝ᵥ d.active.normal L k) ≤ 0 := by
  intro j hj hlast
  have hm := hs.balanced.factored.size_le
  rcases hk with ⟨hapart, rfl⟩ | ⟨⟨hlast', hdir⟩, -, -, hneg⟩
  · exact absurd hlast (hs.balanced.ne_last_of_apart hapart (by have := hapart.2; omega))
  · refine ⟨by_contra fun hne => hs.balanced.ne_last_of_last hlast' (by omega) hne hlast, ?_⟩
    rw [hdir, dotProduct_comm, smul_dotProduct, smul_eq_mul] at hneg
    exact hneg.le

/-- A constraint that is hindered enters in balance, or its gradient is locked. -/
theorem Hindered.enter {k : Nat} (hk : d.Hindered L k) (hs : d.Sound L) (hzero : d.active.multiplier k = 0) :
    (∃ t, d.active.enter L k = (true, t) ∧ t.Balanced L d.step d.violation (coords d.step) ∧
        ActiveSet.Entered L d.active t k) ∨
      ∃ B, d.active.enter L k = (false, { d.active with basis := B }) ∧
        ({ d.active with basis := B } : ActiveSet K n m).Balanced L d.step d.violation (coords d.step) ∧
        d.active.Locked L k :=
  hs.balanced.enter hk.lt.1 hk.lt.2 hzero (hk.objective hs)

theorem changed_add_optimality (hs : d.Sound L) {k : Nat} (hk : d.Hindered L k)
    (hzero : d.active.multiplier k = 0) :
    (∃ e, d.add L .optimality k = (true, e) ∧ Changed L .optimality d e) ∨
      ∃ e, d.add L .optimality k = (false, e) ∧ Refused L d e k := by
  unfold add
  rcases hk.enter hs hzero with ⟨t, ht, hbal, hent⟩ | ⟨B, hB, hbal, hlocked⟩
  · rw [ht]
    dsimp only
    rcases hk with ⟨hapart, rfl⟩ | ⟨⟨hlast, -⟩, hge, hlt, -⟩
    · rw [if_pos hapart.1]
      have hlast' : t.ObjectiveLast := ⟨hent.pos, hent.entrant.trans hapart.1⟩
      exact Or.inl ⟨_, rfl, ⟨⟨hbal, hs.violation_nonneg⟩,
        directed_objectiveDirection (d := { d with active := t }) hlast', hent.pos, rfl, rfl⟩⟩
    · have hne : k ≠ d.active.last := ((ActiveSet.last_lt hlast.1).trans_le hge).ne'
      rw [if_neg (hs.balanced.ne_last_of_last hlast hlt hne)]
      obtain ⟨hpos, hbefore⟩ := hent.objective hlast.1 hlast.2
      have hex : t.last - 1 + 1 < t.size := by unfold ActiveSet.last at hpos ⊢; omega
      have hlast' : (t.exchange L (t.last - 1)).ObjectiveLast :=
        ActiveSet.objectiveLast_exchange hbal.factored.size_le hpos hbefore
      exact Or.inl ⟨_, rfl, ⟨⟨hbal.exchange hex, hs.violation_nonneg⟩,
        directed_objectiveDirection (d := { d with active := t.exchange L (t.last - 1) }) hlast',
        hent.pos, rfl, rfl⟩⟩
  · rw [hB]
    exact Or.inr ⟨_, rfl, ⟨⟨hbal, hs.violation_nonneg⟩, rfl, rfl, rfl, rfl, hlocked⟩⟩

end

end Draft

end TrustSimplex
