import TrustSimplex.Proofs.TrustRegion.Alike
import TrustSimplex.Proofs.TrustRegion.Optimality

/-!
# Steps in other units

The step of rescaled models is the rescaled step. A sound draft is determined by its active set, its step and its
violation: the multipliers and the direction follow from the balance, so that only these three are compared from
pass to pass.
-/

namespace TrustSimplex

section
variable {K : Type} [EuclideanField K] {n m : Nat} {u : Rescaling K n} {L L' : Linearization K n m}

/-! ## Drafts -/

def Rescaling.gain (u : Rescaling K n) : Stage → K
  | .feasibility => u.violation
  | .optimality => u.objective

theorem Rescaling.gain_pos (u : Rescaling K n) (stage : Stage) : 0 < u.gain stage := by
  cases stage with
  | feasibility => exact u.violation_pos
  | optimality => exact u.objective_pos

namespace Draft

structure Alike (u : Rescaling K n) (d d' : Draft K n m) : Prop where
  active : d.active.Alike d'.active
  step : d'.step = scaleVec u.length d.step
  violation : d'.violation = u.violation * d.violation

namespace Alike

variable {d d' : Draft K n m} {stage : Stage}

theorem multiplier_active (h : Alike u d d') (hL : L.Rescaled u L') (hs : d.Sound L) (hs' : d'.Sound L') {k : Nat}
    (hk : k < d.active.size) :
    d'.active.multiplier k = u.weight (d.active.constraintAt k) * d.active.multiplier k := by
  have hsum := hs'.balanced.sum
  rw [h.step, coords_scaleVec] at hsum
  exact h.active.coefficients hL hs.balanced.factored hs.balanced.sum hsum hk

theorem multiplier_slack (h : Alike u d d') (hL : L.Rescaled u L') (hs : d.Sound L) (hs' : d'.Sound L') {k : Nat}
    (hk : d.active.size ≤ k) (hkm : k < m + 1) (hobj : d.active.constraintAt k ≠ Fin.last m) :
    d'.active.multiplier k = u.violation * d.active.multiplier k := by
  have hobj' : d'.active.constraintAt k ≠ Fin.last m := by rwa [h.active.constraintAt]
  rw [hs.balanced.slack k hk hkm hobj, hs'.balanced.slack k (h.active.size ▸ hk) hkm hobj', h.active.constraintAt,
    h.step, h.violation, hL.residual hobj, mul_sub]

theorem direction (h : Alike u d d') (hL : L.Rescaled u L') (hs : d.Sound L) (hs' : d'.Sound L')
    (hd : d.Directed L stage) (hd' : d'.Directed L' stage) :
    d'.direction = scaleVec (u.length / u.gain stage) d.direction := by
  apply coords_injective
  rw [coords_scaleVec]
  cases stage with
  | feasibility =>
    -- both directions lie in the span of the active gradients and have the same inner products with them
    rw [← sub_eq_zero, ← coords_subScaled]
    refine hs.balanced.factored.eq_zero (fun j hj => ?_) fun k hk => ?_
    · have hfree' := hd'.2.2 j (h.active.size ▸ hj)
      rw [h.active.axis] at hfree'
      rw [coords_subScaled, dotProduct_sub, dotProduct_smul, hfree', hd.2.2 j hj, smul_zero, sub_zero]
    · have hslope' := hd'.2.1 k (h.active.size ▸ hk)
      have hobj := hs.balanced.ne_last_of_apart hd.1 (hk.trans_le hd.1.2)
      rw [h.active.normal hL, smul_dotProduct, smul_eq_mul] at hslope'
      rw [coords_subScaled, dotProduct_sub, dotProduct_smul, hd.2.1 k hk, smul_eq_mul, mul_one,
        eq_one_div_of_mul_eq_one_right hslope']
      unfold Rescaling.slope Rescaling.gain
      rw [u.unit_of_ne hobj, one_div_div, sub_self]
  | optimality =>
    have hlt := ActiveSet.last_lt hd.1.1
    have hdiagonal := h.active.diagonalAt hL hs.balanced.factored hs'.balanced.factored hlt
    rw [hd.2, hd'.2, h.active.last, h.active.axis, hdiagonal, smul_smul, hd.1.2]
    unfold Rescaling.slope Rescaling.gain
    dsimp only
    rw [u.unit_last, ← one_div_div u.objective, one_div_mul_one_div]

end Alike

/-! ### Lengths and fractions -/

/-- The cut-off for the small components of a step is relative to the radius. -/
theorem room_scaleVec {a : K} (ha : 0 < a) (radius : K) (x : Vector K n) :
    Fin.foldl n (fun room i => if 1e-6 * (a * radius) ≤ Scalar.abs ((scaleVec a x).get i) then
      room - (scaleVec a x).get i * (scaleVec a x).get i else room) (a * radius * (a * radius)) =
    a * a * Fin.foldl n (fun room i => if 1e-6 * radius ≤ Scalar.abs (x.get i) then
      room - x.get i * x.get i else room) (radius * radius) := by
  refine foldl_rel (R := fun room' room => room' = a * a * room) (fun room' room i h => ?_)
    (mul_mul_mul_comm a radius a radius)
  rw [get_scaleVec, scalarAbs_mul ha.le, mul_left_comm]
  simp only [mul_le_mul_iff_right₀ ha]
  split
  · rw [h, mul_mul_mul_comm, mul_sub]
  · exact h

theorem boundaryLength?_scaleVec {d d' : Draft K n m} {a b : K} (ha : 0 < a) (hb : 0 < b)
    (hstep : d'.step = scaleVec a d.step) (hdir : d'.direction = scaleVec b d.direction) (radius : K) :
    d'.boundaryLength? (a * radius) = (d.boundaryLength? radius).map (a / b * ·) := by
  unfold boundaryLength?
  dsimp only
  simp only [foldl_mul_get]
  rw [hstep, hdir, room_scaleVec ha]
  simp only [coords_scaleVec, smul_dotProduct, dotProduct_smul, smul_eq_mul]
  have hsquare := self_dotProduct_nonneg (coords d.direction)
  generalize Fin.foldl n _ (radius * radius) = room
  generalize coords d.step ⬝ᵥ coords d.direction = along
  generalize coords d.direction ⬝ᵥ coords d.direction = square at hsquare ⊢
  have hab := mul_pos ha hb
  by_cases hinside : room ≤ 0
  · rw [if_pos hinside, if_pos (mul_nonpos_of_nonneg_of_nonpos (mul_pos ha ha).le hinside)]
    rfl
  · have hpos := not_le.mp hinside
    have hproduct : b * (b * square) * (a * a * room) = a * b * (a * b) * (square * room) := by ring
    have halong : b * (a * along) = a * b * along := by ring
    rw [if_neg hinside, if_neg (not_le.mpr (mul_pos (mul_pos ha ha) hpos)), hproduct, halong,
      mul_mul_mul_comm (a * b) along, ← mul_add, sqrt_mul hab.le (mul_nonneg hsquare hpos.le),
      sqrt_mul hab.le (add_nonneg (mul_nonneg hsquare hpos.le) (mul_self_nonneg along)), scalarAbs_mul hab.le,
      mul_left_comm _ (a * b)]
    simp only [mul_le_mul_iff_right₀ hab]
    rw [Option.map_some, ← mul_ite, ← mul_add, mul_div_mul_comm, mul_div_mul_left _ _ ha.ne']

/-- Multipliers and goals that change by the same factors give the same fraction of the way. -/
theorem fraction_rescaled {s t : ActiveSet K n m} {next next' : Vector K (m + 1)} : ∀ {width : Nat},
    (∀ k < width, ∃ c : K, 0 < c ∧ t.multiplier k = c * s.multiplier k ∧ next'.getD k 0 = c * next.getD k 0) →
    fraction t next' width = fraction s next width
  | 0, _ => rfl
  | width + 1, h => by
    obtain ⟨c, hc, hmult, hnext⟩ := h width (Nat.lt_succ_self width)
    have hbefore := fraction_rescaled fun k hk => h k (Nat.lt_succ_of_lt hk)
    rw [fraction_succ, fraction_succ, hbefore, hmult, hnext, ← mul_sub, mul_div_mul_left _ _ hc.ne']
    have hneg : c * next.getD width 0 < 0 ↔ next.getD width 0 < 0 :=
      ⟨fun h => neg_of_mul_neg_right h hc.le, mul_neg_of_pos_of_neg hc⟩
    simp only [hneg]

theorem Directed.ne_last {d : Draft K n m} {stage : Stage} (h : d.Directed L stage) (hs : d.Sound L) {k : Nat}
    (hk : d.active.size ≤ k) (hkw : k < stage.width m) : d.active.constraintAt k ≠ Fin.last m := by
  cases stage with
  | feasibility => exact hs.balanced.ne_last_of_apart h.1 hkw
  | optimality => exact hs.balanced.ne_last_of_last h.1 hkw ((ActiveSet.last_lt h.1.1).trans_le hk).ne'

namespace Alike

variable {d d' : Draft K n m} {stage : Stage}

theorem targetAt (h : Alike u d d') (hdir : d'.direction = scaleVec (u.length / u.gain stage) d.direction) (t : K) :
    d'.targetAt (u.gain stage * t) = scaleVec u.length (d.targetAt t) := by
  apply coords_injective
  have hgain := (u.gain_pos stage).ne'
  rw [coords_targetAt, h.step, hdir, coords_scaleVec, coords_scaleVec, coords_scaleVec, coords_targetAt, smul_add,
    smul_smul, smul_smul, mul_right_comm, mul_div_cancel₀ _ hgain]

theorem moveTowards (h : Alike u d d') (stage : Stage) (target : Vector K n) (next next' : Vector K (m + 1))
    (v ratio : K) : Alike u (d.moveTowards stage ratio target next v)
      (d'.moveTowards stage ratio (scaleVec u.length target) next' (u.violation * v)) := by
  refine ⟨⟨h.active.basis, h.active.order, h.active.size⟩, ?_, ?_⟩
  · apply coords_injective
    rw [coords_moveTowards, coords_scaleVec, coords_scaleVec, coords_moveTowards, h.step, coords_scaleVec, smul_add,
      smul_comm ratio, smul_comm (1 - ratio)]
  · cases stage with
    | feasibility =>
      show d'.violation + ratio * (u.violation * v - d'.violation) =
        u.violation * (d.violation + ratio * (v - d.violation))
      rw [h.violation]
      ring
    | optimality => exact h.violation

/-- The next multipliers have the units of the present ones. -/
theorem units (h : Alike u d d') (hL : L.Rescaled u L') (hs : d.Sound L) (hs' : d'.Sound L')
    (hd : d.Directed L stage) {target : Vector K n} {next next' : Vector K (m + 1)} {v : K}
    (ha : Aim L stage d target next v) (ha' : Aim L' stage d' (scaleVec u.length target) next' (u.violation * v))
    {k : Nat} (hk : k < stage.width m) :
    ∃ c : K, 0 < c ∧ d'.active.multiplier k = c * d.active.multiplier k ∧ next'.getD k 0 = c * next.getD k 0 := by
  rcases Nat.lt_or_ge k d.active.size with hlt | hge
  · have hsum := ha'.sum
    rw [coords_scaleVec] at hsum
    exact ⟨_, u.weight_pos _, h.multiplier_active hL hs hs' hlt,
      h.active.coefficients hL hs.balanced.factored ha.sum hsum hlt⟩
  · have hobj := hd.ne_last hs hge hk
    refine ⟨_, u.violation_pos, h.multiplier_slack hL hs hs' hge (hk.trans_le Stage.width_le) hobj, ?_⟩
    rw [ha.slack k hge hk, ha'.slack k (h.active.size ▸ hge) hk, h.active.constraintAt, hL.residual hobj, mul_sub]

/-- A move towards the target of a length, in other units towards the target of the rescaled length. -/
theorem headFor (h : Alike u d d') (hL : L.Rescaled u L') (hs : d.Sound L) (hs' : d'.Sound L')
    (hd : d.Directed L stage) (hd' : d'.Directed L' stage) {t v : K} (ht : 0 ≤ t) (hv : 0 ≤ v)
    (hrate : v = d.violation - t * stage.rate K) (how : StageEnd) :
    (d'.headFor L' stage (u.gain stage * t) (u.violation * v) how).1 = (d.headFor L stage t v how).1 ∧
      Alike u (d.headFor L stage t v how).2 (d'.headFor L' stage (u.gain stage * t) (u.violation * v) how).2 := by
  have htarget := h.targetAt (h.direction hL hs hs' hd hd') t
  have hrate' : u.violation * v = d'.violation - u.gain stage * t * stage.rate K := by
    rw [h.violation, hrate, mul_sub]
    cases stage with
    | feasibility => rw [Rescaling.gain, mul_assoc]
    | optimality => rw [Stage.rate, mul_zero, mul_zero, mul_zero]
  have ha := hd.aim hs ht hv hrate
  have ha' := hd'.aim hs' (mul_nonneg (u.gain_pos stage).le ht) (mul_nonneg u.violation_pos.le hv) hrate'
  rw [htarget] at ha'
  have hfraction := fraction_rescaled fun k hk => h.units hL hs hs' hd ha ha' hk
  have hmoved := h.moveTowards stage (d.targetAt t) (d.multipliersAt L stage v (d.targetAt t))
    (d'.multipliersAt L' stage (u.violation * v) (scaleVec u.length (d.targetAt t))) v
  unfold Draft.headFor
  dsimp only
  rw [htarget, hfraction]
  generalize fraction d.active _ _ = found
  obtain ⟨ratio, blocked⟩ := found
  cases blocked with
  | none => exact ⟨rfl, hmoved ratio⟩
  | some k => exact ⟨rfl, hmoved ratio⟩

theorem advance (h : Alike u d d') (hL : L.Rescaled u L') (hs : d.Sound L) (hs' : d'.Sound L')
    (hd : d.Directed L stage) (hd' : d'.Directed L' stage) (hpos : 0 < d.active.size) (radius : K) :
    (d'.advance L' (u.length * radius) stage).1 = (d.advance L radius stage).1 ∧
      Alike u (d.advance L radius stage).2 (d'.advance L' (u.length * radius) stage).2 := by
  have hdir := h.direction hL hs hs' hd hd'
  have hb := boundaryLength?_scaleVec u.length_pos (div_pos u.length_pos (u.gain_pos stage)) h.step hdir radius
  rw [div_div_cancel₀ u.length_pos.ne'] at hb
  unfold Draft.advance
  rw [hb]
  cases hfound : d.boundaryLength? radius with
  | none => exact ⟨rfl, h⟩
  | some full =>
    have hfull := (boundaryLength?_reaches hfound (hd.direction_ne hs hpos)).1
    rw [Option.map_some]
    dsimp only
    rw [snapToZero_eq, snapToZero_eq, h.violation]
    simp only [mul_beq_zero u.violation_pos.ne']
    by_cases hstop : stage = .feasibility ∧ (d.violation == 0) = true
    · rw [if_pos hstop, if_pos hstop]
      exact ⟨rfl, h⟩
    · rw [if_neg hstop, if_neg hstop]
      cases stage with
      | feasibility =>
        have hle : smaller full d.violation ≤ d.violation := by
          rw [smaller_eq_min]
          exact min_le_right _ _
        have ht : 0 ≤ smaller full d.violation := by
          rw [smaller_eq_min]
          exact le_min hfull.le hs.violation_nonneg
        have hpos' : 0 < d'.active.size := by rwa [h.active.size]
        have hfall := hd.activeViolation_targetAt hs hpos hle
        have hfall' : d'.activeViolation L' (d'.targetAt (u.violation * smaller full d.violation)) =
            u.violation * (d.violation - smaller full d.violation) := by
          rw [hd'.activeViolation_targetAt hs' hpos', h.violation, mul_sub]
          rw [h.violation]
          exact mul_le_mul_of_nonneg_left hle u.violation_pos.le
        have hmove := h.headFor hL hs hs' hd hd' ht (sub_nonneg.mpr hle) (by rw [Stage.rate, mul_one])
          (if smaller full d.violation == full then StageEnd.boundary else .feasible)
        rw [Rescaling.gain, ← hfall', ← hfall] at hmove
        dsimp only
        rw [Rescaling.gain, smaller_mul u.violation_pos.le, mul_beq_mul u.violation_pos.ne']
        exact hmove
      | optimality =>
        have hmove := h.headFor hL hs hs' hd hd' hfull.le hs.violation_nonneg
          (by rw [Stage.rate, mul_zero, sub_zero]) .boundary
        dsimp only
        simp only [beq_self_eq_true, if_true]
        exact hmove

/-! ### Changing the active set -/

theorem add_feasibility (h : Alike u d d') (hL : L.Rescaled u L') (hs : d.Sound L) (hs' : d'.Sound L') (k : Nat) :
    (d'.add L' .feasibility k).1 = (d.add L .feasibility k).1 ∧
      (d.add L .feasibility k).2.active.Alike (d'.add L' .feasibility k).2.active := by
  have henter := h.active.enter hL hs.balanced.factored hs'.balanced.factored
    (fun j hj => h.multiplier_active hL hs hs' hj) k
  unfold Draft.add
  generalize d.active.enter L k = entered at henter ⊢
  generalize d'.active.enter L' k = entered' at henter ⊢
  obtain ⟨taken, s⟩ := entered
  obtain ⟨taken', s'⟩ := entered'
  obtain ⟨rfl, hset⟩ := henter
  cases taken' with
  | false => exact ⟨rfl, hset⟩
  | true => exact ⟨rfl, hset⟩

theorem add_optimality (h : Alike u d d') (hL : L.Rescaled u L') (hs : d.Sound L) (hs' : d'.Sound L') {k : Nat}
    (hk : d.Hindered L k) (hk' : d'.Hindered L' k) (hzero : d.active.multiplier k = 0)
    (hzero' : d'.active.multiplier k = 0) :
    (d'.add L' .optimality k).1 = (d.add L .optimality k).1 ∧
      (d.add L .optimality k).2.active.Alike (d'.add L' .optimality k).2.active := by
  have henter := h.active.enter hL hs.balanced.factored hs'.balanced.factored
    (fun j hj => h.multiplier_active hL hs hs' hj) k
  unfold Draft.add
  rw [h.active.constraintAt]
  rcases hk.enter hs hzero with ⟨t, ht, hbal, hent⟩ | ⟨B, hB, -⟩
  · rcases hk'.enter hs' hzero' with ⟨t', ht', hbal', hent'⟩ | ⟨B', hB', -⟩
    · rw [ht, ht'] at henter ⊢
      have hset : t.Alike t' := henter.2
      dsimp only
      by_cases hobj : d.active.constraintAt k = Fin.last m
      · rw [if_pos hobj, if_pos hobj]
        exact ⟨rfl, hset⟩
      · rw [if_neg hobj, if_neg hobj, hset.last]
        rcases hk with ⟨hapart, rfl⟩ | ⟨⟨hlast, -⟩, -⟩
        · exact absurd hapart.1 hobj
        · have hpos := (hent.objective hlast.1 hlast.2).1
          refine ⟨rfl, hset.exchange hL hbal.factored hbal'.factored ?_⟩
          unfold ActiveSet.last at hpos ⊢
          omega
    · rw [ht, hB'] at henter
      cases henter.1
  · rw [hB] at henter ⊢
    rcases hk'.enter hs' hzero' with ⟨t', ht', -⟩ | ⟨B', hB', -⟩
    · rw [ht'] at henter
      cases henter.1
    · rw [hB'] at henter ⊢
      exact henter

end Alike

end Draft

/-! ## Passes -/

def Progress.rescaled (c : K) (p : Progress K) : Progress K := { p with record := c * p.record }

theorem Progress.count?_rescaled {c : K} (hc : 0 < c) (before : Option (Progress K)) (value : K) (size : Nat) :
    Progress.count? (before.map (rescaled c)) (c * value) size =
      (Progress.count? before value size).map (rescaled c) := by
  unfold Progress.count?
  cases before with
  | none => rfl
  | some p =>
    dsimp only [Option.map_some, rescaled]
    simp only [mul_lt_mul_iff_right₀ hc]
    split_ifs <;> rfl

namespace Pass

structure Alike (u : Rescaling K n) (stage : Stage) (p p' : Pass K n m) : Prop where
  draft : Draft.Alike u p.draft p'.draft
  position : p'.position = p.position
  progress : p'.progress = p.progress.map (Progress.rescaled (u.gain stage))

end Pass

inductive PassResult.Alike (u : Rescaling K n) (stage : Stage) : PassResult K n m → PassResult K n m → Prop
  | next {p p' : Pass K n m} (h : Pass.Alike u stage p p') : Alike u stage (.next p) (.next p')
  | ended (how : StageEnd) {d d' : Draft K n m} (h : Draft.Alike u d d') :
      Alike u stage (.ended how d) (.ended how d')

namespace Pass.Alike

variable {p p' : Pass K n m} {stage : Stage}

theorem value (h : Alike u stage p p') (hL : L.Rescaled u L') : p'.value L' stage = u.gain stage * p.value L stage := by
  unfold Pass.value
  cases stage with
  | feasibility => exact h.draft.violation
  | optimality =>
    dsimp only
    rw [h.draft.step, hL.gradient, dot_scaleVec, mul_comm u.length, u.slope_mul_length, u.unit_last, ← mul_neg]
    rfl

theorem change_active (h : Alike u stage p p') (hL : L.Rescaled u L') (hp : p.Valid L stage) (hp' : p'.Valid L' stage) :
    (p'.change L' stage).1 = (p.change L stage).1 ∧
      (p.change L stage).2.active.Alike (p'.change L' stage).2.active := by
  have hf := hp.sound.balanced.factored
  have hf' := hp'.sound.balanced.factored
  unfold Pass.change
  rw [h.position, h.draft.active.size]
  rcases Nat.lt_or_ge p.position p.draft.active.size with hlt | hge
  · rw [if_pos hlt, if_pos hlt]
    cases stage with
    | feasibility => exact ⟨rfl, h.draft.active.leave hL hf hf' hlt⟩
    | optimality => exact ⟨rfl, h.draft.active.leave hL hf hf' hlt⟩
  · rw [if_neg (Nat.not_lt.mpr hge), if_neg (Nat.not_lt.mpr hge)]
    cases stage with
    | feasibility => exact h.draft.add_feasibility hL hp.sound hp'.sound p.position
    | optimality =>
      have hhindered' := hp'.hindered (by rwa [h.draft.active.size, h.position])
      have hzero' := hp'.zero
      rw [h.position] at hhindered' hzero'
      exact h.draft.add_optimality hL hp.sound hp'.sound (hp.hindered hge) hhindered' hp.zero hzero'

end Pass.Alike

theorem Pass.Valid.change_keeps {p : Pass K n m} {stage : Stage} (h : p.Valid L stage) :
    (p.change L stage).2.step = p.draft.step ∧ (p.change L stage).2.violation = p.draft.violation := by
  rcases h.change with ⟨e, he, hchanged⟩ | ⟨-, e, he, hrefused⟩
  · rw [he]
    exact ⟨hchanged.step, hchanged.violation⟩
  · rw [he]
    exact ⟨hrefused.step, hrefused.violation⟩

namespace Pass.Alike

variable {p p' : Pass K n m} {stage : Stage}

theorem change (h : Alike u stage p p') (hL : L.Rescaled u L') (hp : p.Valid L stage) (hp' : p'.Valid L' stage) :
    (p'.change L' stage).1 = (p.change L stage).1 ∧ Draft.Alike u (p.change L stage).2 (p'.change L' stage).2 := by
  obtain ⟨htaken, hactive⟩ := h.change_active hL hp hp'
  refine ⟨htaken, hactive, ?_, ?_⟩
  · rw [hp.change_keeps.1, hp'.change_keeps.1, h.draft.step]
  · rw [hp.change_keeps.2, hp'.change_keeps.2, h.draft.violation]

/-- One pass in other units leads to the same next position or ends the stage alike. -/
theorem run (h : Alike u stage p p') (hL : L.Rescaled u L') (hp : p.Valid L stage) (hp' : p'.Valid L' stage)
    (radius : K) : PassResult.Alike u stage (p.run L radius stage) (p'.run L' (u.length * radius) stage) := by
  have hchange := h.change hL hp hp'
  unfold Pass.run
  rw [h.progress, h.value hL, h.draft.active.size, Progress.count?_rescaled (u.gain_pos stage)]
  cases Progress.count? p.progress (p.value L stage) p.draft.active.size with
  | none => exact .ended .stalled h.draft
  | some progress =>
    rw [Option.map_some]
    dsimp only
    rcases hp.change with ⟨e, he, hc⟩ | ⟨-, e, he, -⟩
    · rcases hp'.change with ⟨e', he', hc'⟩ | ⟨-, e', he', -⟩
      · rw [he, he'] at hchange ⊢
        have hadvance := hchange.2.advance hL hc.sound hc'.sound hc.directed hc'.directed hc.pos radius
        dsimp only at hadvance ⊢
        generalize e.advance L radius stage = out at hadvance ⊢
        generalize e'.advance L' (u.length * radius) stage = out' at hadvance ⊢
        obtain ⟨next, d⟩ := out
        obtain ⟨next', d'⟩ := out'
        obtain ⟨rfl, hd⟩ := hadvance
        cases next' with
        | blocked k => exact .next ⟨hd, rfl, rfl⟩
        | ended how => exact .ended how hd
      · rw [he, he'] at hchange
        cases hchange.1
    · rcases hp'.change with ⟨e', he', -⟩ | ⟨-, e', he', -⟩
      · rw [he, he'] at hchange
        cases hchange.1
      · rw [he, he'] at hchange ⊢
        exact .ended .stalled hchange.2

theorem runWithin (hL : L.Rescaled u L') (radius : K) : ∀ (fuel : Nat) {p p' : Pass K n m}, Alike u stage p p' →
    p.Valid L stage → p'.Valid L' stage →
    Option.Rel (fun r r' => r'.1 = r.1 ∧ Draft.Alike u r.2 r'.2) (p.runWithin L radius stage fuel)
      (p'.runWithin L' (u.length * radius) stage fuel)
  | 0, _, _, _, _, _ => .none
  | fuel + 1, p, p', h, hp, hp' => by
    have hrun := h.run hL hp hp' radius
    have hran := hp.run radius
    have hran' := hp'.run (u.length * radius)
    unfold Pass.runWithin
    generalize p.run L radius stage = result at hrun hran ⊢
    generalize p'.run L' (u.length * radius) stage = result' at hrun hran' ⊢
    cases hrun with
    | ended how hd => exact .some ⟨rfl, hd⟩
    | next hnext =>
      cases hran with
      | next hq _ =>
        cases hran' with
        | next hq' _ => exact runWithin hL radius fuel hnext hq hq'

end Pass.Alike

/-! ## The two stages -/

def Step.rescaled (c : K) (s : Step K n) : Step K n := ⟨scaleVec c s.move, s.isFull⟩

namespace Linearization.Rescaled

theorem mostViolated (h : Rescaled u L L') :
    L'.mostViolated = (L.mostViolated.1, u.violation * L.mostViolated.2) := by
  unfold Linearization.mostViolated
  refine foldl_rel (R := fun found' found : Option (Fin m) × K => found' = (found.1, u.violation * found.2))
    (fun found' found k hfound => ?_) (by rw [mul_zero])
  rw [hfound]
  dsimp only
  rw [h.bound _ (Fin.castSucc_lt_last k).ne]
  simp only [mul_lt_mul_iff_right₀ u.violation_pos]
  split <;> rfl

theorem firstDraft (h : Rescaled u L L') : Draft.Alike u L.firstDraft L'.firstDraft := by
  refine ⟨⟨rfl, rfl, rfl⟩, ?_, ?_⟩
  · show zeroVec n = scaleVec u.length (zeroVec n)
    apply coords_injective
    rw [coords_scaleVec, coords_zeroVec, smul_zero]
  · show L'.mostViolated.2 = u.violation * L.mostViolated.2
    rw [h.mostViolated]

theorem openOptimality {d d' : Draft K n m} (h : Draft.Alike u d d') :
    Pass.Alike u .optimality (openOptimality d) (Linearization.openOptimality d') := by
  refine ⟨⟨⟨h.active.basis, ?_, h.active.size⟩, h.step, h.violation⟩, rfl, rfl⟩
  show d'.active.order.setIfInBounds m (Fin.last m) = d.active.order.setIfInBounds m (Fin.last m)
  rw [h.active.order]

theorem optimizeWithin (h : Rescaled u L L') {d d' : Draft K n m} (hd : Draft.Alike u d d') (hs : Pass.Settled L d)
    (hs' : Pass.Settled L' d') (radius : K) (fuel : Nat) :
    L'.optimizeWithin (u.length * radius) d' fuel = (L.optimizeWithin radius d fuel).map (Step.rescaled u.length) := by
  have hrun := Pass.Alike.runWithin h radius fuel (openOptimality hd) (valid_openOptimality hs)
    (valid_openOptimality hs')
  unfold Linearization.optimizeWithin
  generalize (Linearization.openOptimality d).runWithin L radius .optimality fuel = result at hrun ⊢
  generalize (Linearization.openOptimality d').runWithin L' (u.length * radius) .optimality fuel = result' at hrun ⊢
  cases hrun with
  | none => rfl
  | @some r r' hr =>
    obtain ⟨how, e⟩ := r
    obtain ⟨how', e'⟩ := r'
    obtain ⟨rfl, he⟩ := hr
    show some (⟨e'.step, _⟩ : Step K n) = some ⟨scaleVec u.length e.step, _⟩
    rw [he.step]

/-- The step found in rescaled models is the rescaled step, and is found with the same fuel. -/
theorem solveWithin (h : Rescaled u L L') {radius : K} (hr : 0 < radius) (fuel : Nat) :
    L'.solveWithin (u.length * radius) fuel = (L.solveWithin radius fuel).map (Step.rescaled u.length) := by
  have hr' := mul_pos u.length_pos hr
  unfold Linearization.solveWithin
  have hmost : L'.mostViolated.1 = L.mostViolated.1 := by rw [h.mostViolated]
  rw [hmost]
  cases hfound : L.mostViolated.1 with
  | none =>
    exact h.optimizeWithin h.firstDraft L.settled_firstDraft L'.settled_firstDraft radius fuel
  | some k =>
    have hvalid := valid_firstPass hfound
    have hvalid' := valid_firstPass (hmost.trans hfound)
    have hfirst : Pass.Alike u .feasibility (⟨L.firstDraft, k, none⟩ : Pass K n m) ⟨L'.firstDraft, k, none⟩ :=
      ⟨h.firstDraft, rfl, rfl⟩
    have hrun := hfirst.runWithin h radius fuel hvalid hvalid'
    have hsettled : ∀ how e, (⟨L.firstDraft, k, none⟩ : Pass K n m).runWithin L radius .feasibility fuel =
        some (how, e) → Pass.Settled L e := fun _ _ hsome => (hvalid.runWithin_feasibility hr fuel hsome).1
    have hsettled' : ∀ how e, (⟨L'.firstDraft, k, none⟩ : Pass K n m).runWithin L' (u.length * radius)
        .feasibility fuel = some (how, e) → Pass.Settled L' e := fun _ _ hsome =>
      (hvalid'.runWithin_feasibility hr' fuel hsome).1
    dsimp only
    generalize (⟨L.firstDraft, k, none⟩ : Pass K n m).runWithin L radius .feasibility fuel = result at *
    generalize (⟨L'.firstDraft, k, none⟩ : Pass K n m).runWithin L' (u.length * radius) .feasibility fuel = result'
      at *
    cases hrun with
    | none => rfl
    | @some r r' hresult =>
      obtain ⟨how, e⟩ := r
      obtain ⟨how', e'⟩ := r'
      obtain ⟨rfl, he⟩ := hresult
      have hopt := h.optimizeWithin he (hsettled how' e rfl) (hsettled' how' e' rfl) radius fuel
      cases how' with
      | boundary =>
        show some (⟨e'.step, true⟩ : Step K n) = some ⟨scaleVec u.length e.step, true⟩
        rw [he.step]
      | feasible => exact hopt
      | stalled => exact hopt

end Linearization.Rescaled

end

end TrustSimplex
