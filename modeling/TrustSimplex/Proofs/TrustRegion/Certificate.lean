import TrustSimplex.Proofs.TrustRegion.Upkeep

/-!
# The certificate of every pass

Over exact scalars the multipliers certify the step at the top of every pass, and the violation that goes with them is the
one of the models. From pass to pass the violation does not rise and the step does not get shorter; and no clamp is needed,
since what is clamped at zero is never below it.
-/

namespace TrustSimplex

section
variable {K : Type} [EuclideanField K] {n m : Nat} {L : Linearization K n m} {radius : K} {stage : Stage}

/-! ## The violation -/

namespace Draft

variable {d e : Draft K n m}

theorem Sound.violation_eq_of_zero (hs : d.Sound L) (h : d.violation = 0) : d.violation = L.violation d.step :=
  le_antisymm (h ▸ L.violation_nonneg d.step) hs.violation_le

/-- A constraint without multiplier is violated most. -/
theorem Sound.violation_eq (hs : d.Sound L) {k : Nat} (hk : k < m + 1) (hobj : d.active.constraintAt k ≠ Fin.last m)
    (hzero : d.active.multiplier k = 0) : d.violation = L.violation d.step := by
  refine le_antisymm ?_ hs.violation_le
  have hle := L.residual_le_violation d.step hobj
  by_cases hactive : k < d.active.size
  · rwa [hs.balanced.tight k hactive hobj] at hle
  · have hslack := hs.balanced.slack k (not_lt.mp hactive) hk hobj
    linarith

end Draft

namespace Pass

variable {p : Pass K n m} {d : Draft K n m}

theorem Valid.violation_eq_feasibility (h : p.Valid L .feasibility) : p.draft.violation = L.violation p.draft.step := by
  rcases h.turn with ⟨⟨hapart, -⟩, hlt, -⟩ | ⟨hstage, -⟩
  · exact h.sound.violation_eq (by omega) (h.sound.balanced.ne_last_of_apart hapart hlt) h.zero
  · cases hstage

theorem Valid.violation_eq_of_ended (h : p.Valid L .feasibility) {how : StageEnd}
    (hrun : p.run L radius .feasibility = .ended how d) (hend : how ≠ .boundary) : d.violation = L.violation d.step := by
  have hp := h.violation_eq_feasibility
  have hran := h.run radius
  rw [hrun] at hran
  cases hran with
  | tired => exact hp
  | refused _ he => rw [he.violation, he.step, hp]
  | outside he => rw [he.violation, he.step, hp]
  | boundary => exact absurd rfl hend
  | feasible hs _ _ hzero => exact hs.violation_eq_of_zero hzero

end Pass

theorem Linearization.Reaches.violation_eq (hr : 0 < radius) {p : Pass K n m} (h : L.Reaches radius stage p) :
    p.draft.violation = L.violation p.draft.step := by
  have hvalid := h.valid hr
  have hplaced := h.placed
  cases h with
  | violated => exact hvalid.violation_eq_feasibility
  | satisfied hmost =>
    refine hvalid.sound.violation_eq_of_zero ?_
    rcases L.mostViolated_spec.2.2 with ⟨-, hzero⟩ | ⟨k, hk, -⟩
    · exact hzero
    · rw [hmost] at hk
      cases hk
  | next hp hrun =>
    cases stage with
    | feasibility => exact hvalid.violation_eq_feasibility
    | optimality =>
      -- the position of a later pass is not the one of the objective
      rcases hplaced.stands with ⟨hnone, -⟩ | ⟨-, hlast, hne⟩
      · exact absurd hnone (Pass.progress_of_next hrun).2
      · exact hvalid.sound.violation_eq hplaced.position_lt
          (hvalid.sound.balanced.ne_last_of_last hlast hplaced.position_lt hne) hvalid.zero
  | @settled _ _ d hp hrun hend =>
    have hd : d.violation = L.violation d.step := (hp.valid hr).violation_eq_of_ended hrun hend
    exact hd

/-! ## The length of the step -/

namespace Draft

variable {d e : Draft K n m}

theorem Directed.slope_nonneg (h : d.Directed L stage) (hs : d.Sound L) {k : Nat} (hk : k < d.active.size) :
    0 ≤ d.active.normal L k ⬝ᵥ coords d.direction := by
  have hm := hs.balanced.factored.size_le
  by_cases hobj : d.active.constraintAt k = Fin.last m
  · cases stage with
    | feasibility => exact (h.2.1 k hk).ge.trans' zero_le_one
    | optimality =>
      have hlast : k = d.active.last := by_contra fun hne => hs.balanced.ne_last_of_last h.1 (by omega) hne hobj
      subst hlast
      exact (h.last hs).ge.trans' zero_le_one
  · rw [h.slope hs hk hobj]
    cases stage <;> simp [Stage.rate]

theorem Directed.along_nonneg (h : d.Directed L stage) (hs : d.Sound L) : 0 ≤ coords d.step ⬝ᵥ coords d.direction := by
  -- the step is a combination of gradients along none of which the direction falls
  rw [hs.balanced.sum, sum_dotProduct]
  apply Finset.sum_nonneg
  intro k hk
  rw [smul_dotProduct]
  exact mul_nonneg (hs.balanced.nonneg k) (h.slope_nonneg hs (Finset.mem_range.mp hk))

/-- Later drafts of a stage are no more violated and their steps no shorter; the second stage keeps the violation. -/
structure Improves (stage : Stage) (d e : Draft K n m) : Prop where
  violation_le : e.violation ≤ d.violation
  violation_eq : stage = .optimality → e.violation = d.violation
  normSq_le : normSq d.step ≤ normSq e.step

theorem Improves.of_eq (hstep : e.step = d.step) (hviolation : e.violation = d.violation) : Improves stage d e :=
  ⟨hviolation.le, fun _ => hviolation, by rw [hstep]⟩

theorem Improves.trans {f : Draft K n m} (h : Improves stage d e) (h' : Improves stage e f) : Improves stage d f :=
  ⟨h'.violation_le.trans h.violation_le, fun hstage => (h'.violation_eq hstage).trans (h.violation_eq hstage),
    h.normSq_le.trans h'.normSq_le⟩

theorem Sound.improves_moveTowards (hs : d.Sound L) (h : d.Directed L stage) {t v ratio : K} (ht : 0 ≤ t)
    (hv : v = d.violation - t * stage.rate K) (h0 : 0 ≤ ratio) (next : Vector K (m + 1)) :
    Improves stage d (d.moveTowards stage ratio (d.targetAt t) next v) := by
  have hrate : 0 ≤ t * stage.rate K := mul_nonneg ht (by cases stage <;> simp [Stage.rate])
  have hviolation : stage = .optimality → v = d.violation := fun hstage => by
    subst hstage
    simpa [Stage.rate] using hv
  refine ⟨?_, fun hstage => ?_, ?_⟩
  · rw [violation_moveTowards hviolation, hv]
    linarith [mul_nonneg h0 hrate]
  · rw [violation_moveTowards hviolation, hviolation hstage]
    ring
  · have hstep : coords (d.moveTowards stage ratio (d.targetAt t) next v).step =
        coords d.step + (ratio * t) • coords d.direction := by
      rw [coords_moveTowards, coords_targetAt, smul_add, ← add_assoc, ← add_smul, sub_add_cancel, one_smul, smul_smul]
    have halong := mul_nonneg (mul_nonneg h0 ht) (h.along_nonneg hs)
    have hsquare := mul_nonneg (mul_self_nonneg (ratio * t)) (self_dotProduct_nonneg (coords d.direction))
    rw [normSq_eq, normSq_eq, hstep, self_dotProduct_add_smul]
    linarith

theorem Sound.improves_advance (hs : d.Sound L) (h : d.Directed L stage) (hpos : 0 < d.active.size) (radius : K) :
    Improves stage d (d.advance L radius stage).2 := by
  rcases advance_cases L radius stage d with ⟨how, he⟩ | ⟨t, v, how, hheads, he⟩
  · rw [he]
    exact .of_eq rfl rfl
  · obtain ⟨ht, -, hv⟩ := hheads.spec hs h hpos
    rw [he, headFor_snd]
    exact hs.improves_moveTowards h ht.le hv (fraction_fits hs.balanced.nonneg _ _).1 _

end Draft

namespace Pass

variable {p : Pass K n m}

theorem Valid.improves (h : p.Valid L stage) (radius : K) :
    Draft.Improves stage p.draft (p.run L radius stage).draft := by
  unfold Pass.run
  cases Progress.count? p.progress (p.value L stage) p.draft.active.size with
  | none => exact .of_eq rfl rfl
  | some progress =>
    dsimp only
    rcases hchange : p.change L stage with ⟨_ | _, d⟩
    · have hrefused := h.refused hchange
      exact .of_eq hrefused.step hrefused.violation
    · have hchanged := h.changed hchange
      have hadvance := hchanged.sound.improves_advance hchanged.directed hchanged.pos radius
      refine Draft.Improves.trans (.of_eq hchanged.step hchanged.violation) ?_
      dsimp only
      generalize d.advance L radius stage = out at hadvance
      obtain ⟨_ | _, e⟩ := out <;> exact hadvance

theorem Valid.improves_runWithin {how : StageEnd} {d : Draft K n m} : ∀ (fuel : Nat) {p : Pass K n m}, p.Valid L stage →
    p.runWithin L radius stage fuel = some (how, d) → Draft.Improves stage p.draft d
  | 0, _, _, h => nomatch h
  | fuel + 1, p, hp, h => by
    have himproves := hp.improves radius
    have hran := hp.run radius
    unfold runWithin at h
    cases hrun : p.run L radius stage with
    | ended how' d' =>
      rw [hrun] at h himproves
      cases h
      exact himproves
    | next q =>
      rw [hrun] at h himproves hran
      cases hran with
      | next hq _ => exact himproves.trans (hq.improves_runWithin fuel h)

end Pass

/-! ## Clamps -/

theorem Draft.Directed.clamped_nonneg {d : Draft K n m} (h : d.Directed L stage) (hs : d.Sound L)
    (hpos : 0 < d.active.size) {x : K} (ht : d.Tested L radius stage .clamp x) : 0 ≤ x := by
  cases ht with
  | objective hheads =>
    have hlength := (hheads.spec hs h hpos).1
    rw [h.last_multiplier hs]
    exact add_nonneg (hs.balanced.nonneg _) (div_nonneg hlength.le (mul_self_nonneg _))
  -- the way ends where the first multiplier vanishes
  | moved _ hratio hk =>
    subst hratio
    exact (Draft.fraction_fits hs.balanced.nonneg _ _).2.2 _ hk

namespace Pass

variable {p : Pass K n m}

theorem Valid.objective (h : p.Valid L stage) (hk : p.draft.active.size ≤ p.position) :
    ∀ j < p.draft.active.size, p.draft.active.constraintAt j = Fin.last m → j = p.draft.active.last ∧
      1 / p.draft.active.diagonalAt p.draft.active.last *
        (p.draft.active.axis p.draft.active.last ⬝ᵥ p.draft.active.normal L p.position) ≤ 0 := by
  cases stage with
  | optimality => exact (h.hindered hk).objective h.sound
  | feasibility =>
    intro j hj hlast
    rcases h.turn with ⟨⟨hapart, -⟩, -⟩ | ⟨hstage, -⟩
    · exact absurd hlast (h.sound.balanced.ne_last_of_apart hapart (hj.trans_le hapart.2))
    · cases hstage

theorem Valid.clamped_nonneg (h : p.Valid L stage) {x : K} (ht : p.Tested L radius stage .clamp x) : 0 ≤ x := by
  cases ht with
  | shifted hk hshifted =>
    cases hshifted with
    | intro halign hleaving hj => exact (h.sound.balanced.fits halign hleaving (h.objective hk)).2 _ hj
  | moved hchange ht =>
    have hchanged := h.changed hchange
    exact hchanged.directed.clamped_nonneg hchanged.sound hchanged.pos ht

end Pass

end

def idleClamps (K : Type) [EuclideanField K] : Checks K := ⟨fun _ => true, fun x => larger 0 x == x⟩

section
variable {K : Type} [EuclideanField K] {n m : Nat} {L : Linearization K n m} {radius : K} {stage : Stage} {p : Pass K n m}

theorem Pass.Valid.accepts_idleClamps (h : p.Valid L stage) (fault : Fault) (x : K)
    (ht : p.Tested L radius stage fault x) : (idleClamps K).accepts fault x = true := by
  cases fault with
  | clamp =>
    have hx := h.clamped_nonneg ht
    simpa [Checks.accepts, idleClamps, larger_eq_max] using hx
  | divisor => rfl
  | position => rfl
  | count => rfl

/-! ## The certificate is kept -/

/-- At the top of every pass no multiplier is negative, the step is the sum of the active gradients weighted with theirs,
the active constraints are violated most, and the others by their multiplier less; so the violation is the one of the step.
What follows is no more violated, in the second stage as much, with a step no shorter, and no clamp changes a value. -/
theorem certificate_kept (hr : 0 < radius) (h : L.Reaches radius stage p) :
    (∀ k < stage.width m, 0 ≤ p.draft.active.multiplier k) ∧
      coords p.draft.step = ∑ k ∈ Finset.range p.draft.active.size,
        p.draft.active.multiplier k • coords (L.gradient (p.draft.active.constraintAt k)) ∧
      (∀ k < p.draft.active.size, p.draft.active.constraintAt k ≠ Fin.last m →
        L.residual (p.draft.active.constraintAt k) p.draft.step = p.draft.violation) ∧
      (∀ k, p.draft.active.size ≤ k → k < stage.width m → p.draft.active.constraintAt k ≠ Fin.last m →
        p.draft.active.multiplier k = p.draft.violation - L.residual (p.draft.active.constraintAt k) p.draft.step) ∧
      p.draft.violation = L.violation p.draft.step ∧
      Draft.Improves stage p.draft (p.run L radius stage).draft ∧
      (∀ fuel how d, p.runWithin L radius stage fuel = some (how, d) → Draft.Improves stage p.draft d) ∧
      Checked.run (idleClamps K) L radius stage p = .ok (p.run L radius stage) := by
  have hvalid := h.valid hr
  have hbalanced := hvalid.sound.balanced
  have hd : Divisors (idleClamps K).divisor := divisors_all
  refine ⟨fun k _ => hbalanced.nonneg k, hbalanced.sum, hbalanced.tight, ?_, h.violation_eq hr, hvalid.improves radius,
    fun fuel how d hrun => hvalid.improves_runWithin fuel hrun, ?_⟩
  · intro k hk hlt hobj
    exact hbalanced.slack k hk (hlt.trans_le Stage.width_le) hobj
  · exact Checked.run_eq hd h.placed (h.divisible hd) hvalid.accepts_idleClamps

end

namespace Linearization

theorem reaches_reaching : reach.Reaches 2 .optimality ⟨reaching 1 0, 1, none⟩ := by
  have hmost : reach.mostViolated.1 = some 0 := by rw [shortByOne_reach.mostViolated]
  exact (Reaches.violated hmost).settled shortByOne_reach.run_two nofun

/-- The second stage opens with the step to the bound, which is the gradient of the active constraint once; the second
pass of the tie has four constraints that are not active. -/
theorem certificate_kept_reach :
    let d := reaching 1 0
    let e := tied 16 #v[0, 1, 2, 3, 4, 5]
    (d.active.multiplier 0 = 1 ∧ 0 ≤ d.active.multiplier 0 ∧
      coords d.step = d.active.multiplier 0 • coords (reach.gradient 0) ∧ reach.residual 0 d.step = d.violation ∧
      d.violation = reach.violation d.step ∧ Draft.Improves .optimality d (surpassing 2) ∧
      Checked.run (idleClamps ℝ) reach 2 .optimality ⟨d, 1, none⟩ = .ok (.ended .boundary (surpassing 2))) ∧
    tie.residual 0 e.step = e.violation ∧
    (∀ k, 1 ≤ k → k < 5 → e.active.multiplier k = e.violation - tie.residual (e.active.constraintAt k) e.step) ∧
    Draft.Improves .feasibility e (tied 8 #v[1, 0, 2, 3, 4, 5]) := by
  obtain ⟨hnonneg, hsum, htight, -, hviolation, himproves, -, hchecked⟩ := certificate_kept two_pos reaches_reaching
  obtain ⟨-, -, htied, hslack, -, hkept, -⟩ := certificate_kept one_pos reaches_tied
  rw [run_reaching] at himproves hchecked
  rw [show (reaching 1 0).active.size = 1 from rfl, Finset.sum_range_one] at hsum
  rw [run_secondPass_tie] at hkept
  have hinner : ∀ k < 5, (tied 16 #v[0, 1, 2, 3, 4, 5]).active.constraintAt k ≠ Fin.last 5 := by
    intro k hk
    show (#v[0, 1, 2, 3, 4, 5] : Vector (Fin 6) 6).getD k (Fin.last 5) ≠ Fin.last 5
    interval_cases k <;> decide
  exact ⟨⟨rfl, hnonneg 0 Nat.two_pos, hsum, htight 0 Nat.one_pos nofun, hviolation, himproves, hchecked⟩,
    htied 0 Nat.one_pos (hinner 0 (by decide)), fun k hk hlt => hslack k hk hlt (hinner k hlt), hkept⟩

end Linearization

end TrustSimplex
