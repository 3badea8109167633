import TrustSimplex.Proofs.TrustRegion.Advance

/-!
# The passes of a stage

A pass that starts from a sound draft with a constraint whose turn it is leads to another such pass or
ends its stage; a run of passes therefore ends with a sound draft. Of the ways to end the first stage
all but the counter find the least violation in the ball.
-/

namespace TrustSimplex

section
variable {K : Type} [EuclideanField K] {n m : Nat} {L : Linearization K n m}

/-! ## Violations -/

theorem Linearization.violation_le_iff (d : Vector K n) (c : K) :
    L.violation d ≤ c ↔ 0 ≤ c ∧ ∀ k : Fin m, L.residual k.castSucc d ≤ c :=
  foldl_larger_le_iff _ 0 c

theorem Linearization.violation_nonneg (d : Vector K n) : 0 ≤ L.violation d :=
  ((L.violation_le_iff d _).mp (le_refl _)).1

theorem Linearization.residual_le_violation (d : Vector K n) {c : Fin (m + 1)} (hc : c ≠ Fin.last m) :
    L.residual c d ≤ L.violation d := by
  obtain ⟨k, rfl⟩ := Fin.exists_castSucc_eq.mpr hc
  exact ((L.violation_le_iff d _).mp (le_refl _)).2 k

theorem ActiveSet.Balanced.exists_position {s : ActiveSet K n m} {x : Vector K n} {v : K}
    {total : Fin n → K} (h : s.Balanced L x v total) (c : Fin (m + 1)) :
    ∃ k < m + 1, s.constraintAt k = c := by
  have hinj : Function.Injective fun k : Fin (m + 1) => s.constraintAt k := fun i j e =>
    Fin.ext (h.distinct i i.isLt j j.isLt e)
  obtain ⟨k, hk⟩ := Finite.surjective_of_injective hinj c
  exact ⟨k, k.isLt, hk⟩

namespace Draft

variable {d e : Draft K n m} {radius : K}

theorem Sound.violation_le (hs : d.Sound L) : L.violation d.step ≤ d.violation := by
  refine (L.violation_le_iff _ _).mpr ⟨hs.violation_nonneg, fun c => ?_⟩
  obtain ⟨k, hk, hc⟩ := hs.balanced.exists_position c.castSucc
  have hobj : d.active.constraintAt k ≠ Fin.last m := hc ▸ (Fin.castSucc_lt_last c).ne
  rw [← hc]
  rcases Nat.lt_or_ge k d.active.size with hlt | hge
  · exact (hs.balanced.tight k hlt hobj).le
  · have := hs.balanced.slack k hge hk hobj
    have := hs.balanced.nonneg k
    linarith

/-! ## Certificates -/

theorem Sound.rise (hs : d.Sound L) {k : Nat} (hk : k < d.active.size)
    (hobj : d.active.constraintAt k ≠ Fin.last m) (y : Vector K n) :
    d.violation - L.violation y ≤ d.active.normal L k ⬝ᵥ (coords y - coords d.step) := by
  have hy := L.residual_le_violation y hobj
  have ht := hs.balanced.tight k hk hobj
  rw [L.residual_eq] at hy ht
  rw [dotProduct_sub]
  unfold ActiveSet.normal
  linarith

/-- No other step of the ball is as high along all active gradients as a step that reaches the
boundary. -/
theorem Sound.eq_of_outside (hs : d.Sound L) (hout : radius * radius ≤ coords d.step ⬝ᵥ coords d.step)
    {y : Vector K n} (hy : normSq y ≤ radius * radius)
    (hrise : ∀ k < d.active.size, 0 ≤ d.active.normal L k ⬝ᵥ (coords y - coords d.step)) :
    y = d.step := by
  -- the step is a combination of the active gradients with weights that are not negative
  have hdot : 0 ≤ coords d.step ⬝ᵥ (coords y - coords d.step) := by
    have hsum := congrArg (· ⬝ᵥ (coords y - coords d.step)) hs.balanced.sum
    rw [hsum, sum_dotProduct]
    refine Finset.sum_nonneg fun k hk => ?_
    rw [smul_dotProduct]
    exact mul_nonneg (hs.balanced.nonneg k) (hrise k (Finset.mem_range.mp hk))
  have hnorm : (coords y - coords d.step) ⬝ᵥ (coords y - coords d.step) ≤ 0 := by
    have e : (coords y - coords d.step) ⬝ᵥ (coords y - coords d.step) =
        coords y ⬝ᵥ coords y - coords d.step ⬝ᵥ coords d.step -
          2 * (coords d.step ⬝ᵥ (coords y - coords d.step)) := by
      simp only [sub_dotProduct, dotProduct_sub, dotProduct_comm (coords y) (coords d.step)]
      ring
    rw [normSq_eq] at hy
    linarith
  have hzero := dotProduct_self_eq_zero.mp (le_antisymm hnorm (self_dotProduct_nonneg _))
  exact coords_injective (sub_eq_zero.mp hzero)

/-- A step at the boundary has the best objective of those in the ball that are no more violated. -/
theorem Sound.objective_le (hs : d.Sound L) (hout : radius * radius ≤ coords d.step ⬝ᵥ coords d.step)
    {y : Vector K n} (hy : normSq y ≤ radius * radius) (hv : L.violation y ≤ d.violation) :
    L.slope (Fin.last m) ⬝ᵥ coords y ≤ L.slope (Fin.last m) ⬝ᵥ coords d.step := by
  by_contra hlt
  have hlt := not_le.mp hlt
  have e := hs.eq_of_outside hout hy fun k hk => ?_
  · rw [e] at hlt
    exact lt_irrefl _ hlt
  · by_cases hobj : d.active.constraintAt k = Fin.last m
    · rw [ActiveSet.normal, hobj, dotProduct_sub]
      linarith
    · have := hs.rise hk hobj y
      linarith

def Least (L : Linearization K n m) (radius : K) (d : Draft K n m) : Prop :=
  ∀ y : Vector K n, normSq y ≤ radius * radius → d.violation ≤ L.violation y

theorem least_of_zero (h : d.violation = 0) : d.Least L radius := fun y _ =>
  h ▸ L.violation_nonneg y

theorem Sound.least_of_outside (hs : d.Sound L) (hapart : d.active.ObjectiveApart) (hr : 0 < radius)
    (hout : radius * radius ≤ coords d.step ⬝ᵥ coords d.step) : d.Least L radius := by
  intro y hy
  have hobj : ∀ k < d.active.size, d.active.constraintAt k ≠ Fin.last m := fun k hk =>
    hs.balanced.ne_last_of_apart hapart (by have := hapart.2; omega)
  by_contra hlt
  have hlt := not_le.mp hlt
  have e := hs.eq_of_outside hout hy fun k hk => by have := hs.rise hk (hobj k hk) y; linarith
  -- without active constraints the step is none, which is not at the boundary
  rcases Nat.eq_zero_or_pos d.active.size with h0 | hpos
  · have hzero := hs.balanced.sum
    rw [h0, Finset.sum_range_zero] at hzero
    rw [hzero, dotProduct_zero] at hout
    have := mul_pos hr hr
    linarith
  · have := hs.rise hpos (hobj 0 hpos) y
    rw [e, sub_self, dotProduct_zero, ← e] at this
    linarith

/-- Where the gradient of one more most violated constraint is locked, the violation is the least of
all. -/
theorem Sound.least_of_locked (hs : d.Sound L) (hapart : d.active.ObjectiveApart) {k : Nat}
    (hk : d.active.size ≤ k) (hkm : k < m) (hzero : d.active.multiplier k = 0)
    (hlocked : d.active.Locked L k) : d.Least L radius := by
  intro y _
  by_contra hlt
  have hlt := not_le.mp hlt
  obtain ⟨c, hsum, hc⟩ := hlocked
  have hobj : ∀ j < m, d.active.constraintAt j ≠ Fin.last m := fun j hj =>
    hs.balanced.ne_last_of_apart hapart hj
  have hslack := hs.balanced.slack k hk (by omega) (hobj k hkm)
  have hrise : 0 < d.active.normal L k ⬝ᵥ (coords y - coords d.step) := by
    have hy := L.residual_le_violation y (hobj k hkm)
    rw [hzero] at hslack
    rw [L.residual_eq] at hy hslack
    rw [dotProduct_sub]
    unfold ActiveSet.normal
    linarith
  have hfall : d.active.normal L k ⬝ᵥ (coords y - coords d.step) ≤ 0 := by
    rw [hsum, sum_dotProduct]
    refine Finset.sum_nonpos fun j hj => ?_
    have hj := Finset.mem_range.mp hj
    have hjm : d.active.constraintAt j ≠ Fin.last m := hobj j (by omega)
    have := hs.rise hj hjm y
    rw [smul_dotProduct]
    exact mul_nonpos_of_nonpos_of_nonneg (hc j hj hjm) (by linarith)
  exact absurd hrise (not_lt.mpr hfall)

end Draft

/-! ## One pass -/

namespace Pass

variable {p q : Pass K n m} {stage : Stage} {radius : K}

def Turn (L : Linearization K n m) (stage : Stage) (p : Pass K n m) : Prop :=
  (p.draft.Directed L stage ∧ p.draft.Ready L stage p.position) ∨
    (stage = .optimality ∧ p.draft.active.ObjectiveApart ∧ p.position = m)

structure Valid (L : Linearization K n m) (stage : Stage) (p : Pass K n m) : Prop where
  sound : p.draft.Sound L
  zero : p.draft.active.multiplier p.position = 0
  turn : p.Turn L stage

theorem Valid.hindered (h : p.Valid L .optimality) (hge : p.draft.active.size ≤ p.position) :
    p.draft.Hindered L p.position := by
  rcases h.turn with ⟨hd, hready⟩ | ⟨-, hapart, hm⟩
  · exact Or.inr ⟨hd, hge, hready.1, hready.2.2 hge⟩
  · exact Or.inl ⟨hapart, hm⟩

theorem Valid.change (h : p.Valid L stage) :
    (∃ e, p.change L stage = (true, e) ∧ Draft.Changed L stage p.draft e) ∨
      (p.draft.active.size ≤ p.position ∧
        ∃ e, p.change L stage = (false, e) ∧ Draft.Refused L p.draft e p.position) := by
  unfold Pass.change
  rcases Nat.lt_or_ge p.position p.draft.active.size with hlt | hge
  · rw [if_pos hlt]
    refine Or.inl ⟨_, rfl, ?_⟩
    rcases h.turn with ⟨hd, hready⟩ | ⟨-, hapart, hm⟩
    · cases stage with
      | feasibility => exact Draft.changed_remove_feasibility h.sound hd hlt (hready.2 hlt) h.zero
      | optimality => exact Draft.changed_remove_optimality h.sound hd.1 (hready.2.1 hlt) h.zero
    · have := hapart.2
      omega
  · rw [if_neg (Nat.not_lt.mpr hge)]
    have hadd : (∃ e, p.draft.add L stage p.position = (true, e) ∧ Draft.Changed L stage p.draft e) ∨
        ∃ e, p.draft.add L stage p.position = (false, e) ∧
          Draft.Refused L p.draft e p.position := by
      cases stage with
      | feasibility =>
        rcases h.turn with ⟨hd, hready⟩ | ⟨hstage, -⟩
        · exact Draft.changed_add_feasibility h.sound hd hge hready.1 h.zero
        · cases hstage
      | optimality => exact Draft.changed_add_optimality h.sound (h.hindered hge) h.zero
    exact hadd.imp id fun h => ⟨hge, h⟩

inductive Ran (L : Linearization K n m) (radius : K) (stage : Stage) (p : Pass K n m) :
    PassResult K n m → Prop
  | next {q : Pass K n m} (hq : q.Valid L stage) (hle : q.draft.violation ≤ p.draft.violation) :
      Ran L radius stage p (.next q)
  | tired (hcount : Progress.count? p.progress (p.value L stage) p.draft.active.size = none) :
      Ran L radius stage p (.ended .stalled p.draft)
  | refused {e : Draft K n m} (hk : p.draft.active.size ≤ p.position)
      (he : Draft.Refused L p.draft e p.position) : Ran L radius stage p (.ended .stalled e)
  | outside {e : Draft K n m} (he : Draft.Changed L stage p.draft e)
      (hout : radius * radius ≤ coords e.step ⬝ᵥ coords e.step) : Ran L radius stage p (.ended .stalled e)
  | boundary {e : Draft K n m} (hs : e.Sound L) (hd : e.Directed L stage)
      (hle : e.violation ≤ p.draft.violation) (hout : radius * radius ≤ coords e.step ⬝ᵥ coords e.step) :
      Ran L radius stage p (.ended .boundary e)
  | feasible {e : Draft K n m} (hs : e.Sound L) (hd : e.Directed L stage) (hstage : stage = .feasibility)
      (hzero : e.violation = 0) : Ran L radius stage p (.ended .feasible e)

theorem Valid.run (h : p.Valid L stage) (radius : K) : Ran L radius stage p (p.run L radius stage) := by
  unfold Pass.run
  cases hcount : Progress.count? p.progress (p.value L stage) p.draft.active.size with
  | none => exact .tired hcount
  | some progress =>
    dsimp only
    rcases h.change with ⟨e, he, hchanged⟩ | ⟨hge, e, he, hrefused⟩
    · rw [he]
      dsimp only
      have hadv := hchanged.sound.advance hchanged.directed hchanged.pos radius
      generalize e.advance L radius stage = out at hadv
      cases hadv with
      | outside hout => exact .outside hchanged hout
      | blocked hs hd hle hzero hready =>
        exact .next ⟨hs, hzero, Or.inl ⟨hd, hready⟩⟩ (hchanged.violation ▸ hle)
      | boundary hs hd hle hout => exact .boundary hs hd (hchanged.violation ▸ hle) hout
      | feasible hs hd hstage hzero => exact .feasible hs hd hstage hzero
    · rw [he]
      exact .refused hge hrefused

/-! ## Runs of passes -/

/-- The stage that starts with a pass comes to one that its counter of passes without progress refuses. -/
inductive GivesUp (L : Linearization K n m) (radius : K) (stage : Stage) : Pass K n m → Prop
  | now {p : Pass K n m}
      (hcount : Progress.count? p.progress (p.value L stage) p.draft.active.size = none) :
      GivesUp L radius stage p
  | later {p q : Pass K n m} (hrun : p.run L radius stage = .next q) (hq : GivesUp L radius stage q) :
      GivesUp L radius stage p

structure Settled (L : Linearization K n m) (e : Draft K n m) : Prop where
  sound : e.Sound L
  apart : e.active.ObjectiveApart

theorem Settled.of_refused (hs : p.draft.active.ObjectiveApart) {e : Draft K n m}
    (he : Draft.Refused L p.draft e p.position) : Settled L e :=
  ⟨he.sound, by rw [ActiveSet.constraintAt, he.order]; exact hs.1, he.size ▸ hs.2⟩

theorem Valid.run_feasibility (h : p.Valid L .feasibility) (hr : 0 < radius) {how : StageEnd}
    {e : Draft K n m} (hrun : p.run L radius .feasibility = .ended how e) :
    Settled L e ∧ e.violation ≤ p.draft.violation ∧
      (how = .boundary → radius * radius ≤ coords e.step ⬝ᵥ coords e.step) ∧
      (¬ p.GivesUp L radius .feasibility → e.Least L radius) := by
  have hturn : p.draft.Directed L .feasibility ∧ p.draft.Ready L .feasibility p.position := by
    rcases h.turn with hturn | ⟨hstage, -⟩
    · exact hturn
    · cases hstage
  obtain ⟨⟨hapart, -⟩, hready⟩ := hturn
  have hran := h.run radius
  rw [hrun] at hran
  cases hran with
  | tired hcount =>
    exact ⟨⟨h.sound, hapart⟩, le_refl _, nofun, fun hnot => absurd (.now hcount) hnot⟩
  | refused hk he =>
    have hle : p.draft.Least L radius := h.sound.least_of_locked hapart hk hready.1 h.zero he.locked
    exact ⟨.of_refused hapart he, he.violation.le, nofun, fun _ y hy => he.violation ▸ hle y hy⟩
  | outside he hout =>
    exact ⟨⟨he.sound, he.directed.1⟩, he.violation.le, nofun,
      fun _ => he.sound.least_of_outside he.directed.1 hr hout⟩
  | boundary hs hd hle hout =>
    exact ⟨⟨hs, hd.1⟩, hle, fun _ => hout, fun _ => hs.least_of_outside hd.1 hr hout⟩
  | feasible hs hd _ hzero =>
    exact ⟨⟨hs, hd.1⟩, hzero ▸ h.sound.violation_nonneg, nofun, fun _ => Draft.least_of_zero hzero⟩

theorem Valid.runWithin_feasibility (hr : 0 < radius) {how : StageEnd} {e : Draft K n m} :
    ∀ (fuel : Nat) {p : Pass K n m}, p.Valid L .feasibility →
      p.runWithin L radius .feasibility fuel = some (how, e) →
      Settled L e ∧ e.violation ≤ p.draft.violation ∧
        (how = .boundary → radius * radius ≤ coords e.step ⬝ᵥ coords e.step) ∧
        (¬ p.GivesUp L radius .feasibility → e.Least L radius)
  | 0, _, _, h => nomatch h
  | fuel + 1, p, hp, h => by
    unfold runWithin at h
    cases hrun : p.run L radius .feasibility with
    | ended how' e' =>
      rw [hrun] at h
      cases h
      exact hp.run_feasibility hr hrun
    | next q =>
      rw [hrun] at h
      have hran := hp.run radius
      rw [hrun] at hran
      cases hran with
      | next hq hle =>
        obtain ⟨hsettled, hviolation, hout, hleast⟩ := runWithin_feasibility hr fuel hq h
        exact ⟨hsettled, hviolation.trans hle, hout, fun hnot => hleast fun hq => hnot (.later hrun hq)⟩

theorem Valid.runWithin_optimality {how : StageEnd} {e : Draft K n m} :
    ∀ (fuel : Nat) {p : Pass K n m}, p.Valid L .optimality →
      p.runWithin L radius .optimality fuel = some (how, e) →
      e.Sound L ∧ e.violation ≤ p.draft.violation ∧
        (how ≠ .stalled → radius * radius ≤ coords e.step ⬝ᵥ coords e.step)
  | 0, _, _, h => nomatch h
  | fuel + 1, p, hp, h => by
    have hran := hp.run radius
    unfold runWithin at h
    generalize p.run L radius .optimality = result at h hran
    cases hran with
    | next hq hle =>
      obtain ⟨hs, hviolation, hout⟩ := runWithin_optimality fuel hq h
      exact ⟨hs, hviolation.trans hle, hout⟩
    | tired _ => cases h; exact ⟨hp.sound, le_refl _, fun hne => absurd rfl hne⟩
    | refused _ he => cases h; exact ⟨he.sound, he.violation.le, fun hne => absurd rfl hne⟩
    | outside he _ => cases h; exact ⟨he.sound, he.violation.le, fun hne => absurd rfl hne⟩
    | boundary hs _ hle hout => cases h; exact ⟨hs, hle, fun _ => hout⟩
    | feasible _ _ hstage _ => cases hstage

end Pass

end

end TrustSimplex
