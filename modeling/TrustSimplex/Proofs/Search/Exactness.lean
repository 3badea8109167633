import TrustSimplex.Proofs.Search.Phases
import TrustSimplex.Proofs.Simplex.Position
import TrustSimplex.Proofs.TrustRegion.Optimality

/-!
# Exactness along a run

Over exact arithmetic the stored inverse is exact in every state that a run can reach. The accuracy check
finds nothing, nothing is divided by zero, and no run ends for rounding errors.
-/

namespace TrustSimplex.Search

section
variable {K I O ε σ : Type} [EuclideanField K] {n m : Nat} {q : Search K I O ε σ n m} {s : State K I O σ n m}

/-! ## Radii -/

theorem finalRadius_pos (q : Search K I O ε σ n m) : 0 < q.config.finalRadius :=
  not_le.mp q.config.finalRadius_positive

theorem startRadius_pos (q : Search K I O ε σ n m) : 0 < q.config.startRadius :=
  q.finalRadius_pos.trans (not_le.mp q.config.startRadius_greater)

theorem reducedRadius_pos (q : Search K I O ε σ n m) {radius : K} (h : 0 < radius) :
    0 < q.reducedRadius radius := by
  unfold reducedRadius
  dsimp only
  split_ifs
  · exact q.finalRadius_pos
  · exact mul_pos h (by norm_num)

/-! ## The phases keep the inverse -/

def Exact (s : State K I O σ n m) : Prop := s.simplex.Exact ∧ 0 < s.radius

theorem Exact.selected (h : Exact s) : Exact s.selected := ⟨h.1.pivotTo _, h.2⟩

/-- The accuracy check finds no error. -/
theorem Exact.accurate (h : Exact s) : ¬ accuracyBound < s.selected.simplex.inverseError := by
  rw [h.selected.1.inverseError]
  unfold accuracyBound
  norm_num

theorem Exact.accepted {g : Geometry K n} {step : Vector K n} {p : Prediction K}
    {r : Sample K (Snapshot I O) m} {out : Phase K ε n × State K I O σ n m} (h : Exact s) (hg : g = s.geometry)
    (ho : Accepted s g step p r out) : Exact out.2 ∧ out.1 ≠ .finish .roundingErrors := by
  subst hg
  cases ho with
  | dropped => exact ⟨h, nofun⟩
  | gained hj => exact ⟨⟨h.1.replace (h.1.dot_vertexToReplace_ne h.2 hj), h.2⟩, nofun⟩
  | stored hj => exact ⟨⟨h.1.replace (h.1.dot_vertexToReplace_ne h.2 hj), h.2⟩, nofun⟩

theorem Exact.iterated {fuel : Nat} {out : Phase K ε n × State K I O σ n m} (h : Exact s)
    (ho : Iterated q s fuel out) : Exact out.2 ∧ out.1 ≠ .finish .roundingErrors := by
  -- only the pivot, a repair and a trial that is taken up touch the simplex
  have ht := h.selected
  cases ho with
  | inaccurate herror => exact absurd herror h.accurate
  | @repaired j step _ hj hstep ha =>
    have hreplaced : (s.surveyed.simplex.replace j step).Exact :=
      hstep ▸ ht.1.replace (ht.1.dot_repairStep_ne ht.2 j _ _)
    cases ha <;> exact ⟨⟨hreplaced, ht.2⟩, nofun⟩
  | unresolved => exact ⟨ht, nofun⟩
  | tooShort => exact ⟨ht, nofun⟩
  | stepped hstep hlong hstepped =>
    cases hstepped with
    | halted => exact ⟨ht, nofun⟩
    | overtaken => exact ⟨ht, nofun⟩
    | @tried w _ hw ha =>
      have hsame : w.simplex = s.surveyed.simplex ∧ w.radius = s.radius := by cases hw <;> exact ⟨rfl, rfl⟩
      have hexact : Exact w := ⟨hsame.1 ▸ ht.1, hsame.2 ▸ h.2⟩
      have hg : s.surveyed.geometry = w.geometry := by
        rw [State.geometry, State.geometry, hsame.1, hsame.2]
        rfl
      cases ha with
      | exhausted => exact ⟨hexact, nofun⟩
      | failed => exact ⟨hexact, nofun⟩
      | stopped => exact ⟨hexact, nofun⟩
      | @evaluated sample ledger =>
        have hready : Exact { w with repairArmed := false, ledger } := hexact
        exact hready.accepted hg (Search.accepted _ _ _ _ _)

theorem Exact.shrunk {out : Phase K ε n × State K I O σ n m} (h : Exact s) (ho : Shrunk q s out) :
    Exact out.2 ∧ out.1 ≠ .finish .roundingErrors := by
  cases ho with
  | rearmed => exact ⟨h, nofun⟩
  | converged => exact ⟨h, nofun⟩
  | halted => exact ⟨⟨h.1, q.reducedRadius_pos h.2⟩, nofun⟩
  | reduced => exact ⟨⟨h.1, q.reducedRadius_pos h.2⟩, nofun⟩

/-! ## Reachable states -/

inductive Grown (q : Search K I O ε σ n m) : State K I O σ n m → Prop
  | first (x : Vector K n) (first : Sample K (Snapshot I O) m) (ledger : Ledger K I O σ n) :
      Grown q (q.firstState x first ledger)
  | extend {s : State K I O σ n m} (h : Grown q s) (hbuilding : s.simplex.isBuilding = true)
      (sample : Sample K (Snapshot I O) m) (ledger : Ledger K I O σ n) :
      Grown q { s with ledger, simplex := s.simplex.extend sample }

/-- The states that any phases in any order lead to from a simplex that was grown. -/
inductive Reached (q : Search K I O ε σ n m) : State K I O σ n m → Prop
  | grown {s : State K I O σ n m} (h : Grown q s) : Reached q s
  | iterate {s : State K I O σ n m} (h : Reached q s) (fuel : Nat) : Reached q (q.iterate s fuel).2
  | shrink {s : State K I O σ n m} (h : Reached q s) : Reached q (q.shrink s).2

theorem Grown.growing (h : Grown q s) : s.simplex.Growing s.radius ∧ 0 < s.radius := by
  induction h with
  | first x first ledger => exact ⟨Simplex.growing_start x q.startRadius_pos.ne' first, q.startRadius_pos⟩
  | extend h hbuilding sample ledger ih => exact ⟨ih.1.extend ih.2.ne' hbuilding sample, ih.2⟩

theorem Grown.withLedger (h : Grown q s) (ledger : Ledger K I O σ n) : Grown q { s with ledger } := by
  cases h with
  | first x first _ => exact .first x first ledger
  | extend h hbuilding sample _ => exact .extend h hbuilding sample ledger

theorem Reached.exact (h : Reached q s) : Exact s := by
  induction h with
  | grown h => exact ⟨h.growing.1.exact, h.growing.2⟩
  | iterate h fuel ih => exact (ih.iterated (Search.iterated _ fuel)).1
  | shrink h ih => exact (ih.shrunk (Search.shrunk _)).1

theorem reached_start {x : Vector K n} {memory : σ} {r : Run K I O ε σ n m} (h : q.start x memory = .ok r) :
    Reached q r.state ∧ r.phase ≠ .finish .roundingErrors := by
  have hstarted : Started q x memory (Grown q) r :=
    started (fun _ => .first x _ _) (fun h hbuilding _ => .extend h hbuilding _ _) h
  cases hstarted with
  | stopped => exact ⟨.grown (.first x _ _), nofun⟩
  | built hbuilt =>
    cases hbuilt with
    | failed hs => exact ⟨.grown (hs.withLedger _), nofun⟩
    | stopped hs hbuilding => exact ⟨.grown (.extend hs hbuilding _ _), nofun⟩
    | complete hs => exact ⟨.grown hs, nofun⟩

theorem reached_follow {x : Vector K n} {memory : σ} {r : Run K I O ε σ n m} (h : q.start x memory = .ok r)
    (fuel count : Nat) : Reached q (q.follow fuel r count).state ∧
      (q.follow fuel r count).phase ≠ .finish .roundingErrors :=
  follow_invariant (P := fun phase s => Reached q s ∧ phase ≠ .finish .roundingErrors)
    (fun _ h => ⟨h.1.iterate fuel, (h.1.exact.iterated (iterated _ fuel)).2⟩)
    (fun _ h => ⟨h.1.shrink, (h.1.exact.shrunk (shrunk _)).2⟩) count (reached_start h)

end

/-! ## A cubic of one variable -/

/-- It falls to the left of zero, but by less than its slope there promises. -/
noncomputable def cubic (u : ℝ) : ℝ := 1.375 * u + 0.75 * (u * u) - 0.59375 * (u * u * u)

theorem cubic_neg_one : cubic (-1) = -1 / 32 := by
  unfold cubic
  norm_num

noncomputable def cubicSearch (answer : Event ℝ (Vector ℝ 1) Unit 1 → Option Action) :
    Search ℝ (Vector ℝ 1) Unit Empty Unit 1 0 where
  model := ⟨fun _ => .ok ()⟩
  problem := ⟨.ok, fun u _ => .ok (cubic u[0]), fun _ _ => .ok #v[]⟩
  config := ⟨2, 1, 100, rfl, by norm_num, rfl, by norm_num⟩
  observer := .ofFunction answer

noncomputable def cubicSample (u : ℝ) : Sample ℝ (Snapshot (Vector ℝ 1) Unit) 0 :=
  ⟨#v[], cubic u, 0, ⟨#v[u], ()⟩⟩

noncomputable def cubicSimplex : Simplex ℝ (Snapshot (Vector ℝ 1) Unit) 1 0 :=
  ⟨#v[0], ⟨#v[#v[2]]⟩, ⟨#v[#v[1 / 2]]⟩, cubicSample 0, #[cubicSample 2]⟩

noncomputable def cubicEvent (evals : Nat) (u : ℝ) (kind : Probe) : Event ℝ (Vector ℝ 1) Unit 1 :=
  .evaluated evals kind ⟨#v[u], cubic u, 0⟩ ⟨#v[u], ()⟩

noncomputable def cubicLedger (answer : Event ℝ (Vector ℝ 1) Unit 1 → Option Action)
    (l : Ledger ℝ (Vector ℝ 1) Unit Unit 1) (u : ℝ) (kind : Probe) : Ledger ℝ (Vector ℝ 1) Unit Unit 1 :=
  ⟨l.evals + 1, (), .shown (cubicEvent (l.evals + 1) u kind) (answer (cubicEvent (l.evals + 1) u kind)) ::
    .attempted #v[u] :: l.entries⟩

theorem probe_cubic (answer : Event ℝ (Vector ℝ 1) Unit 1 → Option Action)
    (l : Ledger ℝ (Vector ℝ 1) Unit Unit 1) (u : ℝ) (kind : Probe) :
    (cubicSearch answer).probe l #v[u] kind =
      (.ok (cubicSample u, answer (cubicEvent (l.evals + 1) u kind)), cubicLedger answer l u kind) := by
  have heval : evaluate (cubicSearch answer).model (cubicSearch answer).problem #v[u] =
      .ok ⟨#v[u], cubic u, #v[], ⟨#v[u], ()⟩⟩ := rfl
  have hfinite :
      (⟨#v[u], cubic u, #v[], ⟨#v[u], ()⟩⟩ : Evaluation ℝ (Vector ℝ 1) Unit 1 0).isFinite = true := by
    simp [Evaluation.isFinite, Scalar.isFinite]
  have hviolation : (greatestViolation #v[] : ℝ) = 0 := by simp [greatestViolation]
  unfold probe
  rw [heval]
  dsimp only
  rw [if_pos hfinite]
  simp only [Evaluation.sample, Evaluation.maxViolation, hviolation]
  rfl

/-! ## A run on the cubic -/

noncomputable def unwatched : Search ℝ (Vector ℝ 1) Unit Empty Unit 1 0 := cubicSearch fun _ => none

def PassesNonnegative (answer : Event ℝ (Vector ℝ 1) Unit 1 → Option Action) : Prop :=
  ∀ e p, e.point? = some p → 0 ≤ p.objective → answer e = none

section
variable {answer : Event ℝ (Vector ℝ 1) Unit 1 → Option Action}

theorem exact_cubicSimplex : cubicSimplex.Exact := by
  refine Simplex.exact_iff.mpr fun i c => ?_
  rw [Subsingleton.elim i 0, Subsingleton.elim c 0, if_pos rfl]
  show coords #v[(1 / 2 : ℝ)] ⬝ᵥ coords #v[2] = 1
  rw [Linearization.coords_one]
  norm_num

theorem offset_cubicSimplex (d : Vector ℝ 1) : cubicSimplex.offset d = d :=
  Simplex.offset_eq_self coords_zeroVec d

theorem selectBest_eq_pole {S : Type} {m : Nat} {s : Simplex ℝ S 1 m} {penalty : ℝ}
    (h : ¬ s.rank penalty (.other 0) < s.rank penalty .pole) : s.selectBest penalty = .pole := by
  unfold Simplex.selectBest
  rw [Fin.foldl_succ, Fin.foldl_zero, if_neg fun hbeaten => h (Simplex.beats_iff.mp hbeaten)]

theorem selectBest_cubicSimplex : cubicSimplex.selectBest 0 = .pole := by
  refine selectBest_eq_pole fun h => ?_
  have hbetter : Better 0 (cubic 2) 0 (cubic 0) 0 := better_iff.mpr h
  unfold Better cubic at hbetter
  norm_num at hbetter

theorem geometry_cubicSimplex (radius : ℝ) : cubicSimplex.geometry radius = ⟨radius, #v[2], #v[2]⟩ := by
  have hrow : cubicSimplex.inverse.row 0 = #v[1 / 2] := rfl
  have hcol : cubicSimplex.edges.col 0 = #v[2] := rfl
  have hheight : (1 : ℝ) / Scalar.sqrt (normSq (cubicSimplex.inverse.row 0)) = 2 := by
    have hroot : (Scalar.sqrt (1 / 2 * (1 / 2)) : ℝ) = 1 / 2 := Real.sqrt_mul_self (by norm_num)
    rw [normSq_eq, hrow, Linearization.coords_one, hroot]
    norm_num
  have hlength : (Scalar.sqrt (normSq (cubicSimplex.edges.col 0)) : ℝ) = 2 := by
    have hroot : (Scalar.sqrt (2 * 2) : ℝ) = 2 := Real.sqrt_mul_self (by norm_num)
    rw [normSq_eq, hcol, Linearization.coords_one, hroot]
  unfold Simplex.geometry
  congr 1
  · ext i hi
    interval_cases i
    simpa using hheight
  · ext i hi
    interval_cases i
    simpa using hlength

theorem gradient_cubicSimplex : cubicSimplex.linearize.gradient 0 = #v[-1 / 2] := by
  have hother : cubicSimplex.value (.other 0) 0 = 1 := by
    show cubic 2 = 1
    unfold cubic
    norm_num
  have hpole : cubicSimplex.value .pole 0 = 0 := by
    show cubic 0 = 0
    unfold cubic
    norm_num
  unfold Simplex.linearize Linearization.gradient
  ext i hi
  interval_cases i
  simp [ColMatrix.col, Vector.getD, dot_eq, hother, coords, dotProduct]
  show -((1 + -cubicSimplex.value .pole 0) * (1 / 2)) = (-1 / 2 : ℝ)
  rw [hpole]
  norm_num

theorem solveWithin_cubicSimplex {radius : ℝ} (hr : 0 < radius) (fuel : Nat) :
    cubicSimplex.linearize.solveWithin radius (fuel + 1) = some ⟨#v[-radius], true⟩ := by
  have hmove : radius * |(-1 / 2 : ℝ)| * (1 / (-1 / 2)) = -radius := by
    rw [abs_of_neg (by norm_num)]
    ring
  rw [Linearization.solveWithin_free gradient_cubicSimplex (by norm_num) hr, hmove]

noncomputable def cubicState (radius : ℝ) (ledger : Ledger ℝ (Vector ℝ 1) Unit Unit 1) :
    State ℝ (Vector ℝ 1) Unit Unit 1 0 := ⟨ledger, cubicSimplex, radius, 0, false, true⟩

theorem surveyed_of_cubicSimplex {s : State ℝ (Vector ℝ 1) Unit Unit 1 0} (hs : s.simplex = cubicSimplex)
    (hpenalty : s.penalty = 0) :
    s.surveyed = { s with acceptable := (cubicSimplex.geometry s.radius).isAcceptable } := by
  have hselected : s.selected = s := State.selected_eq_self (by rw [hs, hpenalty, selectBest_cubicSimplex])
  rw [← hs]
  unfold State.surveyed
  rw [hselected]
  rfl

/-- The first simplex at zero in one variable has its other vertex at the radius. -/
theorem nextInitial_zero {S : Type} {m : Nat} (radius : ℝ) (first : Sample ℝ S m) :
    (Simplex.start #v[0] radius first).nextInitial = #v[radius] := by
  have hentry : (ColMatrix.identity 1 radius).entry 0 0 = radius := by
    rw [ColMatrix.entry_identity 1 radius Nat.one_pos Nat.one_pos, if_pos rfl]
  show (Simplex.start #v[0] radius first).offset
    ((zeroVec 1 : Vector ℝ 1).setIfInBounds 0 ((ColMatrix.identity 1 radius).entry 0 0)) = _
  rw [hentry]
  exact Simplex.offset_eq_self coords_zeroVec _

theorem extend_cubicSample : (Simplex.start #v[0] 2 (cubicSample 0)).extend (cubicSample 2) = cubicSimplex := by
  have hle : cubic 0 ≤ cubic 2 := by unfold cubic; norm_num
  exact (if_pos hle).trans rfl

theorem start_cubic (hpass : PassesNonnegative answer) : (cubicSearch answer).start #v[0] () =
    .ok ⟨.selectBest, cubicState 2 (cubicLedger answer (cubicLedger answer (.start ()) 0 .initial) 2 .initial)⟩ := by
  have hnext : ∀ l, ((cubicSearch answer).firstState #v[0] (cubicSample 0) l).simplex.nextInitial = #v[2] :=
    fun _ => nextInitial_zero 2 _
  have hextend : ∀ l, ((cubicSearch answer).firstState #v[0] (cubicSample 0) l).simplex.extend (cubicSample 2) =
      cubicSimplex := fun _ => extend_cubicSample
  have hvalid : (cubicSearch answer).config.validateFor 1 = .ok () := rfl
  have hzero : ∀ evals, answer (cubicEvent evals 0 .initial) = none :=
    fun evals => hpass _ _ rfl (by show 0 ≤ cubic 0; unfold cubic; norm_num)
  have htwo : ∀ evals, answer (cubicEvent evals 2 .initial) = none :=
    fun evals => hpass _ _ rfl (by show 0 ≤ cubic 2; unfold cubic; norm_num)
  unfold start
  rw [hvalid]
  dsimp only
  rw [probe_cubic, hzero]
  dsimp only
  unfold build
  rw [hnext, probe_cubic, htwo]
  dsimp only
  rw [hextend]
  rfl

variable (answer) in
theorem iterate_cubic_eq_tryStep {radius : ℝ} (hlarge : 1 ≤ radius) (hsmall : radius ≤ 2)
    (ledger : Ledger ℝ (Vector ℝ 1) Unit Unit 1) (fuel : Nat) :
    (cubicSearch answer).iterate (cubicState radius ledger) (fuel + 1) =
      (cubicSearch answer).tryStep (cubicState radius ledger) (cubicSimplex.geometry radius) #v[-radius]
        (predict (cubicState radius ledger) cubicSimplex.linearize #v[-radius]) := by
  have hr : 0 < radius := by linarith
  have hacceptable : (cubicSimplex.geometry radius).isAcceptable = true := by
    rw [geometry_cubicSimplex]
    have h₁ : 0.25 * radius ≤ 2 := by linarith
    have h₂ : 2 ≤ 2.1 * radius := by linarith
    simp [Geometry.isAcceptable, Geometry.leastHeight, Geometry.greatestLength, h₁, h₂]
  have hsurveyed : (cubicState radius ledger).surveyed = cubicState radius ledger := by
    rw [surveyed_of_cubicSimplex rfl rfl, show (cubicState radius ledger).radius = radius from rfl, hacceptable]
    rfl
  have haccurate : ¬ accuracyBound < (cubicState radius ledger).selected.simplex.inverseError :=
    Exact.accurate ⟨exact_cubicSimplex, hr⟩
  have hkept : ¬ (cubicState radius ledger).penalty <
      1.5 * (predict (cubicState radius ledger) cubicSimplex.linearize #v[-radius]).leastPenalty := by
    have hleast : (predict (cubicState radius ledger) cubicSimplex.linearize #v[-radius]).leastPenalty = 0 := by
      have hdrop : (predict (cubicState radius ledger) cubicSimplex.linearize #v[-radius]).violationDrop = 0 :=
        sub_self 0
      unfold Prediction.leastPenalty
      rw [hdrop, if_neg (lt_irrefl 0)]
    rw [hleast, mul_zero]
    exact lt_irrefl 0
  have hstep : (cubicState radius ledger).surveyed.simplex.linearize.solveWithin radius (fuel + 1) =
      some ⟨#v[-radius], true⟩ := by
    rw [hsurveyed]
    exact solveWithin_cubicSimplex hr fuel
  have htry : (cubicSearch answer).iterate (cubicState radius ledger) (fuel + 1) = _ :=
    iterate_eq_tryStep haccurate rfl hstep rfl (by rw [hsurveyed]; exact hkept)
  rw [htry, hsurveyed]
  rfl

variable (answer) in
theorem probe_cubic_step (radius : ℝ) (ledger : Ledger ℝ (Vector ℝ 1) Unit Unit 1) :
    (cubicSearch answer).probe ledger ((cubicState radius ledger).simplex.offset #v[-radius]) .trial =
      (.ok (cubicSample (-radius), answer (cubicEvent (ledger.evals + 1) (-radius) .trial)),
        cubicLedger answer ledger (-radius) .trial) := by
  rw [show (cubicState radius ledger).simplex = cubicSimplex from rfl, offset_cubicSimplex, probe_cubic]

theorem iterate_cubic {radius : ℝ} (hlarge : 1 ≤ radius) (hsmall : radius ≤ 2)
    (ledger : Ledger ℝ (Vector ℝ 1) Unit Unit 1) (hbudget : ledger.evals < 100)
    (hnone : answer (cubicEvent (ledger.evals + 1) (-radius) .trial) = none) (fuel : Nat) :
    (cubicSearch answer).iterate (cubicState radius ledger) (fuel + 1) =
      accept (cubicState radius (cubicLedger answer ledger (-radius) .trial)) (cubicSimplex.geometry radius)
        #v[-radius] (predict (cubicState radius ledger) cubicSimplex.linearize #v[-radius]) (cubicSample (-radius)) := by
  have hprobe := probe_cubic_step answer radius ledger
  rw [hnone] at hprobe
  rw [iterate_cubic_eq_tryStep answer hlarge hsmall]
  exact tryStep_eq_accept (decide_eq_true hbudget) hprobe

theorem reductions_cubic (radius u : ℝ) (ledger : Ledger ℝ (Vector ℝ 1) Unit Unit 1) (p : Prediction ℝ)
    (hu : cubic u ≠ 0) :
    reductions (cubicState radius ledger) p (cubicSample u) = (-p.objectiveRise, -cubic u) := by
  have hzero : cubic 0 = 0 := by unfold cubic; norm_num
  have hviolation : (cubicState radius ledger).simplex.maxViolation .pole = 0 := rfl
  have hobjective : (cubicState radius ledger).simplex.objective .pole = 0 := hzero
  have hpenalty : (cubicState radius ledger).penalty = 0 := rfl
  unfold reductions
  rw [hviolation, hobjective, hpenalty]
  simp [cubicSample, hu]

theorem reductions_cubic_neg_one (radius : ℝ) (ledger : Ledger ℝ (Vector ℝ 1) Unit Unit 1) (p : Prediction ℝ) :
    reductions (cubicState radius ledger) p (cubicSample (-1)) = (-p.objectiveRise, 1 / 32) := by
  rw [reductions_cubic _ _ _ _ (by rw [cubic_neg_one]; norm_num), cubic_neg_one]
  norm_num

theorem objectiveRise_cubic (radius : ℝ) (ledger : Ledger ℝ (Vector ℝ 1) Unit Unit 1) :
    (predict (cubicState radius ledger) cubicSimplex.linearize #v[-radius]).objectiveRise = -radius / 2 := by
  show -dot (cubicSimplex.linearize.gradient 0) #v[-radius] = _
  rw [gradient_cubicSimplex, dot_eq, Linearization.coords_one]
  ring

/-- The first trial is worse and too near to replace the vertex. -/
theorem accept_cubic_two (ledger : Ledger ℝ (Vector ℝ 1) Unit Unit 1) (p : Prediction ℝ) :
    (accept (cubicState 2 ledger) (cubicSimplex.geometry 2) #v[-2] p (cubicSample (-2)) :
        Phase ℝ Empty 1 × State ℝ (Vector ℝ 1) Unit Unit 1 0) = (.shrinkRadius, cubicState 2 ledger) := by
  have hfar : cubic (-2) = 5 := by unfold cubic; norm_num
  have hnone : cubicSimplex.vertexToReplace? (cubicSimplex.geometry 2) #v[-2] (-5) = none := by
    have hratio : (cubicSimplex.volumeRatios #v[-2]).get 0 = 1 := by
      rw [Simplex.get_volumeRatios, dot_eq, show cubicSimplex.inverse.row (0 : Fin 1) = #v[1 / 2] from rfl,
        Linearization.coords_one]
      norm_num
    have hradius : (cubicSimplex.geometry 2).radius = 2 := rfl
    have hlength : (cubicSimplex.geometry 2).lengths.get 0 = 2 := by rw [geometry_cubicSimplex]; rfl
    have hworse : ¬ (5 : ℝ) < 0 := by norm_num
    have hnear : ¬ (1.1 * 2 : ℝ) < 2 := by norm_num
    unfold Simplex.vertexToReplace? Geometry.longest? Simplex.edgeFrom
    simp [Fin.foldl_succ, hratio, hradius, hlength, hworse, hnear]
  unfold accept
  rw [reductions_cubic _ _ _ _ (by rw [hfar]; norm_num), hfar]
  dsimp only
  rw [show (cubicState 2 ledger).simplex = cubicSimplex from rfl, hnone]

theorem vertexToReplace?_cubicSimplex :
    cubicSimplex.vertexToReplace? (cubicSimplex.geometry 1) #v[-1] (1 / 32) = some 0 := by
  have hmove : coords (#v[-1] : Vector ℝ 1) ≠ 0 := Linearization.coords_singleton_ne_zero (by norm_num)
  obtain ⟨j, hj⟩ := exact_cubicSimplex.exists_vertexToReplace (cubicSimplex.geometry 1) hmove
    (show (0 : ℝ) < 1 / 32 by norm_num)
  rwa [Subsingleton.elim j 0] at hj

/-- The last trial is better, but by less than a tenth of what was predicted. -/
theorem accept_cubic_one (ledger before : Ledger ℝ (Vector ℝ 1) Unit Unit 1) :
    (accept (cubicState 1 ledger) (cubicSimplex.geometry 1) #v[-1]
      (predict (cubicState 1 before) cubicSimplex.linearize #v[-1]) (cubicSample (-1)) :
        Phase ℝ Empty 1 × State ℝ (Vector ℝ 1) Unit Unit 1 0) = (.shrinkRadius,
          { cubicState 1 ledger with simplex := (cubicSimplex.replace 0 #v[-1]).store 0 (cubicSample (-1)) }) := by
  unfold accept
  rw [reductions_cubic_neg_one, objectiveRise_cubic]
  dsimp only
  rw [show (cubicState 1 ledger).simplex = cubicSimplex from rfl, vertexToReplace?_cubicSimplex]
  dsimp only
  rw [if_neg (by norm_num)]

theorem shrink_cubic_two (hpass : PassesNonnegative answer) (ledger : Ledger ℝ (Vector ℝ 1) Unit Unit 1) :
    ∃ ledger', ledger'.evals = ledger.evals ∧
      (cubicSearch answer).shrink (cubicState 2 ledger) = (.selectBest, cubicState 1 ledger') := by
  have hradius : (cubicSearch answer).reducedRadius 2 = 1 := by
    have hhalf : (2 * 0.5 : ℝ) ≤ 1.5 * 1 := by norm_num
    exact if_pos hhalf
  have hpenalty : (cubicState 2 ledger).reducedPenalty = 0 := if_neg (lt_irrefl (0 : ℝ))
  have ho : Shrunk (cubicSearch answer) (cubicState 2 ledger) ((cubicSearch answer).shrink (cubicState 2 ledger)) :=
    shrunk _
  generalize (cubicSearch answer).shrink (cubicState 2 ledger) = out at ho ⊢
  cases ho with
  | rearmed hpoor => cases hpoor
  | converged _ hend => exact absurd hend (by show ¬ (2 : ℝ) ≤ 1; norm_num)
  | halted _ _ ha =>
    have hzero : (0 : ℝ) ≤ cubicSimplex.best.objective := by
      show 0 ≤ cubic 0
      unfold cubic
      norm_num
    cases (congrArg Prod.fst ha).symm.trans (hpass _ _ rfl hzero)
  | @reduced ledger' _ _ ha =>
    refine ⟨ledger', ?_, ?_⟩
    · have := congrArg (fun shown => shown.2.evals) ha
      exact this.symm
    · rw [hpenalty, show (cubicState 2 ledger).radius = 2 from rfl, hradius]
      rfl

/-- The run comes to the radius one with the simplex that it started from. -/
theorem follow_cubic_two (hpass : PassesNonnegative answer) : ∃ r ledger,
    (cubicSearch answer).start #v[0] () = .ok r ∧ ledger.evals = 3 ∧ ∀ count,
      (cubicSearch answer).follow 4 r (count + 2) =
        (cubicSearch answer).follow 4 ⟨.selectBest, cubicState 1 ledger⟩ count := by
  obtain ⟨ledger, hevals, hshrink⟩ := shrink_cubic_two hpass
    (cubicLedger answer (cubicLedger answer (cubicLedger answer (.start ()) 0 .initial) 2 .initial) (-2) .trial)
  have hfive : ∀ evals, answer (cubicEvent evals (-2) .trial) = none :=
    fun evals => hpass _ _ rfl (by show 0 ≤ cubic (-2); unfold cubic; norm_num)
  have hfirst := iterate_cubic one_le_two (le_refl 2)
    (cubicLedger answer (cubicLedger answer (.start ()) 0 .initial) 2 .initial)
    (by show 2 < 100; decide) (hfive _) 3
  rw [accept_cubic_two] at hfirst
  exact ⟨_, ledger, start_cubic hpass, hevals, fun count =>
    (follow_selectBest hfirst (count + 1)).trans (follow_shrinkRadius hshrink 4 count)⟩

end

/-- The run converges in a simplex whose other vertex is the better one. -/
theorem follow_cubic : ∃ r e, unwatched.start #v[0] () = .ok r ∧
    unwatched.follow 4 r 4 = ⟨.finish .converged, e⟩ ∧
    e.penalty = 0 ∧ e.simplex = (cubicSimplex.replace 0 #v[-1]).store 0 (cubicSample (-1)) := by
  have hpass : PassesNonnegative fun _ => none := fun _ _ _ _ => rfl
  obtain ⟨r, ledger, hr, hevals, hfollow⟩ := follow_cubic_two hpass
  have hsecond := @iterate_cubic (fun _ => none) 1 (le_refl 1) one_le_two ledger (by rw [hevals]; decide) rfl 3
  rw [accept_cubic_one] at hsecond
  have hend : ∀ s : State ℝ (Vector ℝ 1) Unit Unit 1 0, s.acceptable = true → s.radius = 1 →
      unwatched.shrink s = (.finish .converged, s) := by
    intro s hsound hradius
    unfold shrink
    rw [hsound, hradius]
    exact if_pos (le_refl (1 : ℝ))
  refine ⟨r, { cubicState 1 (cubicLedger (fun _ => none) ledger (-1) .trial) with
    simplex := (cubicSimplex.replace 0 #v[-1]).store 0 (cubicSample (-1)) }, hr, ?_, rfl, rfl⟩
  exact (hfollow 2).trans ((follow_selectBest hsecond 1).trans (follow_shrinkRadius (hend _ rfl rfl) 4 0))

/-! ## A simplex that turns and one that needs repair -/

/-- Seen from two, the vertex at four is the lower one and becomes the pole. -/
theorem entry_edges_turned :
    ((Simplex.start #v[2] 2 (cubicSample 2)).extend (cubicSample 4)).edges.entry 0 0 = -2 := by
  have hlower : ¬ (Simplex.start #v[2] 2 (cubicSample 2)).objective .pole ≤ (cubicSample 4).objective := by
    show ¬ cubic 2 ≤ cubic 4
    unfold cubic
    norm_num
  have hlength : (ColMatrix.identity 1 (2 : ℝ)).entry 0 0 = 2 := by
    rw [ColMatrix.entry_identity 1 2 Nat.one_pos Nat.one_pos, if_pos rfl]
  unfold Simplex.extend
  rw [if_neg hlower, ColMatrix.entry_ofFn _ Nat.one_pos Nat.one_pos]
  exact congrArg (- ·) hlength

/-- The cubic again, down to a radius for which the first simplex is too long. -/
noncomputable def narrowing : Search ℝ (Vector ℝ 1) Unit Empty Unit 1 0 :=
  { unwatched with config := ⟨2, 1 / 2, 100, rfl, by norm_num, rfl, by norm_num⟩ }

theorem shrink_narrowing {radius : ℝ} (h : 1 / 2 < radius) (l : Ledger ℝ (Vector ℝ 1) Unit Unit 1) :
    ∃ l', (narrowing.shrink (cubicState radius l)).2 = cubicState (narrowing.reducedRadius radius) l' := by
  have hpenalty : (cubicState radius l).reducedPenalty = 0 := if_neg (lt_irrefl (0 : ℝ))
  have hend : ¬ (cubicState radius l).radius ≤ narrowing.config.finalRadius := not_le.mpr h
  rw [shrink_eq, hpenalty, if_neg hend]
  exact ⟨_, rfl⟩

theorem isAcceptable_narrowing : (cubicSimplex.geometry (1 / 2)).isAcceptable = false := by
  rw [geometry_cubicSimplex]
  simp [Geometry.isAcceptable, Geometry.leastHeight, Geometry.greatestLength]
  norm_num

theorem vertexToRepair?_narrowing : (cubicSimplex.geometry (1 / 2)).vertexToRepair? = some 0 := by
  have hlong : (2.1 * 2⁻¹ : ℝ) < 2 := by norm_num
  unfold Geometry.vertexToRepair?
  rw [isAcceptable_narrowing, geometry_cubicSimplex]
  simp [Geometry.longest?, Geometry.greatestLength, Fin.foldl_succ, Vector.get, hlong]

theorem iterate_narrowing (l : Ledger ℝ (Vector ℝ 1) Unit Unit 1) :
    (narrowing.iterate (cubicState (1 / 2) l) 0).2 = { cubicState (1 / 2) l with acceptable := false } := by
  have haccurate : ¬ accuracyBound < (cubicState (1 / 2) l).selected.simplex.inverseError :=
    Exact.accurate ⟨exact_cubicSimplex, one_half_pos⟩
  have hunarmed : (cubicState (1 / 2) l).vertexInRepair? = none := rfl
  rw [iterate_eq, if_neg haccurate, hunarmed, surveyed_of_cubicSimplex rfl rfl, ← isAcceptable_narrowing]
  rfl

/-- Halved twice the radius is too small for the simplex, so that its vertex is due for repair. -/
theorem reached_narrowing : ∃ s, Reached narrowing s ∧ s.surveyed.simplex = cubicSimplex ∧
    s.vertexInRepair? = some 0 := by
  have hone : narrowing.reducedRadius 2 = 1 := by
    have hhalf : ¬ (2 * 0.5 : ℝ) ≤ 1.5 * (1 / 2) := by norm_num
    exact (if_neg hhalf).trans (by norm_num)
  have hlast : narrowing.reducedRadius 1 = 1 / 2 := by
    have hhalf : (1 * 0.5 : ℝ) ≤ 1.5 * (1 / 2) := by norm_num
    exact if_pos hhalf
  have htwo : (1 / 2 : ℝ) < 2 := by norm_num
  have hgrown : Reached narrowing (cubicState 2 (.start ())) := by
    rw [cubicState, ← extend_cubicSample]
    exact .grown (.extend (.first #v[0] (cubicSample 0) (.start ())) rfl (cubicSample 2) (.start ()))
  obtain ⟨l, hl⟩ := shrink_narrowing htwo (.start ())
  obtain ⟨l', hl'⟩ := shrink_narrowing one_half_lt_one l
  rw [hone] at hl
  rw [hlast] at hl'
  have hhalved : Reached narrowing (cubicState (1 / 2) l') := hl' ▸ (hl ▸ hgrown.shrink).shrink
  have harmed : Reached narrowing { cubicState (1 / 2) l' with repairArmed := true, acceptable := false } :=
    (iterate_narrowing l' ▸ hhalved.iterate 0).shrink
  refine ⟨_, harmed, ?_, ?_⟩
  · rw [surveyed_of_cubicSimplex rfl rfl]
    rfl
  · unfold State.vertexInRepair?
    rw [if_pos rfl, surveyed_of_cubicSimplex rfl rfl]
    exact vertexToRepair?_narrowing

/-! ## Exactness of a run -/

section
variable {K I O ε σ : Type} [EuclideanField K] {n m : Nat}

/-- In every state that is reached the stored inverse is the inverse of the edges, the selection of its best
vertex finds no error in it, and neither a repair nor a step divides by zero. All states of a run are
reached, and no run ends for rounding errors. -/
theorem inverse_exact (q : Search K I O ε σ n m) :
    (∀ s, Reached q s →
      s.simplex.inverse.toMatrix * s.simplex.edges.toMatrix = 1 ∧
      s.simplex.edges.toMatrix * s.simplex.inverse.toMatrix = 1 ∧
      s.selected.simplex.inverseError = 0 ∧
      (∀ (j : Fin n) L, dot (s.selected.simplex.inverse.row j)
        (s.selected.simplex.repairStep s.selected.geometry j L s.penalty) ≠ 0) ∧
      (∀ (step : Vector K n) reduction j,
        s.selected.simplex.vertexToReplace? s.selected.geometry step reduction = some j →
          dot (s.selected.simplex.inverse.row j) step ≠ 0) ∧
      ∀ fuel, (q.iterate s fuel).1 ≠ .finish .roundingErrors) ∧
    (∀ x memory r, q.start x memory = .ok r → ∀ fuel count, Reached q (q.follow fuel r count).state) ∧
    ∀ x memory fuel o solution, q.minimizeWithin x memory fuel = some o → o.result = .ok solution →
      solution.status ≠ .roundingErrors := by
  refine ⟨fun s hs => ?_, fun x memory r hr fuel count => (reached_follow hr fuel count).1,
    fun x memory fuel o solution ho hok hstatus => ?_⟩
  · have h := hs.exact
    have ht := h.selected
    exact ⟨h.1, h.1.edges_mul_inverse, ht.1.inverseError, fun j L => ht.1.dot_repairStep_ne ht.2 j L _,
      fun step reduction j hj => ht.1.dot_vertexToReplace_ne ht.2 hj,
      fun fuel => (h.iterated (iterated s fuel)).2⟩
  · obtain ⟨r, e, hr, he, -⟩ := finish_of_minimizeWithin ho hok
    have hphase := (reached_follow hr fuel fuel).2
    rw [he, hstatus] at hphase
    exact hphase rfl

end

/-- A simplex is grown whose second vertex becomes the pole; the run on the cubic puts a trial in the place of the vertex
at two and converges; and where the radius is small, the selection repairs that vertex. -/
theorem inverse_exact_cubic :
    (∃ s, Reached unwatched s ∧ s.simplex.edges.entry 0 0 = -2 ∧
      s.simplex.inverse.toMatrix * s.simplex.edges.toMatrix = 1) ∧
    (∃ r e o solution, unwatched.start #v[0] () = .ok r ∧ unwatched.follow 4 r 4 = ⟨.finish .converged, e⟩ ∧
      Reached unwatched e ∧ e.simplex.edges = cubicSimplex.edges.setCol 0 #v[-1] ∧
      e.simplex.inverse.toMatrix * e.simplex.edges.toMatrix = 1 ∧ e.selected.simplex.inverseError = 0 ∧
      unwatched.minimizeWithin #v[0] () 4 = some o ∧ o.result = .ok solution ∧ solution.status ≠ .roundingErrors) ∧
    (∃ s, Reached unwatched s ∧
      s.selected.simplex.vertexToReplace? s.selected.geometry #v[-1] (1 / 32) = some 0 ∧
      dot (s.selected.simplex.inverse.row 0) #v[-1] ≠ 0) ∧
    ∃ s step, Reached narrowing s ∧ s.vertexInRepair? = some 0 ∧
      dot (s.selected.simplex.inverse.row 0) step ≠ 0 ∧
      (narrowing.iterate s 0).2.simplex.edges = cubicSimplex.edges.setCol 0 step ∧
      (narrowing.iterate s 0).2.simplex.inverse.toMatrix * (narrowing.iterate s 0).2.simplex.edges.toMatrix = 1 ∧
      (narrowing.iterate s 0).1 ≠ .finish .roundingErrors := by
  obtain ⟨hstates, hruns, hsolutions⟩ := inverse_exact unwatched
  refine ⟨?_, ?_, ?_, ?_⟩
  · have hturned : Reached unwatched { unwatched.firstState #v[2] (cubicSample 2) (.start ()) with
        simplex := (Simplex.start #v[2] 2 (cubicSample 2)).extend (cubicSample 4) } :=
      .grown (.extend (.first #v[2] (cubicSample 2) (.start ())) rfl (cubicSample 4) (.start ()))
    exact ⟨_, hturned, entry_edges_turned, (hstates _ hturned).1⟩
  · obtain ⟨r, e, hr, he, -, hsimplex⟩ := follow_cubic
    have ho := minimizeWithin_of_finish hr he
    have hreached := hruns #v[0] () r hr 4 4
    rw [he] at hreached
    obtain ⟨hinverse, -, herror, -⟩ := hstates e hreached
    exact ⟨r, e, _, _, hr, he, hreached, by rw [hsimplex]; rfl, hinverse, herror, ho, rfl,
      hsolutions #v[0] () 4 _ _ ho rfl⟩
  · obtain ⟨r, ledger, hr, -, hfollow⟩ := @follow_cubic_two (fun _ => none) fun _ _ _ _ => rfl
    have hreached := hruns #v[0] () r hr 4 2
    rw [show unwatched.follow 4 r 2 = _ from hfollow 0] at hreached
    have hreached : Reached unwatched (cubicState 1 ledger) := hreached
    have hselected : (cubicState 1 ledger).selected = cubicState 1 ledger :=
      State.selected_eq_self selectBest_cubicSimplex
    obtain ⟨-, -, -, -, hpivot, -⟩ := hstates _ hreached
    have hreplaced : (cubicState 1 ledger).selected.simplex.vertexToReplace? (cubicState 1 ledger).selected.geometry
        #v[-1] (1 / 32) = some 0 := by
      rw [hselected]
      exact vertexToReplace?_cubicSimplex
    exact ⟨_, hreached, hreplaced, hpivot #v[-1] (1 / 32) 0 hreplaced⟩
  · obtain ⟨s, hs, hsimplex, hrepair⟩ := reached_narrowing
    obtain ⟨hstates, -⟩ := inverse_exact narrowing
    obtain ⟨-, -, -, hdivisor, -, hends⟩ := hstates s hs
    have hedges : (narrowing.iterate s 0).2.simplex.edges = cubicSimplex.edges.setCol 0
        (s.selected.simplex.repairStep s.selected.geometry 0 s.surveyed.simplex.linearize s.penalty) := by
      rw [iterate_eq, if_neg hs.exact.accurate, hrepair, ← hsimplex]
      exact edges_repair ..
    exact ⟨s, _, hs, hrepair, hdivisor 0 _, hedges, (hstates _ (hs.iterate 0)).1, hends 0⟩

end TrustSimplex.Search
