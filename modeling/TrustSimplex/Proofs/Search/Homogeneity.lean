import TrustSimplex.Proofs.Search.Lockstep
import TrustSimplex.Proofs.Simplex.Homogeneity
import TrustSimplex.Proofs.Simplex.Position
import TrustSimplex.Proofs.TrustRegion.Homogeneity

/-!
# Runs in other units

A run does not depend on the origin or on the units of its problem. Beside a search stands one whose problem has
the same values in other units; phase by phase both evaluate, announce and decide the same, so their events are
the same in the respective units, and the one ends exactly if the other does.
-/

namespace TrustSimplex

section
variable {K : Type} [EuclideanField K] {n m : Nat} {I O ε σ I' O' ε' σ' : Type}

/-! ## What is shown in other units -/

def Point.rescaled (u : Rescaling K n) (p : Point K n) : Point K n :=
  ⟨u.point p.x, u.value p.objective, u.violation * p.maxViolation⟩

inductive Event.Rescaled (u : Rescaling K n) : Event K I O n → Event K I' O' n → Prop
  | evaluated (evals : Nat) (kind : Probe) (p : Point K n) (snapshot : Snapshot I O) (snapshot' : Snapshot I' O') :
      Rescaled u (.evaluated evals kind p snapshot) (.evaluated evals kind (p.rescaled u) snapshot')
  | penaltyIncreased (penalty : K) : Rescaled u (.penaltyIncreased penalty) (.penaltyIncreased (u.penalty * penalty))
  | radiusReduced (radius penalty : K) (evals : Nat) (best : Point K n) :
      Rescaled u (.radiusReduced radius penalty evals best)
        (.radiusReduced (u.length * radius) (u.penalty * penalty) evals (best.rescaled u))
  | finished (status : Status) (evals : Nat) (best : Point K n) :
      Rescaled u (.finished status evals best) (.finished status evals (best.rescaled u))

inductive Failure.Alike : Failure K ε n → Failure K ε' n → Prop
  | invalidConfig (cause : ConfigError) : Alike (.invalidConfig cause) (.invalidConfig cause)
  | evaluation (cause : EvalError ε) (cause' : EvalError ε') : Alike (.evaluation cause) (.evaluation cause')

structure Solution.Rescaled (u : Rescaling K n) (a : Solution K I O n) (a' : Solution K I' O' n) : Prop where
  status : a'.status = a.status
  point : a'.point = a.point.rescaled u
  evals : a'.evals = a.evals
  radius : a'.radius = u.length * a.radius

inductive Outcome.Rescaled (u : Rescaling K n) (o : Outcome K I O ε σ n) (o' : Outcome K I' O' ε' σ' n) : Prop
  | solved {a : Solution K I O n} {a' : Solution K I' O' n} (hok : o.result = .ok a) (hok' : o'.result = .ok a')
      (h : a.Rescaled u a') (hevents : List.Forall₂ (Event.Rescaled u) o.ledger.events o'.ledger.events)
  | failed {cause : Failure K ε n} {cause' : Failure K ε' n} (herror : o.result = .error cause)
      (herror' : o'.result = .error cause') (h : cause.Alike cause')
      (hevents : List.Forall₂ (Event.Rescaled u) o.ledger.events o'.ledger.events)

theorem Outcome.Rescaled.of_same {u : Rescaling K n} {τ τ' : Type} {p : Outcome K I O ε τ n}
    {p' : Outcome K I' O' ε' τ' n} {o : Outcome K I O ε σ n} {o' : Outcome K I' O' ε' σ' n} (h : p.Rescaled u p')
    (hsame : p.result = o.result ∧ p.ledger.events = o.ledger.events)
    (hsame' : p'.result = o'.result ∧ p'.ledger.events = o'.ledger.events) : o.Rescaled u o' := by
  obtain ⟨hresult, hevents⟩ := hsame
  obtain ⟨hresult', hevents'⟩ := hsame'
  cases h with
  | solved hok hok' hsolution hshown =>
    rw [hevents, hevents'] at hshown
    exact .solved (hresult.symm.trans hok) (hresult'.symm.trans hok') hsolution hshown
  | failed herror herror' hcause hshown =>
    rw [hevents, hevents'] at hshown
    exact .failed (hresult.symm.trans herror) (hresult'.symm.trans herror') hcause hshown

/-! ## Evaluations in other units -/

inductive Evaluated (u : Rescaling K n) :
    Except (EvalError ε) (Evaluation K I O n m) → Except (EvalError ε') (Evaluation K I' O' n m) → Prop
  | ok {e : Evaluation K I O n m} {e' : Evaluation K I' O' n m} (hobjective : e'.objective = u.value e.objective)
      (hconstraints : e'.constraints = scaleVec u.violation e.constraints) : Evaluated u (.ok e) (.ok e')
  | error (cause : EvalError ε) (cause' : EvalError ε') : Evaluated u (.error cause) (.error cause')

/-- The second search minimizes the same problem in other units, from a simplex of the same size to a simplex of
the same size and with the same budget. -/
structure Search.Rescaled (u : Rescaling K n) (q : Search K I O ε σ n m) (q' : Search K I' O' ε' σ' n m) : Prop where
  evaluate : ∀ x, Evaluated u (evaluate q.model q.problem x) (evaluate q'.model q'.problem (u.point x))
  startRadius : q'.config.startRadius = u.length * q.config.startRadius
  finalRadius : q'.config.finalRadius = u.length * q.config.finalRadius
  maxEvals : q'.config.maxEvals = q.config.maxEvals

/-! ## States in other units -/

structure Ledger.Rescaled (u : Rescaling K n) (l : Ledger K I O Unit n) (l' : Ledger K I' O' Unit n) : Prop where
  evals : l'.evals = l.evals
  events : List.Forall₂ (Event.Rescaled u) l.events l'.events

structure State.Rescaled (u : Rescaling K n) (s : State K I O Unit n m) (s' : State K I' O' Unit n m) : Prop where
  ledger : s.ledger.Rescaled u s'.ledger
  simplex : s.simplex.Rescaled u s'.simplex
  radius : s'.radius = u.length * s.radius
  radius_pos : 0 < s.radius
  penalty : s'.penalty = u.penalty * s.penalty
  repairArmed : s'.repairArmed = s.repairArmed
  acceptable : s'.acceptable = s.acceptable

inductive Continued (u : Rescaling K n) :
    Phase K ε n × State K I O Unit n m → Phase K ε' n × State K I' O' Unit n m → Prop
  | selectBest {s : State K I O Unit n m} {s' : State K I' O' Unit n m} (h : s.Rescaled u s')
      (hfull : s.simplex.others.size = n) : Continued u (.selectBest, s) (.selectBest, s')
  | shrinkRadius {s : State K I O Unit n m} {s' : State K I' O' Unit n m} (h : s.Rescaled u s')
      (hfull : s.simplex.others.size = n) : Continued u (.shrinkRadius, s) (.shrinkRadius, s')
  | finish (status : Status) {s : State K I O Unit n m} {s' : State K I' O' Unit n m} (h : s.Rescaled u s') :
      Continued u (.finish status, s) (.finish status, s')
  | failed {cause : Failure K ε n} {cause' : Failure K ε' n} (hcause : cause.Alike cause')
      {s : State K I O Unit n m} {s' : State K I' O' Unit n m} (h : s.ledger.Rescaled u s'.ledger) :
      Continued u (.failed cause, s) (.failed cause', s')
  | unresolved (s : State K I O Unit n m) (s' : State K I' O' Unit n m) :
      Continued u (.unresolved, s) (.unresolved, s')

variable {u : Rescaling K n}

/-! ## Ledgers -/

namespace Ledger.Rescaled

variable {l : Ledger K I O Unit n} {l' : Ledger K I' O' Unit n}

theorem announce (h : l.Rescaled u l') {event : Event K I O n} {event' : Event K I' O' n}
    (hevent : event.Rescaled u event') :
    (l.announce .silent event).2.Rescaled u (l'.announce .silent event').2 := by
  refine ⟨h.evals, ?_⟩
  rw [events_announce, events_announce]
  exact List.rel_append h.events (.cons hevent .nil)

end Ledger.Rescaled

theorem State.Rescaled.armed {s : State K I O Unit n m} {s' : State K I' O' Unit n m} (h : s.Rescaled u s')
    (armed : Bool) : State.Rescaled u { s with repairArmed := armed } { s' with repairArmed := armed } :=
  { h with repairArmed := rfl }

theorem Simplex.Rescaled.best {S S' : Type} {s : Simplex K S n m} {s' : Simplex K S' n m} (h : s.Rescaled u s') :
    s'.best = s.best.rescaled u := by
  unfold Simplex.best Point.rescaled
  rw [Simplex.offset_zeroVec, Simplex.offset_zeroVec, h.pole]
  congr 1
  · exact h.poleSample.objective
  · exact h.poleSample.maxViolation

theorem Evaluation.sample_rescaled {e : Evaluation K I O n m} {e' : Evaluation K I' O' n m}
    (hobjective : e'.objective = u.value e.objective)
    (hconstraints : e'.constraints = scaleVec u.violation e.constraints) : e.sample.Rescaled u e'.sample := by
  refine ⟨fun k => ?_, hobjective, ?_⟩
  · show e'.constraints.get k = u.violation * e.constraints.get k
    rw [hconstraints, get_scaleVec]
  · show greatestViolation e'.constraints = u.violation * greatestViolation e.constraints
    rw [hconstraints, greatestViolation_scaleVec u.violation_pos.le]

theorem Evaluation.isFinite_exact (e : Evaluation K I O n m) : e.isFinite = true := by
  unfold Evaluation.isFinite
  simp [Scalar.isFinite]

namespace Search

variable {q : Search K I O ε σ n m} {q' : Search K I' O' ε' σ' n m} {b : Nat}

inductive Sampled (u : Rescaling K n) :
    Except (Failure K ε n) (Sample K (Snapshot I O) m × Option Action) × Ledger K I O Unit n →
    Except (Failure K ε' n) (Sample K (Snapshot I' O') m × Option Action) × Ledger K I' O' Unit n → Prop
  | failed {cause : Failure K ε n} {cause' : Failure K ε' n} (hcause : cause.Alike cause') {l : Ledger K I O Unit n}
      {l' : Ledger K I' O' Unit n} (hl : l.Rescaled u l') : Sampled u (.error cause, l) (.error cause', l')
  | evaluated {r : Sample K (Snapshot I O) m} {r' : Sample K (Snapshot I' O') m} (hr : r.Rescaled u r')
      {l : Ledger K I O Unit n} {l' : Ledger K I' O' Unit n} (hl : l.Rescaled u l') :
      Sampled u (.ok (r, none), l) (.ok (r', none), l')

theorem Rescaled.probe (h : q.Rescaled u q') {l : Ledger K I O Unit n} {l' : Ledger K I' O' Unit n}
    (hl : l.Rescaled u l') (x : Vector K n) (kind : Probe) :
    Sampled u ((q.unobserved b).probe l x kind) ((q'.unobserved b).probe l' (u.point x) kind) := by
  have hevaluate := h.evaluate x
  have hattempted : (l.add (.attempted x)).Rescaled u (l'.add (.attempted (u.point x))) := by
    refine ⟨hl.evals, ?_⟩
    rw [Ledger.events_add_attempted, Ledger.events_add_attempted]
    exact hl.events
  unfold Search.probe unobserved
  dsimp only
  generalize TrustSimplex.evaluate q.model q.problem x = given at hevaluate ⊢
  generalize TrustSimplex.evaluate q'.model q'.problem (u.point x) = given' at hevaluate ⊢
  cases hevaluate with
  | error cause cause' => exact .failed (.evaluation cause cause') hattempted
  | @ok e e' hobjective hconstraints =>
    have hsample := Evaluation.sample_rescaled hobjective hconstraints
    dsimp only
    rw [if_pos e.isFinite_exact, if_pos e'.isFinite_exact]
    generalize l.add (.attempted x) = l at hattempted ⊢
    generalize l'.add (.attempted (u.point x)) = l' at hattempted ⊢
    have hcounted : Ledger.Rescaled u { l with evals := l.evals + 1 } { l' with evals := l'.evals + 1 } :=
      ⟨congrArg (· + 1) hattempted.evals, hattempted.events⟩
    refine .evaluated hsample (hcounted.announce ?_)
    have hviolation : e'.maxViolation = u.violation * e.maxViolation := hsample.maxViolation
    rw [hattempted.evals, hobjective, hviolation]
    exact .evaluated _ kind ⟨x, e.objective, e.maxViolation⟩ _ _

theorem Rescaled.attempt (h : q.Rescaled u q') {s : State K I O Unit n m} {s' : State K I' O' Unit n m}
    (hs : s.Rescaled u s') (x : Vector K n) (kind : Probe)
    {next : Sample K (Snapshot I O) m → Ledger K I O Unit n → Phase K ε n × State K I O Unit n m}
    {next' : Sample K (Snapshot I' O') m → Ledger K I' O' Unit n → Phase K ε' n × State K I' O' Unit n m}
    (hnext : ∀ r r' l l', r.Rescaled u r' → l.Rescaled u l' → Continued u (next r l) (next' r' l')) :
    Continued u ((q.unobserved b).attempt s x kind next) ((q'.unobserved b).attempt s' (u.point x) kind next') := by
  have hprobe := h.probe (b := b) hs.ledger x kind
  have hbudget : (q'.unobserved b).hasBudget s'.ledger = (q.unobserved b).hasBudget s.ledger := by
    show decide (s'.ledger.evals < b) = decide (s.ledger.evals < b)
    rw [hs.ledger.evals]
  unfold Search.attempt
  rw [hbudget]
  generalize (q.unobserved b).probe s.ledger x kind = given at hprobe ⊢
  generalize (q'.unobserved b).probe s'.ledger (u.point x) kind = given' at hprobe ⊢
  split
  · cases hprobe with
    | failed hcause hl => exact .failed hcause hl
    | evaluated hr hl => exact hnext _ _ _ _ hr hl
  · exact .finish .maxEvals hs

/-! ## Trying a step -/

def Prediction.rescaled (u : Rescaling K n) (p : Prediction K) : Prediction K :=
  ⟨u.violation * p.violationDrop, u.objective * p.objectiveRise⟩

theorem leastPenalty_rescaled (p : Prediction K) : (p.rescaled u).leastPenalty = u.penalty * p.leastPenalty := by
  unfold Prediction.leastPenalty Prediction.rescaled
  simp only [mul_pos_iff_of_pos_left u.violation_pos]
  split
  · exact mul_div_mul_comm _ _ _ _
  · rw [mul_zero]

section
variable {s : State K I O Unit n m} {s' : State K I' O' Unit n m}

theorem predict_rescaled (hs : s.Rescaled u s') {L L' : Linearization K n m} (hL : L.Rescaled u L')
    (step : Vector K n) : predict s' L' (scaleVec u.length step) = (predict s L step).rescaled u := by
  have hviolation : s'.simplex.maxViolation .pole = u.violation * s.simplex.maxViolation .pole :=
    hs.simplex.poleSample.maxViolation
  unfold predict Prediction.rescaled
  rw [hviolation, hL.violation, hL.dot, u.unit_last, mul_sub, mul_neg]

/-- Both reductions are measured in one unit, that of the objective or that of the violations. -/
theorem reductions_rescaled (hs : s.Rescaled u s') (p : Prediction K) {r : Sample K (Snapshot I O) m}
    {r' : Sample K (Snapshot I' O') m} (hr : r.Rescaled u r') : ∃ c : K, 0 < c ∧
      reductions s' (p.rescaled u) r' = (c * (reductions s p r).1, c * (reductions s p r).2) := by
  have hobjective : s'.simplex.objective .pole = u.value (s.simplex.objective .pole) :=
    hs.simplex.poleSample.objective
  have hviolation : s'.simplex.maxViolation .pole = u.violation * s.simplex.maxViolation .pole :=
    hs.simplex.poleSample.maxViolation
  unfold reductions
  dsimp only
  rw [hs.penalty, hobjective, hviolation, hr.objective, hr.maxViolation, u.value_beq_value,
    mul_beq_zero u.penalty_pos.ne']
  split
  -- without a penalty equal objectives leave the violations to be compared
  · exact ⟨u.violation, u.violation_pos, by rw [← mul_sub]; rfl⟩
  · refine ⟨u.objective, u.objective_pos, ?_⟩
    unfold Prediction.rescaled Rescaling.value
    rw [← u.penalty_mul_violation]
    ext <;> dsimp only <;> ring

theorem accept_rescaled (hs : s.Rescaled u s') (hfull : s.simplex.others.size = n) (g : Geometry K n)
    (step : Vector K n) (p : Prediction K) {r : Sample K (Snapshot I O) m} {r' : Sample K (Snapshot I' O') m}
    (hr : r.Rescaled u r') :
    Continued u (accept s g step p r : Phase K ε n × State K I O Unit n m)
      (accept s' (g.rescaled u.length) (scaleVec u.length step) (p.rescaled u) r' :
        Phase K ε' n × State K I' O' Unit n m) := by
  -- the tests compare the reductions with zero and with each other, whatever their unit
  obtain ⟨c, hc, hreductions⟩ := reductions_rescaled hs p hr
  unfold accept
  rw [hreductions]
  dsimp only
  rw [hs.simplex.vertexToReplace? g step hc]
  cases s.simplex.vertexToReplace? g step (reductions s p r).2 with
  | none => exact .shrinkRadius hs hfull
  | some j =>
    have hstored : State.Rescaled u { s with simplex := (s.simplex.replace j step).store j r }
        { s' with simplex := (s'.simplex.replace j (scaleVec u.length step)).store j r' } :=
      { hs with simplex := (hs.simplex.replace j step).store j hr }
    have hfull' : ((s.simplex.replace j step).store j r).others.size = n := by
      rw [Simplex.size_others_store]
      exact hfull
    dsimp only
    rw [mul_left_comm]
    simp only [mul_pos_iff_of_pos_left hc, mul_le_mul_iff_right₀ hc]
    split
    · exact .selectBest hstored hfull'
    · exact .shrinkRadius hstored hfull'

theorem Rescaled.tryStep (h : q.Rescaled u q') (hs : s.Rescaled u s') (hfull : s.simplex.others.size = n)
    (g : Geometry K n) (step : Vector K n) (p : Prediction K) :
    Continued u ((q.unobserved b).tryStep s g step p)
      ((q'.unobserved b).tryStep s' (g.rescaled u.length) (scaleVec u.length step) (p.rescaled u)) := by
  rw [tryStep_eq_attempt, tryStep_eq_attempt, hs.simplex.offset]
  refine h.attempt (hs.armed false) _ _ fun r r' l l' hr hl => ?_
  have htried : State.Rescaled u { s with repairArmed := false, ledger := l }
      { s' with repairArmed := false, ledger := l' } := { hs.armed false with ledger := hl }
  exact accept_rescaled htried hfull g step p hr

theorem Rescaled.weighStep (h : q.Rescaled u q') (hs : s.Rescaled u s') (hfull : s.simplex.others.size = n)
    (g : Geometry K n) (step : Vector K n) (p : Prediction K) :
    Continued u ((q.unobserved b).weighStep s g step p)
      ((q'.unobserved b).weighStep s' (g.rescaled u.length) (scaleVec u.length step) (p.rescaled u)) := by
  unfold Search.weighStep
  rw [leastPenalty_rescaled, hs.penalty, mul_left_comm]
  simp only [mul_lt_mul_iff_right₀ u.penalty_pos]
  split
  · have hshown : (s.ledger.announce .silent (.penaltyIncreased (2.0 * p.leastPenalty))).2.Rescaled u
        (s'.ledger.announce .silent (.penaltyIncreased (2.0 * (u.penalty * p.leastPenalty)))).2 := by
      rw [mul_left_comm]
      exact hs.ledger.announce (.penaltyIncreased _)
    have hraised : State.Rescaled u
        { s with penalty := 2.0 * p.leastPenalty,
                 ledger := (s.ledger.announce .silent (.penaltyIncreased (2.0 * p.leastPenalty))).2 }
        { s' with penalty := 2.0 * (u.penalty * p.leastPenalty),
                  ledger := (s'.ledger.announce .silent (.penaltyIncreased (2.0 * (u.penalty * p.leastPenalty)))).2 } :=
      { hs with ledger := hshown, penalty := mul_left_comm _ _ _ }
    have hbeaten := hs.simplex.poleIsBeaten hfull (2.0 * p.leastPenalty)
    rw [← mul_left_comm] at hbeaten
    show Continued u (if s.simplex.poleIsBeaten (2.0 * p.leastPenalty) = true then _ else _)
      (if s'.simplex.poleIsBeaten (2.0 * (u.penalty * p.leastPenalty)) = true then _ else _)
    rw [hbeaten]
    split
    · exact .selectBest hraised hfull
    · exact h.tryStep hraised hfull g step p
  · exact h.tryStep hs hfull g step p

theorem isTooShort_rescaled (radius : K) (step : Step K n) :
    isTooShort (u.length * radius) (step.rescaled u.length) = isTooShort radius step := by
  have hsq := mul_pos u.length_pos u.length_pos
  have hbound : 0.25 * (u.length * radius) * (u.length * radius) = u.length * u.length * (0.25 * radius * radius) := by
    ring
  unfold isTooShort Step.rescaled
  rw [normSq_scaleVec, hbound]
  simp only [mul_lt_mul_iff_right₀ hsq]

theorem Rescaled.findStep (h : q.Rescaled u q') (hs : s.Rescaled u s') (hfull : s.simplex.others.size = n)
    (g : Geometry K n) {L L' : Linearization K n m} (hL : L.Rescaled u L') (fuel : Nat) :
    Continued u ((q.unobserved b).findStep s g L fuel)
      ((q'.unobserved b).findStep s' (g.rescaled u.length) L' fuel) := by
  have hsolve : L'.solveWithin s'.radius fuel = (L.solveWithin s.radius fuel).map (Step.rescaled u.length) := by
    rw [hs.radius, hL.solveWithin hs.radius_pos]
  unfold Search.findStep
  rw [hsolve]
  cases L.solveWithin s.radius fuel with
  | none => exact .unresolved s s'
  | some step =>
    have hshort : isTooShort s'.radius (step.rescaled u.length) = isTooShort s.radius step := by
      rw [hs.radius, isTooShort_rescaled]
    rw [Option.map_some]
    dsimp only
    rw [hshort]
    split
    · exact .shrinkRadius (hs.armed false) hfull
    · have hstep := h.weighStep (b := b) hs hfull g step.move (predict s L step.move)
      rw [← predict_rescaled hs hL] at hstep
      exact hstep

/-! ## The two phases -/

theorem Rescaled.repair (h : q.Rescaled u q') (hs : s.Rescaled u s') (hfull : s.simplex.others.size = n)
    (g : Geometry K n) (j : Fin n) {L L' : Linearization K n m} (hL : L.Rescaled u L') :
    Continued u ((q.unobserved b).repair s g j L) ((q'.unobserved b).repair s' (g.rescaled u.length) j L') := by
  have hstep : s'.simplex.repairStep (g.rescaled u.length) j L' s'.penalty =
      scaleVec u.length (s.simplex.repairStep g j L s.penalty) := by
    rw [hs.penalty, hs.simplex.repairStep hL]
  rw [repair_eq_attempt, repair_eq_attempt, hstep, hs.simplex.offset]
  generalize s.simplex.repairStep g j L s.penalty = step
  have hmoved : State.Rescaled u { s with simplex := s.simplex.replace j step }
      { s' with simplex := s'.simplex.replace j (scaleVec u.length step) } :=
    { hs with simplex := hs.simplex.replace j step }
  refine h.attempt hmoved _ _ fun r r' l l' hr hl => ?_
  have hstored : State.Rescaled u
      { s with simplex := (s.simplex.replace j step).store j r, ledger := l, repairArmed := false }
      { s' with simplex := (s'.simplex.replace j (scaleVec u.length step)).store j r', ledger := l',
                repairArmed := false } :=
    { hs with simplex := hmoved.simplex.store j hr, ledger := hl, repairArmed := rfl }
  refine .selectBest hstored ?_
  rw [Simplex.size_others_store]
  exact hfull

theorem selected_rescaled (hs : s.Rescaled u s') (hfull : s.simplex.others.size = n) :
    s.selected.Rescaled u s'.selected := by
  have hselect : s'.simplex.selectBest s'.penalty = s.simplex.selectBest s.penalty := by
    rw [hs.penalty, hs.simplex.selectBest hfull]
  refine { hs with simplex := ?_ }
  show (s.simplex.pivotTo (s.simplex.selectBest s.penalty)).Rescaled u
    (s'.simplex.pivotTo (s'.simplex.selectBest s'.penalty))
  rw [hselect]
  exact hs.simplex.pivotTo hfull _

theorem Rescaled.iterate (h : q.Rescaled u q') (hs : s.Rescaled u s') (hfull : s.simplex.others.size = n)
    (fuel : Nat) : Continued u ((q.unobserved b).iterate s fuel) ((q'.unobserved b).iterate s' fuel) := by
  have hselected := selected_rescaled hs hfull
  have hfull' : s.surveyed.simplex.others.size = n := (Simplex.size_others_pivotTo _ _).trans hfull
  have hgeometry : s'.surveyed.geometry = s.surveyed.geometry.rescaled u.length := by
    show s'.selected.simplex.geometry s'.radius = (s.selected.simplex.geometry s.radius).rescaled u.length
    rw [hs.radius, hselected.simplex.geometry]
  have hsurveyed : s.surveyed.Rescaled u s'.surveyed := by
    refine { hselected with acceptable := ?_ }
    show s'.surveyed.geometry.isAcceptable = s.surveyed.geometry.isAcceptable
    rw [hgeometry, Geometry.isAcceptable_rescaled u.length_pos]
  have hrepair : s'.vertexInRepair? = s.vertexInRepair? := by
    unfold State.vertexInRepair?
    rw [hs.repairArmed, hgeometry, Geometry.vertexToRepair?_rescaled u.length_pos]
  rw [iterate_eq, iterate_eq, hselected.simplex.inverseError, hrepair]
  split
  · refine .finish .roundingErrors { hselected with ledger := ⟨hs.ledger.evals, ?_⟩ }
    rw [Ledger.events_add_inaccurate, Ledger.events_add_inaccurate]
    exact hs.ledger.events
  · rw [hgeometry]
    have hlinear := hsurveyed.simplex.linearize hfull'
    cases s.vertexInRepair? with
    | some j => exact h.repair hsurveyed hfull' _ j hlinear
    | none => exact h.findStep hsurveyed hfull' _ hlinear fuel

theorem Rescaled.reducedRadius (h : q.Rescaled u q') (radius : K) :
    (q'.unobserved b).reducedRadius (u.length * radius) = u.length * (q.unobserved b).reducedRadius radius := by
  unfold Search.reducedRadius unobserved
  dsimp only
  rw [h.finalRadius, mul_assoc, mul_left_comm (1.5 : K)]
  simp only [mul_le_mul_iff_right₀ u.length_pos]
  split <;> rfl

theorem Rescaled.shrink (h : q.Rescaled u q') (hs : s.Rescaled u s') (hfull : s.simplex.others.size = n) :
    Continued u ((q.unobserved b).shrink s) ((q'.unobserved b).shrink s') := by
  have hfinal : s'.radius ≤ (q'.unobserved b).config.finalRadius ↔ s.radius ≤ (q.unobserved b).config.finalRadius := by
    rw [hs.radius]
    show _ ≤ q'.config.finalRadius ↔ _
    rw [h.finalRadius]
    exact mul_le_mul_iff_right₀ u.length_pos
  have hpenalty : s'.reducedPenalty = u.penalty * s.reducedPenalty := by
    unfold State.reducedPenalty
    rw [hs.penalty, hs.simplex.rescaledPenalty hfull]
    simp only [mul_pos_iff_of_pos_left u.penalty_pos]
    split <;> rfl
  have hacceptable : (!s'.acceptable) = !s.acceptable := by rw [hs.acceptable]
  rw [shrink_eq, shrink_eq, hacceptable]
  simp only [hfinal]
  split
  · exact .selectBest (hs.armed true) hfull
  · split
    · exact .finish .converged hs
    · have hradius :
          (q'.unobserved b).reducedRadius s'.radius = u.length * (q.unobserved b).reducedRadius s.radius := by
        rw [hs.radius, h.reducedRadius]
      have hshown : Event.Rescaled u
          (.radiusReduced ((q.unobserved b).reducedRadius s.radius) s.reducedPenalty s.ledger.evals s.simplex.best :
            Event K I O n)
          (.radiusReduced ((q'.unobserved b).reducedRadius s'.radius) s'.reducedPenalty s'.ledger.evals
            s'.simplex.best : Event K I' O' n) := by
        rw [hradius, hpenalty, hs.ledger.evals, hs.simplex.best]
        exact .radiusReduced _ _ _ _
      refine .selectBest ?_ hfull
      exact { hs with
        radius := hradius, radius_pos := (q.unobserved b).reducedRadius_pos hs.radius_pos, penalty := hpenalty,
        ledger := hs.ledger.announce hshown }

/-! ## Runs -/

theorem Rescaled.follow (h : q.Rescaled u q') (fuel count : Nat) {run : Run K I O ε Unit n m}
    {run' : Run K I' O' ε' Unit n m} (hrun : Continued u (run.phase, run.state) (run'.phase, run'.state)) :
    Continued u (((q.unobserved b).follow fuel run count).phase, ((q.unobserved b).follow fuel run count).state)
      (((q'.unobserved b).follow fuel run' count).phase, ((q'.unobserved b).follow fuel run' count).state) := by
  induction count generalizing run run' with
  | zero => exact hrun
  | succ count ih =>
    obtain ⟨phase, s⟩ := run
    obtain ⟨phase', s'⟩ := run'
    cases hrun with
    | selectBest hs hfull => exact ih (h.iterate hs hfull fuel)
    | shrinkRadius hs hfull => exact ih (h.shrink hs hfull)
    | finish status hs => exact .finish status hs
    | failed hcause hl => exact .failed hcause hl
    | unresolved => exact .unresolved s s'

theorem Rescaled.build (h : q.Rescaled u q') (count : Nat) {s : State K I O Unit n m} {s' : State K I' O' Unit n m}
    (hs : s.Rescaled u s') (hsize : s.simplex.others.size + count = n) :
    Continued u (((q.unobserved b).build s count).phase, ((q.unobserved b).build s count).state)
      (((q'.unobserved b).build s' count).phase, ((q'.unobserved b).build s' count).state) := by
  induction count generalizing s s' with
  | zero => exact .selectBest hs hsize
  | succ count ih =>
    have hn : s.simplex.others.size < n := by omega
    have hprobe := h.probe (b := b) hs.ledger s.simplex.nextInitial .initial
    rw [← hs.simplex.nextInitial hn] at hprobe
    unfold Search.build
    generalize (q.unobserved b).probe s.ledger s.simplex.nextInitial .initial = given at hprobe ⊢
    generalize (q'.unobserved b).probe s'.ledger s'.simplex.nextInitial .initial = given' at hprobe ⊢
    cases hprobe with
    | failed hcause hl => exact .failed hcause hl
    | @evaluated r r' hr l l' hl =>
      have hgrown : State.Rescaled u { s with ledger := l, simplex := s.simplex.extend r }
          { s' with ledger := l', simplex := s'.simplex.extend r' } :=
        { hs with ledger := hl, simplex := hs.simplex.extend hn hr }
      refine ih hgrown ?_
      show (s.simplex.extend r).others.size + count = n
      rw [Simplex.size_others_extend]
      omega

inductive Launched (u : Rescaling K n) : Except (Outcome K I O ε Unit n) (Run K I O ε Unit n m) →
    Except (Outcome K I' O' ε' Unit n) (Run K I' O' ε' Unit n m) → Prop
  | ended {o : Outcome K I O ε Unit n} {o' : Outcome K I' O' ε' Unit n} (h : o.Rescaled u o') :
      Launched u (.error o) (.error o')
  | running {run : Run K I O ε Unit n m} {run' : Run K I' O' ε' Unit n m}
      (h : Continued u (run.phase, run.state) (run'.phase, run'.state)) : Launched u (.ok run) (.ok run')

theorem Rescaled.start (h : q.Rescaled u q') (x : Vector K n) :
    Launched u ((q.unobserved b).start x ()) ((q'.unobserved b).start (u.point x) ()) := by
  have hempty : Ledger.Rescaled u (.start () : Ledger K I O Unit n) (.start () : Ledger K I' O' Unit n) :=
    ⟨rfl, .nil⟩
  have hvalidate : (q'.unobserved b).config.validateFor n = (q.unobserved b).config.validateFor n := rfl
  have hprobe := h.probe (b := b) hempty x .initial
  unfold Search.start
  rw [hvalidate]
  cases (q.unobserved b).config.validateFor n with
  | error cause => exact .ended (.failed rfl rfl (.invalidConfig cause) .nil)
  | ok =>
    dsimp only
    generalize (q.unobserved b).probe (.start ()) x .initial = given at hprobe ⊢
    generalize (q'.unobserved b).probe (.start ()) (u.point x) .initial = given' at hprobe ⊢
    cases hprobe with
    | failed hcause hl => exact .ended (.failed rfl rfl hcause hl.events)
    | @evaluated r r' hr l l' hl =>
      refine .running (h.build n ?_ (Nat.zero_add n))
      have hradius : (q'.unobserved b).config.startRadius = u.length * (q.unobserved b).config.startRadius :=
        h.startRadius
      refine ⟨hl, ?_, hradius, q.startRadius_pos, (mul_zero _).symm, rfl, rfl⟩
      show (Simplex.start x _ r).Rescaled u (Simplex.start (u.point x) _ r')
      rw [hradius]
      exact Simplex.Rescaled.start x _ hr

theorem Rescaled.minimizeWithin (h : q.Rescaled u q') (x : Vector K n) (fuel : Nat) :
    Option.Rel (Outcome.Rescaled u) ((q.unobserved b).minimizeWithin x () fuel)
      ((q'.unobserved b).minimizeWithin (u.point x) () fuel) := by
  have hstart := h.start (b := b) x
  unfold Search.minimizeWithin
  generalize (q.unobserved b).start x () = started at hstart ⊢
  generalize (q'.unobserved b).start (u.point x) () = started' at hstart ⊢
  cases hstart with
  | ended ho => exact .some ho
  | running hrun =>
    have hlast := h.follow (b := b) fuel fuel hrun
    dsimp only
    generalize (q.unobserved b).follow fuel _ fuel = last at hlast ⊢
    generalize (q'.unobserved b).follow fuel _ fuel = last' at hlast ⊢
    obtain ⟨phase, s⟩ := last
    obtain ⟨phase', s'⟩ := last'
    cases hlast with
    | selectBest => exact .none
    | shrinkRadius => exact .none
    | unresolved => exact .none
    | failed hcause hl => exact .some (.failed rfl rfl hcause hl.events)
    | finish status hs =>
      have hend : Event.Rescaled u (.finished status s.ledger.evals s.simplex.best : Event K I O n)
          (.finished status s'.ledger.evals s'.simplex.best : Event K I' O' n) := by
        rw [hs.ledger.evals, hs.simplex.best]
        exact .finished _ _ _
      exact .some (.solved rfl rfl ⟨rfl, hs.simplex.best, hs.ledger.evals, hs.radius⟩
        (hs.ledger.announce hend).events)

end

/-- A run depends neither on the origin nor on the units of its problem. If two searches minimize one problem in
different units and nobody answers their events, then both end or neither does, and each of them shows the events
of the other, in its own units and with the same numbers of evaluations. -/
theorem minimizeWithin_rescaled (h : q.Rescaled u q') {memory : σ} {memory' : σ'}
    (hquiet : ∀ events, q.observer.Quiet memory events) (hquiet' : ∀ events, q'.observer.Quiet memory' events)
    (x : Vector K n) :
    (∀ fuel, Option.Rel (Outcome.Rescaled u) (q.minimizeWithin x memory fuel)
      (q'.minimizeWithin (u.point x) memory' fuel)) ∧
    Option.Rel (Outcome.Rescaled u) (q.minimize x memory) (q'.minimize (u.point x) memory') := by
  have hall : ∀ fuel, Option.Rel (Outcome.Rescaled u) (q.minimizeWithin x memory fuel)
      (q'.minimizeWithin (u.point x) memory' fuel) := by
    intro fuel
    have hforgotten := unobserved_of_quiet hquiet x fuel
    have hforgotten' := unobserved_of_quiet hquiet' (u.point x) fuel
    have hrun := h.minimizeWithin (b := q.config.maxEvals) x fuel
    rw [h.maxEvals] at hforgotten'
    generalize (q.unobserved _).minimizeWithin x () fuel = p at hforgotten hrun
    generalize (q'.unobserved _).minimizeWithin (u.point x) () fuel = p' at hforgotten' hrun
    generalize q.minimizeWithin x memory fuel = w at hforgotten ⊢
    generalize q'.minimizeWithin (u.point x) memory' fuel = w' at hforgotten' ⊢
    cases hrun with
    | none =>
      cases hforgotten
      cases hforgotten'
      exact .none
    | some hrescaled =>
      cases hforgotten with
      | some hsame =>
        cases hforgotten' with
        | some hsame' => exact .some (hrescaled.of_same hsame hsame')
  refine ⟨hall, ?_⟩
  have hfuel : q'.fuel = q.fuel := by
    unfold fuel
    rw [h.maxEvals]
  unfold minimize
  rw [hfuel]
  exact hall _

/-! ## The search in other units -/

end Search

def Rescaling.back (u : Rescaling K n) (y : Vector K n) : Vector K n := scaleVec u.length⁻¹ (subScaled y 1 u.origin)

theorem Rescaling.back_point (u : Rescaling K n) (x : Vector K n) : u.back (u.point x) = x := by
  apply coords_injective
  unfold Rescaling.back Rescaling.point
  rw [coords_scaleVec, coords_subScaled, coords_addVec, coords_scaleVec, one_smul, add_sub_cancel_right,
    inv_smul_smul₀ u.length_pos.ne']

def Problem.inUnits (u : Rescaling K n) (p : Problem K I O ε n m) : Problem K I O ε n m where
  input y := p.input (u.back y)
  objective i o := (p.objective i o).map u.value
  constraints i o := (p.constraints i o).map (scaleVec u.violation)

theorem Rescaling.finalRadius_positive (u : Rescaling K n) (c : Config K) : ¬ u.length * c.finalRadius ≤ 0 :=
  not_le.mpr (mul_pos u.length_pos (not_le.mp c.finalRadius_positive))

theorem Rescaling.startRadius_greater (u : Rescaling K n) (c : Config K) :
    ¬ u.length * c.startRadius ≤ u.length * c.finalRadius :=
  not_le.mpr (mul_lt_mul_of_pos_left (not_le.mp c.startRadius_greater) u.length_pos)

def Config.inUnits (u : Rescaling K n) (c : Config K) : Config K where
  startRadius := u.length * c.startRadius
  finalRadius := u.length * c.finalRadius
  maxEvals := c.maxEvals
  finalRadius_finite := rfl
  finalRadius_positive := u.finalRadius_positive c
  startRadius_finite := rfl
  startRadius_greater := u.startRadius_greater c

namespace Search

def inUnits (u : Rescaling K n) (q : Search K I O ε σ n m) : Search K I O ε σ n m :=
  ⟨q.model, q.problem.inUnits u, q.config.inUnits u, q.observer⟩

theorem rescaled_inUnits (u : Rescaling K n) (q : Search K I O ε σ n m) : q.Rescaled u (q.inUnits u) := by
  refine ⟨fun x => ?_, rfl, rfl, rfl⟩
  unfold evaluate inUnits Problem.inUnits
  dsimp only
  rw [u.back_point]
  cases q.problem.input x with
  | error cause => exact .error _ _
  | ok i =>
    show Evaluated u ((q.model.call i).mapError .model >>= _) ((q.model.call i).mapError .model >>= _)
    cases q.model.call i with
    | error cause => exact .error _ _
    | ok o =>
      show Evaluated u ((q.problem.objective i o).mapError .problem >>= _)
        (((q.problem.objective i o).map u.value).mapError .problem >>= _)
      cases q.problem.objective i o with
      | error cause => exact .error _ _
      | ok f =>
        show Evaluated u ((q.problem.constraints i o).mapError .problem >>= _)
          (((q.problem.constraints i o).map (scaleVec u.violation)).mapError .problem >>= _)
        cases q.problem.constraints i o with
        | error cause => exact .error _ _
        | ok c => exact .ok rfl rfl

end Search

end

namespace Search

/-- From feet to inches, from kilograms to grams and from minutes to seconds, with both origins moved. -/
noncomputable def finer : Rescaling ℝ 1 where
  origin := .replicate 1 5
  length := 12
  base := 11
  objective := 1000
  violation := 60
  length_pos := by norm_num
  objective_pos := by norm_num
  violation_pos := by norm_num

theorem minimizeWithin_rescaled_cubic :
    (∀ events, unwatched.observer.Quiet () events) ∧ unwatched.Rescaled finer (unwatched.inUnits finer) ∧
    ∃ o o', unwatched.minimizeWithin #v[0] () 4 = some o ∧
      (unwatched.inUnits finer).minimizeWithin (finer.point #v[0]) () 4 = some o' ∧ o.Rescaled finer o' := by
  obtain ⟨r, e, hr, he, -⟩ := follow_cubic
  have ho := minimizeWithin_of_finish hr he
  have hrescaled := rescaled_inUnits finer unwatched
  obtain ⟨hrun, -⟩ := minimizeWithin_rescaled hrescaled quiet_unwatched quiet_unwatched #v[0]
  have hbeside := hrun 4
  rw [ho] at hbeside
  generalize ho' : (unwatched.inUnits finer).minimizeWithin (finer.point #v[0]) () 4 = out at hbeside
  cases hbeside with
  | some h => exact ⟨quiet_unwatched, hrescaled, _, _, ho, rfl, h⟩

end Search

end TrustSimplex
