import Mathlib.Tactic
import TrustSimplex.Search.Run

/-!
# What a phase can do

A phase makes at most one evaluation. `Iterated` and `Shrunk` list the ways in which the two phases end
and the states they leave, and `Built` those in which the first simplex is grown; what holds along a run
is shown from these lists.
-/

namespace TrustSimplex

section
variable {α I O ε σ : Type} [Scalar α] {n m : Nat}

def State.selected (s : State α I O σ n m) : State α I O σ n m :=
  { s with simplex := s.simplex.pivotTo (s.simplex.selectBest s.penalty) }

theorem State.selected_eq_self {s : State α I O σ n m} (h : s.simplex.selectBest s.penalty = .pole) :
    s.selected = s := by
  unfold State.selected
  rw [h]
  rfl

def State.geometry (s : State α I O σ n m) : Geometry α n := s.simplex.geometry s.radius

def State.surveyed (s : State α I O σ n m) : State α I O σ n m :=
  { s.selected with acceptable := s.selected.geometry.isAcceptable }

def State.vertexInRepair? (s : State α I O σ n m) : Option (Fin n) :=
  if s.repairArmed then s.surveyed.geometry.vertexToRepair? else none

def State.reducedPenalty (s : State α I O σ n m) : α :=
  if 0 < s.penalty then s.simplex.rescaledPenalty s.penalty else s.penalty

structure Ledger.Announced (l : Ledger α I O σ n) (observer : Observer (Event α I O n) Action σ)
    (event : Event α I O n) (answer : Option Action) (l' : Ledger α I O σ n) : Prop where
  events : l'.events = l.events ++ [event]
  attempts : l'.attempts = l.attempts
  evals : l'.evals = l.evals
  observed : observer.observe l.memory event = (answer, l'.memory)

omit [Scalar α] in
theorem Ledger.announced {l l' : Ledger α I O σ n} {observer : Observer (Event α I O n) Action σ}
    {event : Event α I O n} {answer : Option Action} (h : l.announce observer event = (answer, l')) :
    l.Announced observer event answer l' := by
  have hevents := l.events_announce observer event
  have hattempts := l.attempts_announce observer event
  rw [h] at hevents hattempts
  cases h
  exact ⟨hevents, hattempts, rfl, rfl⟩

omit [Scalar α] in
theorem Ledger.last_announce {l l' : Ledger α I O σ n} {observer : Observer (Event α I O n) Action σ}
    {event : Event α I O n} {answer : Option Action} (h : l.announce observer event = (answer, l')) :
    l'.events.getLast? = some event := by
  rw [(Ledger.announced h).events, List.getLast?_concat]

namespace Search

variable {q : Search α I O ε σ n m}

/-! ## One evaluation -/

/-- How a phase ends that goes on to evaluate at `x`, and to `next` if nothing is in the way. -/
inductive Attempted (q : Search α I O ε σ n m) (s : State α I O σ n m) (x : Vector α n) (kind : Probe)
    (next : Sample α (Snapshot I O) m → Ledger α I O σ n → Phase α ε n × State α I O σ n m) :
    Phase α ε n × State α I O σ n m → Prop
  | exhausted (h : q.hasBudget s.ledger = false) : Attempted q s x kind next (.finish .maxEvals, s)
  | failed {cause : Failure α ε n} {ledger : Ledger α I O σ n}
      (hp : q.probe s.ledger x kind = (.error cause, ledger)) (hbudget : q.hasBudget s.ledger = true) :
      Attempted q s x kind next (.failed cause, { s with ledger })
  | stopped {sample : Sample α (Snapshot I O) m} {ledger : Ledger α I O σ n}
      (hp : q.probe s.ledger x kind = (.ok (sample, some .stopEarly), ledger))
      (hbudget : q.hasBudget s.ledger = true) :
      Attempted q s x kind next (.finish .stoppedByObserver, { s with ledger })
  | evaluated {sample : Sample α (Snapshot I O) m} {ledger : Ledger α I O σ n}
      (hp : q.probe s.ledger x kind = (.ok (sample, none), ledger)) (hbudget : q.hasBudget s.ledger = true) :
      Attempted q s x kind next (next sample ledger)

def evaluatedAt (evals : Nat) (kind : Probe) (x : Vector α n) (r : Sample α (Snapshot I O) m) : Event α I O n :=
  .evaluated evals kind ⟨x, r.objective, r.maxViolation⟩ r.snapshot

structure Probed (q : Search α I O ε σ n m) (l : Ledger α I O σ n) (x : Vector α n) (kind : Probe)
    (r : Sample α (Snapshot I O) m) (answer : Option Action) (l' : Ledger α I O σ n) : Prop where
  evaluation : ∃ e, evaluate q.model q.problem x = .ok e ∧ r = e.sample
  events : l'.events = l.events ++ [evaluatedAt l'.evals kind x r]
  attempts : l'.attempts = l.attempts ++ [x]
  evals : l'.evals = l.evals + 1
  observed : q.observer.observe l.memory (evaluatedAt l'.evals kind x r) = (answer, l'.memory)

theorem probed {l l' : Ledger α I O σ n} {x : Vector α n} {kind : Probe} {r : Sample α (Snapshot I O) m}
    {answer : Option Action} (h : q.probe l x kind = (.ok (r, answer), l')) :
    Probed q l x kind r answer l' := by
  unfold probe at h
  dsimp only at h
  split at h
  · cases h
  · next e he =>
    split at h
    · generalize ha : Ledger.announce _ q.observer _ = shown at h
      obtain ⟨given, ledger⟩ := shown
      have hannounced := Ledger.announced ha
      cases h
      have hevals : ledger.evals = l.evals + 1 := hannounced.evals
      refine ⟨⟨e, he, rfl⟩, ?_, ?_, hevals, ?_⟩
      · rw [hevals]
        exact hannounced.events.trans (congrArg (· ++ _) (l.events_add_attempted x))
      · exact hannounced.attempts.trans (l.attempts_add_attempted x)
      · rw [hevals]
        exact hannounced.observed
    · cases h

theorem last_probe {l l' : Ledger α I O σ n} {x : Vector α n} {kind : Probe}
    {r : Sample α (Snapshot I O) m} {answer : Option Action}
    (h : q.probe l x kind = (.ok (r, answer), l')) :
    l'.events.getLast? = some (.evaluated l'.evals kind ⟨x, r.objective, r.maxViolation⟩ r.snapshot) := by
  rw [(probed h).events, List.getLast?_concat]
  rfl

theorem ledger_of_probe_error {l l' : Ledger α I O σ n} {x : Vector α n} {kind : Probe}
    {cause : Failure α ε n} (h : q.probe (m := m) l x kind = (.error cause, l')) :
    l' = l.add (.attempted x) := by
  unfold probe at h
  dsimp only at h
  split at h
  · cases h; rfl
  · split at h
    · cases h
    · cases h; rfl

theorem events_of_probe_error {l l' : Ledger α I O σ n} {x : Vector α n} {kind : Probe}
    {cause : Failure α ε n} (h : q.probe (m := m) l x kind = (.error cause, l')) : l'.events = l.events := by
  rw [ledger_of_probe_error h, Ledger.events_add_attempted]

/-! ## Selection, repair and trial -/

/-- The state in which a step is tried: the penalty was high enough, or it was raised, the observer went on
and no vertex became better than the pole. -/
inductive Weighed (q : Search α I O ε σ n m) (s : State α I O σ n m) (p : Prediction α) :
    State α I O σ n m → Prop
  | kept (h : ¬ s.penalty < 1.5 * p.leastPenalty) : Weighed q s p s
  | raised {ledger : Ledger α I O σ n} (h : s.penalty < 1.5 * p.leastPenalty)
      (ha : s.ledger.announce q.observer (.penaltyIncreased (2.0 * p.leastPenalty)) = (none, ledger))
      (hbest : s.simplex.poleIsBeaten (2.0 * p.leastPenalty) = false) :
      Weighed q s p { s with penalty := 2.0 * p.leastPenalty, ledger }

inductive Stepped (q : Search α I O ε σ n m) (s : State α I O σ n m) (g : Geometry α n) (step : Vector α n)
    (p : Prediction α) : Phase α ε n × State α I O σ n m → Prop
  | halted {ledger : Ledger α I O σ n} (h : s.penalty < 1.5 * p.leastPenalty)
      (ha : s.ledger.announce q.observer (.penaltyIncreased (2.0 * p.leastPenalty)) =
        (some .stopEarly, ledger)) :
      Stepped q s g step p (.finish .stoppedByObserver, { s with penalty := 2.0 * p.leastPenalty, ledger })
  | overtaken {ledger : Ledger α I O σ n} (h : s.penalty < 1.5 * p.leastPenalty)
      (ha : s.ledger.announce q.observer (.penaltyIncreased (2.0 * p.leastPenalty)) = (none, ledger))
      (hbeaten : s.simplex.poleIsBeaten (2.0 * p.leastPenalty) = true) :
      Stepped q s g step p (.selectBest, { s with penalty := 2.0 * p.leastPenalty, ledger })
  | tried {w : State α I O σ n m} {out : Phase α ε n × State α I O σ n m} (hw : Weighed q s p w)
      (h : Attempted q { w with repairArmed := false } (w.simplex.offset step) .trial
        (fun sample ledger => accept { w with repairArmed := false, ledger } g step p sample) out) :
      Stepped q s g step p out

inductive Iterated (q : Search α I O ε σ n m) (s : State α I O σ n m) (fuel : Nat) :
    Phase α ε n × State α I O σ n m → Prop
  | inaccurate (h : accuracyBound < s.selected.simplex.inverseError) :
      Iterated q s fuel (.finish .roundingErrors, { s.selected with
        ledger := s.ledger.add (.inaccurate s.selected.simplex.inverseError s.ledger.evals) })
  | repaired {j : Fin n} {step : Vector α n} {out : Phase α ε n × State α I O σ n m}
      (hj : s.vertexInRepair? = some j)
      (hstep : step =
        s.surveyed.simplex.repairStep s.surveyed.geometry j s.surveyed.simplex.linearize s.penalty)
      (h : Attempted q { s.surveyed with simplex := s.surveyed.simplex.replace j step }
        (s.surveyed.simplex.offset step) .geometry
        (fun sample ledger => (.selectBest, { s.surveyed with
          simplex := (s.surveyed.simplex.replace j step).store j sample, ledger, repairArmed := false })) out) :
      Iterated q s fuel out
  | unresolved (hstep : s.surveyed.simplex.linearize.solveWithin s.radius fuel = none)
      (hsound : s.vertexInRepair? = none) : Iterated q s fuel (.unresolved, s.surveyed)
  | tooShort {step : Step α n} (hstep : s.surveyed.simplex.linearize.solveWithin s.radius fuel = some step)
      (hshort : isTooShort s.radius step = true) (hsound : s.vertexInRepair? = none) :
      Iterated q s fuel (.shrinkRadius, { s.surveyed with repairArmed := false })
  | stepped {step : Step α n} {out : Phase α ε n × State α I O σ n m}
      (hstep : s.surveyed.simplex.linearize.solveWithin s.radius fuel = some step)
      (hlong : isTooShort s.radius step = false)
      (h : Stepped q s.surveyed s.surveyed.geometry step.move
        (predict s.surveyed s.surveyed.simplex.linearize step.move) out) (hsound : s.vertexInRepair? = none) :
      Iterated q s fuel out

def attempt (q : Search α I O ε σ n m) (s : State α I O σ n m) (x : Vector α n) (kind : Probe)
    (next : Sample α (Snapshot I O) m → Ledger α I O σ n → Phase α ε n × State α I O σ n m) :
    Phase α ε n × State α I O σ n m :=
  if q.hasBudget s.ledger then
    match q.probe s.ledger x kind with
    | (.error cause, ledger) => (.failed cause, { s with ledger })
    | (.ok (_, some .stopEarly), ledger) => (.finish .stoppedByObserver, { s with ledger })
    | (.ok (sample, none), ledger) => next sample ledger
  else (.finish .maxEvals, s)

theorem repair_eq_attempt (q : Search α I O ε σ n m) (s : State α I O σ n m) (g : Geometry α n) (j : Fin n)
    (L : Linearization α n m) : q.repair s g j L =
      q.attempt { s with simplex := s.simplex.replace j (s.simplex.repairStep g j L s.penalty) }
        (s.simplex.offset (s.simplex.repairStep g j L s.penalty)) .geometry fun sample ledger => (.selectBest,
          { s with simplex := (s.simplex.replace j (s.simplex.repairStep g j L s.penalty)).store j sample,
                   ledger, repairArmed := false }) :=
  rfl

theorem tryStep_eq_attempt (q : Search α I O ε σ n m) (s : State α I O σ n m) (g : Geometry α n)
    (step : Vector α n) (p : Prediction α) : q.tryStep s g step p =
      q.attempt { s with repairArmed := false } (s.simplex.offset step) .trial fun sample ledger =>
        accept { s with repairArmed := false, ledger } g step p sample :=
  rfl

theorem attempted (s : State α I O σ n m) (x : Vector α n) (kind : Probe)
    (next : Sample α (Snapshot I O) m → Ledger α I O σ n → Phase α ε n × State α I O σ n m) :
    Attempted q s x kind next (q.attempt s x kind next) := by
  unfold attempt
  split_ifs with hbudget
  · split
    · next hp => exact .failed hp hbudget
    · next hp => exact .stopped hp hbudget
    · next hp => exact .evaluated hp hbudget
  · exact .exhausted (Bool.eq_false_iff.mpr hbudget)

theorem attempted_repair (s : State α I O σ n m) (g : Geometry α n) (j : Fin n) (L : Linearization α n m) :
    let step := s.simplex.repairStep g j L s.penalty
    Attempted q { s with simplex := s.simplex.replace j step } (s.simplex.offset step) .geometry
      (fun sample ledger => (.selectBest,
        { s with simplex := (s.simplex.replace j step).store j sample, ledger, repairArmed := false }))
      (q.repair s g j L) :=
  attempted _ _ _ _

theorem edges_repair (s : State α I O σ n m) (g : Geometry α n) (j : Fin n) (L : Linearization α n m) :
    (q.repair s g j L).2.simplex.edges = s.simplex.edges.setCol j (s.simplex.repairStep g j L s.penalty) := by
  have ha := attempted_repair (q := q) s g j L
  dsimp only at ha
  generalize q.repair s g j L = out at ha ⊢
  cases ha <;> rfl

theorem attempted_tryStep (s : State α I O σ n m) (g : Geometry α n) (step : Vector α n) (p : Prediction α) :
    Attempted q { s with repairArmed := false } (s.simplex.offset step) .trial
      (fun sample ledger => accept { s with repairArmed := false, ledger } g step p sample)
      (q.tryStep s g step p) :=
  attempted _ _ _ _

theorem stepped_weighStep (s : State α I O σ n m) (g : Geometry α n) (step : Vector α n) (p : Prediction α) :
    Stepped q s g step p (q.weighStep s g step p) := by
  unfold weighStep
  split_ifs with hraise
  · dsimp only
    generalize ha : s.ledger.announce q.observer (.penaltyIncreased (2.0 * p.leastPenalty)) = shown
    obtain ⟨answer, ledger⟩ := shown
    cases answer with
    | some action => exact .halted hraise ha
    | none =>
      dsimp only
      split_ifs with hbeaten
      · exact .overtaken hraise ha hbeaten
      · exact .tried (.raised hraise ha (Bool.eq_false_iff.mpr hbeaten)) (attempted_tryStep _ g step p)
  · exact .tried (.kept hraise) (attempted_tryStep s g step p)

theorem iterate_eq (q : Search α I O ε σ n m) (s : State α I O σ n m) (fuel : Nat) : q.iterate s fuel =
    if accuracyBound < s.selected.simplex.inverseError then
      (.finish .roundingErrors, { s.selected with
        ledger := s.ledger.add (.inaccurate s.selected.simplex.inverseError s.ledger.evals) })
    else match s.vertexInRepair? with
      | some j => q.repair s.surveyed s.surveyed.geometry j s.surveyed.simplex.linearize
      | none => q.findStep s.surveyed s.surveyed.geometry s.surveyed.simplex.linearize fuel :=
  rfl

theorem iterated (s : State α I O σ n m) (fuel : Nat) : Iterated q s fuel (q.iterate s fuel) := by
  rw [iterate_eq]
  split
  · next herror => exact .inaccurate herror
  · split
    · next j hj => exact .repaired hj rfl (attempted_repair s.surveyed s.surveyed.geometry j _)
    · next hsound =>
      unfold findStep
      split
      · next hnone => exact .unresolved hnone hsound
      · next step hstep =>
        split_ifs with hshort
        · exact .tooShort hstep hshort hsound
        · exact .stepped hstep (Bool.eq_false_iff.mpr hshort)
            (stepped_weighStep s.surveyed s.surveyed.geometry _ _) hsound

inductive Accepted (s : State α I O σ n m) (g : Geometry α n) (step : Vector α n) (p : Prediction α)
    (r : Sample α (Snapshot I O) m) : Phase α ε n × State α I O σ n m → Prop
  | dropped (hj : s.simplex.vertexToReplace? g step (reductions s p r).2 = none) :
      Accepted s g step p r (.shrinkRadius, s)
  | gained {j : Fin n} (hj : s.simplex.vertexToReplace? g step (reductions s p r).2 = some j)
      (hgain : 0 < (reductions s p r).2 ∧ 0.1 * (reductions s p r).1 ≤ (reductions s p r).2) :
      Accepted s g step p r (.selectBest, { s with simplex := (s.simplex.replace j step).store j r })
  | stored {j : Fin n} (hj : s.simplex.vertexToReplace? g step (reductions s p r).2 = some j)
      (hgain : ¬ (0 < (reductions s p r).2 ∧ 0.1 * (reductions s p r).1 ≤ (reductions s p r).2)) :
      Accepted s g step p r (.shrinkRadius, { s with simplex := (s.simplex.replace j step).store j r })

theorem accepted (s : State α I O σ n m) (g : Geometry α n) (step : Vector α n) (p : Prediction α)
    (r : Sample α (Snapshot I O) m) :
    Accepted s g step p r (accept s g step p r : Phase α ε n × State α I O σ n m) := by
  unfold accept
  dsimp only
  split
  · next hj => exact .dropped hj
  · next hj =>
    split_ifs with hgain
    · exact .gained hj hgain
    · exact .stored hj hgain

structure Judged (s : State α I O σ n m) (out : Phase α ε n × State α I O σ n m) : Prop where
  resolved : out.1 ≠ .unresolved
  ledger : out.2.ledger = s.ledger
  radius : out.2.radius = s.radius
  penalty : out.2.penalty = s.penalty
  acceptable : out.2.acceptable = s.acceptable

theorem Accepted.judged {s : State α I O σ n m} {g : Geometry α n} {step : Vector α n} {p : Prediction α}
    {r : Sample α (Snapshot I O) m} {out : Phase α ε n × State α I O σ n m} (h : Accepted s g step p r out) :
    Judged s out := by
  cases h with
  | dropped => exact ⟨nofun, rfl, rfl, rfl, rfl⟩
  | gained => exact ⟨nofun, rfl, rfl, rfl, rfl⟩
  | stored => exact ⟨nofun, rfl, rfl, rfl, rfl⟩

theorem judged_accept (s : State α I O σ n m) (g : Geometry α n) (step : Vector α n) (p : Prediction α)
    (r : Sample α (Snapshot I O) m) : Judged s (accept s g step p r : Phase α ε n × State α I O σ n m) :=
  (accepted s g step p r).judged

theorem iterate_eq_weighStep {s : State α I O σ n m} {fuel : Nat} {step : Step α n}
    (haccurate : ¬ accuracyBound < s.selected.simplex.inverseError) (harmed : s.repairArmed = false)
    (hstep : s.surveyed.simplex.linearize.solveWithin s.radius fuel = some step)
    (hlong : isTooShort s.radius step = false) :
    q.iterate s fuel = q.weighStep s.surveyed s.surveyed.geometry step.move
      (predict s.surveyed s.surveyed.simplex.linearize step.move) := by
  have hfind : q.iterate s fuel =
      q.findStep s.surveyed s.surveyed.geometry s.surveyed.simplex.linearize fuel := by
    have hsound : s.vertexInRepair? = none := by
      unfold State.vertexInRepair?
      rw [harmed, if_neg Bool.false_ne_true]
    rw [iterate_eq, if_neg haccurate, hsound]
  rw [hfind]
  unfold findStep
  rw [show s.surveyed.radius = s.radius from rfl, hstep]
  dsimp only
  rw [hlong, if_neg Bool.false_ne_true]

/-- A selection goes on to try the step that was found if nothing is to be repaired, the step is long and the
penalty is high enough. -/
theorem iterate_eq_tryStep {s : State α I O σ n m} {fuel : Nat} {step : Step α n}
    (haccurate : ¬ accuracyBound < s.selected.simplex.inverseError) (harmed : s.repairArmed = false)
    (hstep : s.surveyed.simplex.linearize.solveWithin s.radius fuel = some step)
    (hlong : isTooShort s.radius step = false)
    (hkept : ¬ s.penalty < 1.5 * (predict s.surveyed s.surveyed.simplex.linearize step.move).leastPenalty) :
    q.iterate s fuel = q.tryStep s.surveyed s.surveyed.geometry step.move
      (predict s.surveyed s.surveyed.simplex.linearize step.move) :=
  (iterate_eq_weighStep haccurate harmed hstep hlong).trans (if_neg hkept)

theorem weighStep_eq_stopped {s : State α I O σ n m} {g : Geometry α n} {step : Vector α n} {p : Prediction α}
    {ledger : Ledger α I O σ n} (hraise : s.penalty < 1.5 * p.leastPenalty)
    (ha : s.ledger.announce q.observer (.penaltyIncreased (2.0 * p.leastPenalty)) = (some .stopEarly, ledger)) :
    q.weighStep s g step p = (.finish .stoppedByObserver, { s with penalty := 2.0 * p.leastPenalty, ledger }) := by
  unfold weighStep
  rw [if_pos hraise]
  dsimp only
  rw [ha]

theorem tryStep_eq_accept {s : State α I O σ n m} {g : Geometry α n} {step : Vector α n} {p : Prediction α}
    {sample : Sample α (Snapshot I O) m} {ledger : Ledger α I O σ n} (hbudget : q.hasBudget s.ledger = true)
    (hp : q.probe s.ledger (s.simplex.offset step) .trial = (.ok (sample, none), ledger)) :
    q.tryStep s g step p = accept { s with repairArmed := false, ledger } g step p sample := by
  unfold tryStep
  rw [if_pos hbudget, hp]

theorem tryStep_eq_stopped {s : State α I O σ n m} {g : Geometry α n} {step : Vector α n} {p : Prediction α}
    {sample : Sample α (Snapshot I O) m} {ledger : Ledger α I O σ n} (hbudget : q.hasBudget s.ledger = true)
    (hp : q.probe s.ledger (s.simplex.offset step) .trial = (.ok (sample, some .stopEarly), ledger)) :
    q.tryStep s g step p = (.finish .stoppedByObserver, { s with repairArmed := false, ledger }) := by
  unfold tryStep
  rw [if_pos hbudget, hp]

/-! ## Reduction of the radius -/

inductive Shrunk (q : Search α I O ε σ n m) (s : State α I O σ n m) : Phase α ε n × State α I O σ n m → Prop
  | rearmed (hpoor : s.acceptable = false) : Shrunk q s (.selectBest, { s with repairArmed := true })
  | converged (hsound : s.acceptable = true) (hend : s.radius ≤ q.config.finalRadius) :
      Shrunk q s (.finish .converged, s)
  | halted {ledger : Ledger α I O σ n} (hsound : s.acceptable = true)
      (hend : ¬ s.radius ≤ q.config.finalRadius)
      (ha : s.ledger.announce q.observer (.radiusReduced (q.reducedRadius s.radius) s.reducedPenalty
        s.ledger.evals s.simplex.best) = (some .stopEarly, ledger)) :
      Shrunk q s (.finish .stoppedByObserver,
        { s with radius := q.reducedRadius s.radius, penalty := s.reducedPenalty, ledger })
  | reduced {ledger : Ledger α I O σ n} (hsound : s.acceptable = true)
      (hend : ¬ s.radius ≤ q.config.finalRadius)
      (ha : s.ledger.announce q.observer (.radiusReduced (q.reducedRadius s.radius) s.reducedPenalty
        s.ledger.evals s.simplex.best) = (none, ledger)) :
      Shrunk q s (.selectBest,
        { s with radius := q.reducedRadius s.radius, penalty := s.reducedPenalty, ledger })

theorem shrink_eq (q : Search α I O ε σ n m) (s : State α I O σ n m) : q.shrink s =
    if !s.acceptable then (.selectBest, { s with repairArmed := true })
    else if s.radius ≤ q.config.finalRadius then (.finish .converged, s)
    else
      let shown := s.ledger.announce q.observer
        (.radiusReduced (q.reducedRadius s.radius) s.reducedPenalty s.ledger.evals s.simplex.best)
      (match shown.1 with
        | some .stopEarly => .finish .stoppedByObserver
        | none => .selectBest,
        { s with radius := q.reducedRadius s.radius, penalty := s.reducedPenalty, ledger := shown.2 }) :=
  rfl

theorem shrunk (s : State α I O σ n m) : Shrunk q s (q.shrink s) := by
  rw [shrink_eq]
  by_cases hsound : s.acceptable = true
  · rw [if_neg (by simp [hsound])]
    by_cases hend : s.radius ≤ q.config.finalRadius
    · rw [if_pos hend]
      exact .converged hsound hend
    · rw [if_neg hend]
      generalize ha : s.ledger.announce q.observer _ = shown
      obtain ⟨answer, ledger⟩ := shown
      cases answer with
      | some action => exact .halted hsound hend ha
      | none => exact .reduced hsound hend ha
  · rw [if_pos (by simpa using hsound)]
    exact .rearmed (Bool.eq_false_iff.mpr hsound)

/-! ## Growth of the first simplex -/

/-- The ways in which `build` ends, where every state has a property in which it goes on. -/
inductive Built (q : Search α I O ε σ n m) (P : State α I O σ n m → Prop) : Run α I O ε σ n m → Prop
  | failed {s : State α I O σ n m} (h : P s) (hbuilding : s.simplex.isBuilding = true)
      {cause : Failure α ε n} {ledger : Ledger α I O σ n}
      (hp : q.probe s.ledger s.simplex.nextInitial .initial = (.error cause, ledger)) :
      Built q P ⟨.failed cause, { s with ledger }⟩
  | stopped {s : State α I O σ n m} (h : P s) (hbuilding : s.simplex.isBuilding = true)
      {sample : Sample α (Snapshot I O) m} {ledger : Ledger α I O σ n}
      (hp : q.probe s.ledger s.simplex.nextInitial .initial = (.ok (sample, some .stopEarly), ledger)) :
      Built q P ⟨.finish .stoppedByObserver, { s with ledger, simplex := s.simplex.extend sample }⟩
  | complete {s : State α I O σ n m} (h : P s) (hn : s.simplex.others.size = n) : Built q P ⟨.selectBest, s⟩

theorem built {P : State α I O σ n m → Prop}
    (hP : ∀ {s sample ledger}, P s → s.simplex.isBuilding = true →
      q.probe s.ledger s.simplex.nextInitial .initial = (.ok (sample, none), ledger) →
      P { s with ledger, simplex := s.simplex.extend sample }) :
    ∀ {count : Nat} {s : State α I O σ n m}, P s → s.simplex.others.size + count = n →
      Built q P (q.build s count)
  | 0, _, h, hn => .complete h hn
  | count + 1, s, h, hn => by
    have hbuilding : s.simplex.isBuilding = true := decide_eq_true (by omega)
    unfold build
    split
    · next cause ledger hp => exact .failed h hbuilding hp
    · next sample answer ledger hp =>
      cases answer with
      | some action => exact .stopped h hbuilding hp
      | none =>
        refine built hP (hP h hbuilding hp) ?_
        rw [Simplex.size_others_extend]
        omega

inductive Started (q : Search α I O ε σ n m) (x : Vector α n) (memory : σ) (P : State α I O σ n m → Prop) :
    Run α I O ε σ n m → Prop
  | stopped {first : Sample α (Snapshot I O) m} {ledger : Ledger α I O σ n}
      (hp : q.probe (.start memory) x .initial = (.ok (first, some .stopEarly), ledger)) :
      Started q x memory P ⟨.finish .stoppedByObserver, q.firstState x first ledger⟩
  | built {r : Run α I O ε σ n m} (h : Built q P r) : Started q x memory P r

theorem started {P : State α I O σ n m → Prop} {x : Vector α n} {memory : σ} {r : Run α I O ε σ n m}
    (hfirst : ∀ {first ledger}, q.probe (.start memory) x .initial = (.ok (first, none), ledger) →
      P (q.firstState x first ledger))
    (hP : ∀ {s sample ledger}, P s → s.simplex.isBuilding = true →
      q.probe s.ledger s.simplex.nextInitial .initial = (.ok (sample, none), ledger) →
      P { s with ledger, simplex := s.simplex.extend sample })
    (h : q.start x memory = .ok r) : Started q x memory P r := by
  unfold start at h
  split at h
  · cases h
  · split at h
    · cases h
    · next hp => cases h; exact .stopped hp
    · next hp => cases h; exact .built (built hP (hfirst hp) (Nat.zero_add n))

theorem budget_of_start {x : Vector α n} {memory : σ} {r : Run α I O ε σ n m}
    (h : q.start x memory = .ok r) : n ≠ 0 ∧ n + 1 ≤ q.config.maxEvals := by
  rw [← Config.validateFor_eq_ok_iff]
  unfold start at h
  split at h
  · cases h
  · next hvalid => exact hvalid

/-! ## Runs -/

theorem follow_selectBest {s t : State α I O σ n m} {phase : Phase α ε n} {fuel : Nat}
    (h : q.iterate s fuel = (phase, t)) (count : Nat) :
    q.follow fuel ⟨.selectBest, s⟩ (count + 1) = q.follow fuel ⟨phase, t⟩ count := by
  have hadvance : q.advance ⟨.selectBest, s⟩ fuel = ⟨phase, t⟩ := by
    unfold advance
    rw [h]
  have hactive : (.selectBest : Phase α ε n).isActive = true := rfl
  rw [follow, hadvance]
  exact if_pos hactive

theorem follow_shrinkRadius {s t : State α I O σ n m} {phase : Phase α ε n} (h : q.shrink s = (phase, t))
    (fuel count : Nat) : q.follow fuel ⟨.shrinkRadius, s⟩ (count + 1) = q.follow fuel ⟨phase, t⟩ count := by
  have hadvance : q.advance ⟨.shrinkRadius, s⟩ fuel = ⟨phase, t⟩ := by
    unfold advance
    rw [h]
  have hactive : (.shrinkRadius : Phase α ε n).isActive = true := rfl
  rw [follow, hadvance]
  exact if_pos hactive

theorem follow_invariant {P : Phase α ε n → State α I O σ n m → Prop} {fuel : Nat}
    (hiterate : ∀ s, P .selectBest s → P (q.iterate s fuel).1 (q.iterate s fuel).2)
    (hshrink : ∀ s, P .shrinkRadius s → P (q.shrink s).1 (q.shrink s).2) :
    ∀ (count : Nat) {r : Run α I O ε σ n m}, P r.phase r.state →
      P (q.follow fuel r count).phase (q.follow fuel r count).state
  | 0, _, h => h
  | count + 1, ⟨phase, s⟩, h => by
    unfold follow
    split_ifs
    · refine follow_invariant hiterate hshrink count ?_
      cases phase with
      | selectBest => exact hiterate s h
      | shrinkRadius => exact hshrink s h
      | finish status => exact h
      | failed cause => exact h
      | unresolved => exact h
    · exact h

theorem minimizeWithin_of_finish {x : Vector α n} {memory : σ} {fuel : Nat} {r : Run α I O ε σ n m}
    {status : Status} {e : State α I O σ n m} (hr : q.start x memory = .ok r)
    (he : q.follow fuel r fuel = ⟨.finish status, e⟩) :
    q.minimizeWithin x memory fuel = some ⟨.ok (q.finish e status).1, (q.finish e status).2⟩ := by
  unfold minimizeWithin
  rw [hr]
  dsimp only
  rw [he]
  rfl

theorem finish_eq_of_minimizeWithin {x : Vector α n} {memory : σ} {fuel : Nat} {o : Outcome α I O ε σ n}
    {solution : Solution α I O n} (h : q.minimizeWithin x memory fuel = some o)
    (hok : o.result = .ok solution) :
    ∃ r e, q.start x memory = .ok r ∧ q.follow fuel r fuel = ⟨.finish solution.status, e⟩ ∧
      q.finish e solution.status = (solution, o.ledger) := by
  unfold minimizeWithin at h
  split at h
  · next outcome hstart =>
    cases h
    unfold start at hstart
    split at hstart
    · cases hstart; cases hok
    · split at hstart
      · cases hstart; cases hok
      · cases hstart
      · cases hstart
  · next r hstart =>
    generalize hr : q.follow fuel r fuel = last at h
    obtain ⟨phase, e⟩ := last
    unfold outcome? at h
    cases phase with
    | finish status => cases h; cases hok; exact ⟨r, e, hstart, hr, rfl⟩
    | failed cause => cases h; cases hok
    | selectBest => cases h
    | shrinkRadius => cases h
    | unresolved => cases h

/-- A solution is the pole of the state in which the run came to its end. -/
theorem finish_of_minimizeWithin {x : Vector α n} {memory : σ} {fuel : Nat} {o : Outcome α I O ε σ n}
    {solution : Solution α I O n} (h : q.minimizeWithin x memory fuel = some o)
    (hok : o.result = .ok solution) :
    ∃ r e, q.start x memory = .ok r ∧ q.follow fuel r fuel = ⟨.finish solution.status, e⟩ ∧
      solution = (q.finish e solution.status).1 := by
  obtain ⟨r, e, hr, he, hfinish⟩ := finish_eq_of_minimizeWithin h hok
  exact ⟨r, e, hr, he, (congrArg Prod.fst hfinish).symm⟩

structure Finished (s : State α I O σ n m) (solution : Solution α I O n) (l : Ledger α I O σ n) : Prop where
  point : solution.point = s.simplex.best
  snapshot : solution.snapshot = s.simplex.poleSample.snapshot
  evals : solution.evals = s.ledger.evals
  events : l.events = s.ledger.events ++ [.finished solution.status solution.evals solution.point]
  attempts : l.attempts = s.ledger.attempts

theorem finished_of_minimizeWithin {x : Vector α n} {memory : σ} {fuel : Nat} {o : Outcome α I O ε σ n}
    {solution : Solution α I O n} (h : q.minimizeWithin x memory fuel = some o)
    (hok : o.result = .ok solution) :
    ∃ r e, q.start x memory = .ok r ∧ q.follow fuel r fuel = ⟨.finish solution.status, e⟩ ∧
      Finished e solution o.ledger := by
  obtain ⟨r, e, hr, he, hfinish⟩ := finish_eq_of_minimizeWithin h hok
  refine ⟨r, e, hr, he, ?_⟩
  generalize solution.status = status at hfinish
  generalize o.ledger = l at hfinish ⊢
  cases hfinish
  exact ⟨rfl, rfl, rfl, Ledger.events_announce .., Ledger.attempts_announce ..⟩

end Search

end

end TrustSimplex
