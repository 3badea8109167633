import TrustSimplex.Proofs.Search.EarlyStop
import TrustSimplex.Proofs.Search.Failures
import TrustSimplex.Proofs.Search.Trace

/-!
# Runs in lockstep

An observer and a budget can only cut a run off. Beside a search stands the same search unobserved and with
a budget that is no smaller: both do the same until the one stops, so the events of the one begin those of the
other. Two searches that differ in nothing else are compared through the third.
-/

namespace TrustSimplex

/-! ## Forgetting the observer -/

section
variable {α I O σ : Type} {n m : Nat}

def Entry.forget : Entry α I O n → Entry α I O n
  | attempted x => .attempted x
  | shown event _ => .shown event none
  | inaccurate error evals => .inaccurate error evals

def Ledger.forget (l : Ledger α I O σ n) : Ledger α I O Unit n := ⟨l.evals, (), l.entries.map Entry.forget⟩

def State.forget (s : State α I O σ n m) : State α I O Unit n m :=
  ⟨s.ledger.forget, s.simplex, s.radius, s.penalty, s.repairArmed, s.acceptable⟩

@[simp] theorem Ledger.events_forget (l : Ledger α I O σ n) : l.forget.events = l.events := by
  unfold Ledger.events Ledger.forget
  rw [← List.map_reverse, List.filterMap_map]
  congr 1
  funext entry
  cases entry <;> rfl

end

/-! ## The history of a run -/

section
variable {α I O : Type} {n : Nat}

def Event.isFinished : Event α I O n → Bool
  | evaluated .. => false
  | penaltyIncreased _ => false
  | radiusReduced .. => false
  | finished .. => true

def history (events : List (Event α I O n)) : List (Event α I O n) := events.filter fun event => !event.isFinished

theorem history_concat_finished (events : List (Event α I O n)) (status : Status) (evals : Nat) (best : Point α n) :
    history (events ++ [.finished status evals best]) = history events := by
  unfold history
  rw [List.filter_append]
  exact List.append_nil _

theorem history_eq_self {events : List (Event α I O n)}
    (h : ∀ status evals best, Event.finished status evals best ∉ events) : history events = events := by
  unfold history
  rw [List.filter_eq_self]
  intro event hmem
  cases event with
  | finished status evals best => exact absurd hmem (h status evals best)
  | evaluated => rfl
  | penaltyIncreased => rfl
  | radiusReduced => rfl

def Outcome.Exhausted {ε σ : Type} (o : Outcome α I O ε σ n) : Prop :=
  ∃ solution, o.result = .ok solution ∧ solution.status = .maxEvals

end

section
variable {β A σ : Type} {observer : Observer β A σ} {memory : σ} {shared earlier whole : List β} {last event : β}

theorem Observer.Quiet.not_begins {answer : A} (hquiet : observer.Quiet memory shared)
    (ha : observer.answerTo memory earlier event = some answer) : ¬ earlier ++ [event] <+: shared := by
  rintro ⟨later, rfl⟩
  cases ha.symm.trans (hquiet earlier event later (by simp))

/-- An observer that answers none of the events shared lets the next one be shown. -/
theorem Observer.Quiet.reaches {answer : A} (hquiet : observer.Quiet memory shared)
    (ha : observer.answerTo memory earlier event = some answer) (hend : earlier ++ [event] <+: whole)
    (hshared : shared ++ [last] <+: whole) : shared ++ [last] <+: earlier ++ [event] := by
  rcases List.prefix_or_prefix_of_prefix hshared hend with h | h
  · exact h
  · rcases List.prefix_concat_iff.mp h with heq | hbegins
    · rw [heq]
    · exact absurd hbegins (hquiet.not_begins ha)

end

namespace Search

section
variable {α I O ε σ : Type} [Scalar α] {n m : Nat} {q : Search α I O ε σ n m} {b : Nat}
variable {l l' : Ledger α I O σ n} {x : Vector α n} {kind : Probe}

def unobserved (q : Search α I O ε σ n m) (b : Nat) : Search α I O ε Unit n m :=
  ⟨q.model, q.problem, { q.config with maxEvals := b }, .silent⟩

variable (q b) in
theorem probe_forget (l : Ledger α I O σ n) (x : Vector α n) (kind : Probe) :
    (q.unobserved b).probe l.forget x kind =
      ((q.probe l x kind).1.map fun given => (given.1, none), (q.probe l x kind).2.forget) := by
  unfold probe unobserved
  dsimp only
  cases evaluate q.model q.problem x with
  | error cause => rfl
  | ok e =>
    dsimp only
    split <;> rfl

/-! ## Events are only added -/

theorem grows_probe {r : Sample α (Snapshot I O) m} {answer : Option Action}
    (h : q.probe l x kind = (.ok (r, answer), l')) : l.events <+: l'.events := by
  rw [(probed h).events]
  exact List.prefix_append _ _

theorem grows_attempted {s : State α I O σ n m} {out : Phase α ε n × State α I O σ n m}
    {next : Sample α (Snapshot I O) m → Ledger α I O σ n → Phase α ε n × State α I O σ n m}
    (ho : Attempted q s x kind next out)
    (hnext : ∀ sample ledger, ledger.events <+: (next sample ledger).2.ledger.events) :
    s.ledger.events <+: out.2.ledger.events := by
  cases ho with
  | exhausted => exact List.prefix_rfl
  | failed hp => rw [events_of_probe_error hp]
  | stopped hp => exact grows_probe hp
  | @evaluated sample ledger hp => exact (grows_probe hp).trans (hnext sample ledger)

theorem grows_tryStep (q : Search α I O ε σ n m) (s : State α I O σ n m) (g : Geometry α n) (step : Vector α n)
    (p : Prediction α) : s.ledger.events <+: (q.tryStep s g step p).2.ledger.events := by
  refine grows_attempted (s := { s with repairArmed := false }) (attempted_tryStep s g step p) fun sample ledger => ?_
  rw [(judged_accept _ _ _ _ _).ledger]

omit [Scalar α] in
theorem grows_announce {observer : Observer (Event α I O n) Action σ} {event : Event α I O n}
    {answer : Option Action} (h : l.announce observer event = (answer, l')) : l.events <+: l'.events := by
  rw [(Ledger.announced h).events]
  exact List.prefix_append _ _

theorem grows_iterate (q : Search α I O ε σ n m) (s : State α I O σ n m) (fuel : Nat) :
    s.ledger.events <+: (q.iterate s fuel).2.ledger.events := by
  have h := iterated (q := q) s fuel
  generalize q.iterate s fuel = out at h ⊢
  cases h with
  | inaccurate =>
    show s.ledger.events <+: (s.ledger.add _).events
    rw [Ledger.events_add_inaccurate]
  | @repaired j step _ _ _ ha =>
    exact grows_attempted (s := { s.surveyed with simplex := s.surveyed.simplex.replace j step }) ha
      fun _ _ => List.prefix_rfl
  | unresolved => exact List.prefix_rfl
  | tooShort => exact List.prefix_rfl
  | stepped _ _ hstepped =>
    cases hstepped with
    | halted _ ha => exact grows_announce ha
    | overtaken _ ha => exact grows_announce ha
    | @tried w _ hw ha =>
      have hraised : s.ledger.events <+: w.ledger.events := by
        cases hw with
        | kept => exact List.prefix_rfl
        | raised _ hshown _ => exact grows_announce hshown
      refine hraised.trans (grows_attempted (s := { w with repairArmed := false }) ha fun sample ledger => ?_)
      rw [(judged_accept _ _ _ _ _).ledger]

theorem grows_shrink (q : Search α I O ε σ n m) (s : State α I O σ n m) :
    s.ledger.events <+: (q.shrink s).2.ledger.events := by
  have h := shrunk (q := q) s
  generalize q.shrink s = out at h ⊢
  cases h with
  | rearmed => exact List.prefix_rfl
  | converged => exact List.prefix_rfl
  | halted _ _ ha => exact grows_announce ha
  | reduced _ _ ha => exact grows_announce ha

theorem grows_follow (q : Search α I O ε σ n m) (run : Run α I O ε σ n m) (fuel count : Nat) :
    run.state.ledger.events <+: (q.follow fuel run count).state.ledger.events :=
  follow_invariant (P := fun _ s => run.state.ledger.events <+: s.ledger.events)
    (fun s hs => hs.trans (q.grows_iterate s fuel)) (fun s hs => hs.trans (q.grows_shrink s)) count List.prefix_rfl

theorem grows_build (q : Search α I O ε σ n m) (s : State α I O σ n m) (count : Nat) :
    s.ledger.events <+: (q.build s count).state.ledger.events := by
  induction count generalizing s with
  | zero => exact List.prefix_rfl
  | succ count ih =>
    unfold build
    split
    · next hp => rw [events_of_probe_error hp]
    · next sample answer ledger hp =>
      cases answer with
      | some action => exact grows_probe hp
      | none => exact (grows_probe hp).trans (ih { s with ledger, simplex := s.simplex.extend sample })

/-! ## One phase -/

/-- How a phase ends beside the same phase unobserved and with budget `b`: alike, or cut off by the observer or
by a smaller budget. -/
inductive Cut (q : Search α I O ε σ n m) (b : Nat) :
    Phase α ε n × State α I O σ n m → Phase α ε n × State α I O Unit n m → Prop
  | same (phase : Phase α ε n) (s : State α I O σ n m) : Cut q b (phase, s) (phase, s.forget)
  | stopped {s : State α I O σ n m} {out : Phase α ε n × State α I O Unit n m}
      (h : s.ledger.events <+: out.2.ledger.events) : Cut q b (.finish .stoppedByObserver, s) out
  | exhausted {s : State α I O σ n m} {out : Phase α ε n × State α I O Unit n m} (hb : q.config.maxEvals < b)
      (h : s.ledger.events <+: out.2.ledger.events) : Cut q b (.finish .maxEvals, s) out

theorem cut_stopped {s : State α I O σ n m} {out : Phase α ε n × State α I O Unit n m}
    (h : s.ledger.forget.events <+: out.2.ledger.events) : Cut q b (.finish .stoppedByObserver, s) out := by
  rw [s.ledger.events_forget] at h
  exact .stopped h

theorem cut_attempt (hb : q.config.maxEvals ≤ b) (s : State α I O σ n m) (x : Vector α n) (kind : Probe)
    {next : Sample α (Snapshot I O) m → Ledger α I O σ n → Phase α ε n × State α I O σ n m}
    {next' : Sample α (Snapshot I O) m → Ledger α I O Unit n → Phase α ε n × State α I O Unit n m}
    (hnext : ∀ sample ledger, Cut q b (next sample ledger) (next' sample ledger.forget))
    (hgrows : ∀ sample ledger, ledger.events <+: (next' sample ledger).2.ledger.events) :
    Cut q b (q.attempt s x kind next) ((q.unobserved b).attempt s.forget x kind next') := by
  by_cases hbudget : q.hasBudget s.ledger = true
  · have hmore : (q.unobserved b).hasBudget s.forget.ledger = true :=
      decide_eq_true ((of_decide_eq_true hbudget).trans_le hb)
    unfold attempt
    rw [if_pos hbudget, if_pos hmore, show s.forget.ledger = s.ledger.forget from rfl, probe_forget]
    generalize q.probe s.ledger x kind = given
    obtain ⟨cause | ⟨sample, answer⟩, ledger⟩ := given
    · exact .same (.failed cause) { s with ledger }
    · cases answer with
      -- the unobserved attempt goes on where the observed one ends, and what it shows there is only added
      | some action => exact cut_stopped (hgrows sample ledger.forget)
      | none => exact hnext sample ledger
  · have hspent : q.attempt s x kind next = (.finish .maxEvals, s) := if_neg hbudget
    rw [hspent]
    rcases Nat.lt_or_eq_of_le hb with hlt | rfl
    · refine .exhausted hlt ?_
      rw [← s.ledger.events_forget]
      exact grows_attempted (s := s.forget) (attempted s.forget x kind next') hgrows
    · have hsame : (q.unobserved q.config.maxEvals).attempt s.forget x kind next' = (.finish .maxEvals, s.forget) :=
        if_neg hbudget
      rw [hsame]
      exact .same _ s

theorem cut_accept (s : State α I O σ n m) (g : Geometry α n) (step : Vector α n) (p : Prediction α)
    (r : Sample α (Snapshot I O) m) : Cut q b (accept s g step p r) (accept s.forget g step p r) := by
  unfold accept
  dsimp only
  rw [show reductions s.forget p r = reductions s p r from rfl, show s.forget.simplex = s.simplex from rfl]
  cases s.simplex.vertexToReplace? g step (reductions s p r).2 with
  | none => exact .same _ s
  | some j => exact .same _ { s with simplex := (s.simplex.replace j step).store j r }

theorem cut_tryStep (hb : q.config.maxEvals ≤ b) (s : State α I O σ n m) (g : Geometry α n) (step : Vector α n)
    (p : Prediction α) : Cut q b (q.tryStep s g step p) ((q.unobserved b).tryStep s.forget g step p) := by
  rw [tryStep_eq_attempt, tryStep_eq_attempt]
  refine cut_attempt hb { s with repairArmed := false } _ _ (fun sample ledger => ?_) (fun sample ledger => ?_)
  · exact cut_accept { s with repairArmed := false, ledger } g step p sample
  · rw [(judged_accept _ _ _ _ _).ledger]

theorem cut_repair (hb : q.config.maxEvals ≤ b) (s : State α I O σ n m) (g : Geometry α n) (j : Fin n)
    (L : Linearization α n m) : Cut q b (q.repair s g j L) ((q.unobserved b).repair s.forget g j L) := by
  rw [repair_eq_attempt, repair_eq_attempt]
  refine cut_attempt hb { s with simplex := s.simplex.replace j _ } _ _ (fun sample ledger => ?_)
    (fun sample ledger => List.prefix_rfl)
  exact .same _ { s with simplex := (s.simplex.replace j _).store j sample, ledger, repairArmed := false }

theorem cut_weighStep (hb : q.config.maxEvals ≤ b) (s : State α I O σ n m) (g : Geometry α n) (step : Vector α n)
    (p : Prediction α) : Cut q b (q.weighStep s g step p) ((q.unobserved b).weighStep s.forget g step p) := by
  unfold weighStep
  rw [show s.forget.penalty = s.penalty from rfl]
  split_ifs with hraise
  · dsimp only
    rw [show s.forget.ledger.announce (q.unobserved b).observer (.penaltyIncreased (2.0 * p.leastPenalty)) =
      (none, (s.ledger.announce q.observer (.penaltyIncreased (2.0 * p.leastPenalty))).2.forget) from rfl]
    generalize s.ledger.announce q.observer (.penaltyIncreased (2.0 * p.leastPenalty)) = shown
    obtain ⟨answer, ledger⟩ := shown
    cases answer with
    | some action =>
      refine cut_stopped ?_
      dsimp only
      split_ifs
      · exact List.prefix_rfl
      · exact grows_tryStep (q.unobserved b)
          { s.forget with penalty := 2.0 * p.leastPenalty, ledger := ledger.forget } g step p
    | none =>
      dsimp only
      rw [show s.forget.simplex = s.simplex from rfl]
      split_ifs
      · exact .same _ { s with penalty := 2.0 * p.leastPenalty, ledger }
      · exact cut_tryStep hb { s with penalty := 2.0 * p.leastPenalty, ledger } g step p
  · exact cut_tryStep hb s g step p

theorem cut_findStep (hb : q.config.maxEvals ≤ b) (s : State α I O σ n m) (g : Geometry α n)
    (L : Linearization α n m) (fuel : Nat) :
    Cut q b (q.findStep s g L fuel) ((q.unobserved b).findStep s.forget g L fuel) := by
  unfold findStep
  rw [show s.forget.radius = s.radius from rfl]
  cases L.solveWithin s.radius fuel with
  | none => exact .same _ s
  | some step =>
    dsimp only
    split_ifs
    · exact .same _ { s with repairArmed := false }
    · exact cut_weighStep hb s g step.move _

theorem cut_iterate (hb : q.config.maxEvals ≤ b) (s : State α I O σ n m) (fuel : Nat) :
    Cut q b (q.iterate s fuel) ((q.unobserved b).iterate s.forget fuel) := by
  rw [iterate_eq, iterate_eq, show s.forget.selected = s.selected.forget from rfl,
    show s.forget.surveyed = s.surveyed.forget from rfl, show s.forget.vertexInRepair? = s.vertexInRepair? from rfl]
  by_cases herror : accuracyBound < s.selected.simplex.inverseError
  · rw [if_pos herror]
    exact (if_pos herror).symm ▸ .same _ { s.selected with
      ledger := s.ledger.add (.inaccurate s.selected.simplex.inverseError s.ledger.evals) }
  · have herror' : ¬ accuracyBound < s.selected.forget.simplex.inverseError := herror
    rw [if_neg herror, if_neg herror']
    cases s.vertexInRepair? with
    | some j => exact cut_repair hb s.surveyed _ j _
    | none => exact cut_findStep hb s.surveyed _ _ fuel

theorem cut_shrink (s : State α I O σ n m) : Cut q b (q.shrink s) ((q.unobserved b).shrink s.forget) := by
  rw [shrink_eq, shrink_eq, show s.forget.acceptable = s.acceptable from rfl,
    show s.forget.radius = s.radius from rfl, show (q.unobserved b).config.finalRadius = q.config.finalRadius from rfl]
  split_ifs
  · exact .same _ { s with repairArmed := true }
  · exact .same _ s
  · rw [show s.forget.ledger.announce (q.unobserved b).observer
        (.radiusReduced ((q.unobserved b).reducedRadius s.radius) s.forget.reducedPenalty
          s.forget.ledger.evals s.forget.simplex.best) =
      (none, (s.ledger.announce q.observer (.radiusReduced (q.reducedRadius s.radius) s.reducedPenalty
        s.ledger.evals s.simplex.best)).2.forget) from rfl]
    generalize s.ledger.announce q.observer _ = shown
    obtain ⟨answer, ledger⟩ := shown
    cases answer with
    | some action => exact cut_stopped List.prefix_rfl
    | none => exact .same _ { s with radius := q.reducedRadius s.radius, penalty := s.reducedPenalty, ledger }

/-! ## Runs -/

theorem cut_follow (hb : q.config.maxEvals ≤ b) (fuel count : Nat) {run : Run α I O ε σ n m}
    {run' : Run α I O ε Unit n m} (h : Cut q b (run.phase, run.state) (run'.phase, run'.state)) :
    Cut q b ((q.follow fuel run count).phase, (q.follow fuel run count).state)
      (((q.unobserved b).follow fuel run' count).phase, ((q.unobserved b).follow fuel run' count).state) := by
  induction count generalizing run run' with
  | zero => exact h
  | succ count ih =>
    obtain ⟨phase, s⟩ := run
    obtain ⟨phase', s'⟩ := run'
    cases h with
    | same =>
      cases phase with
      | selectBest => exact ih (cut_iterate hb s fuel)
      | shrinkRadius => exact ih (cut_shrink s)
      | finish status => exact .same (.finish status) s
      | failed cause => exact .same (.failed cause) s
      | unresolved => exact .same .unresolved s
    -- once cut off a run stays as it is, and the events of the other still begin with its own
    | stopped h => exact .stopped (h.trans ((q.unobserved b).grows_follow ⟨phase', s'⟩ fuel (count + 1)))
    | exhausted hlt h => exact .exhausted hlt (h.trans ((q.unobserved b).grows_follow ⟨phase', s'⟩ fuel (count + 1)))

theorem cut_build (s : State α I O σ n m) (count : Nat) :
    Cut q b ((q.build s count).phase, (q.build s count).state)
      (((q.unobserved b).build s.forget count).phase, ((q.unobserved b).build s.forget count).state) := by
  induction count generalizing s with
  | zero => exact .same .selectBest s
  | succ count ih =>
    unfold build
    rw [show s.forget.ledger = s.ledger.forget from rfl, show s.forget.simplex = s.simplex from rfl, probe_forget]
    generalize q.probe s.ledger s.simplex.nextInitial .initial = given
    obtain ⟨cause | ⟨sample, answer⟩, ledger⟩ := given
    · exact .same (.failed cause) { s with ledger }
    · cases answer with
      | some action =>
        exact cut_stopped ((q.unobserved b).grows_build
          { s.forget with ledger := ledger.forget, simplex := s.simplex.extend sample } count)
      | none => exact ih { s with ledger, simplex := s.simplex.extend sample }

variable (q b) in
theorem cut_start (hvalid : (q.unobserved b).config.validateFor n = q.config.validateFor n) (x : Vector α n)
    (memory : σ) :
    (∀ o, q.start x memory = .error o → (q.unobserved b).start x () = .error ⟨o.result, o.ledger.forget⟩) ∧
    ∀ run, q.start x memory = .ok run → ∃ run', (q.unobserved b).start x () = .ok run' ∧
      Cut q b (run.phase, run.state) (run'.phase, run'.state) := by
  unfold start
  rw [hvalid]
  cases q.config.validateFor n with
  | error cause =>
    refine ⟨fun o ho => ?_, nofun⟩
    cases ho
    rfl
  | ok =>
    dsimp only
    rw [show (.start () : Ledger α I O Unit n) = (Ledger.start memory).forget from rfl, probe_forget]
    generalize q.probe (Ledger.start memory) x .initial = given
    obtain ⟨cause | ⟨first, answer⟩, ledger⟩ := given
    · refine ⟨fun o ho => ?_, nofun⟩
      cases ho
      rfl
    · cases answer with
      | some action =>
        refine ⟨nofun, fun run hrun => ⟨_, rfl, ?_⟩⟩
        cases hrun
        exact cut_stopped ((q.unobserved b).grows_build ((q.unobserved b).firstState x first ledger.forget) n)
      | none =>
        refine ⟨nofun, fun run hrun => ⟨_, rfl, ?_⟩⟩
        cases hrun
        exact cut_build (q.firstState x first ledger) n

end

section
variable {α I O ε σ : Type} [Scalar α] {n m : Nat} {q : Search α I O ε σ n m} {b : Nat} {x : Vector α n}
variable {memory : σ} {fuel : Nat} {o : Outcome α I O ε σ n}

def shownWithin (q : Search α I O ε σ n m) (x : Vector α n) (memory : σ) (fuel : Nat) : List (Event α I O n) :=
  match q.start x memory with
  | .error o => o.ledger.events
  | .ok run => (q.follow fuel run fuel).state.ledger.events

variable (fuel) in
theorem shownWithin_of_start {run : Run α I O ε σ n m} (h : q.start x memory = .ok run) :
    q.shownWithin x memory fuel = (q.follow fuel run fuel).state.ledger.events := by
  unfold shownWithin
  rw [h]

theorem history_of_minimizeWithin (h : q.minimizeWithin x memory fuel = some o) :
    history o.ledger.events = q.shownWithin x memory fuel := by
  unfold minimizeWithin at h
  cases hstart : q.start x memory with
  | error o' =>
    have hshown : q.shownWithin x memory fuel = o'.ledger.events := by
      unfold shownWithin
      rw [hstart]
    rw [hstart] at h
    cases h
    rw [hshown]
    rcases broken_or_invalid_of_start hstart with ⟨cause, -, rfl⟩ | ⟨-, cause, l, rfl, hbroken⟩
    · rfl
    · exact history_eq_self hbroken.truthful.unfinished
  | ok run =>
    have hdisclosed := disclosed_follow hstart fuel fuel
    rw [hstart] at h
    rw [shownWithin_of_start fuel hstart]
    dsimp only at h
    generalize q.follow fuel run fuel = last at h hdisclosed ⊢
    obtain ⟨phase, e⟩ := last
    have hself : history e.ledger.events = e.ledger.events := history_eq_self hdisclosed.truthful.unfinished
    cases phase with
    | finish status =>
      cases h
      show history (e.ledger.announce q.observer _).2.events = _
      rw [Ledger.events_announce, history_concat_finished]
      exact hself
    | failed cause =>
      cases h
      exact hself
    | selectBest => cases h
    | shrinkRadius => cases h
    | unresolved => cases h

inductive Beside (q : Search α I O ε σ n m) (b : Nat) (x : Vector α n) (memory : σ) (fuel : Nat)
    (o : Outcome α I O ε σ n) : Prop
  | same {o' : Outcome α I O ε Unit n} (h : (q.unobserved b).minimizeWithin x () fuel = some o')
      (hresult : o'.result = o.result) (hevents : o'.ledger.events = o.ledger.events)
  | stopped {earlier : List (Event α I O n)} {event : Event α I O n}
      (h : history o.ledger.events = earlier ++ [event])
      (ha : q.observer.answerTo memory earlier event = some .stopEarly)
      (hbegins : history o.ledger.events <+: (q.unobserved b).shownWithin x () fuel)
  | exhausted {solution : Solution α I O n} (hlt : q.config.maxEvals < b) (hok : o.result = .ok solution)
      (hstatus : solution.status = .maxEvals)
      (hbegins : history o.ledger.events <+: (q.unobserved b).shownWithin x () fuel)

theorem outcome_forget {phase : Phase α ε n} {s : State α I O σ n m} (h : q.outcome? ⟨phase, s⟩ = some o) :
    (q.unobserved b).outcome? ⟨phase, s.forget⟩ = some ⟨o.result, o.ledger.forget⟩ := by
  cases phase with
  | finish status =>
    cases h
    rfl
  | failed cause =>
    cases h
    rfl
  | selectBest => cases h
  | shrinkRadius => cases h
  | unresolved => cases h

theorem beside (hb : q.config.maxEvals ≤ b) (hvalid : (q.unobserved b).config.validateFor n = q.config.validateFor n)
    (h : q.minimizeWithin x memory fuel = some o) : Beside q b x memory fuel o := by
  obtain ⟨herror, hrun⟩ := q.cut_start b hvalid x memory
  have hhistory := history_of_minimizeWithin h
  unfold minimizeWithin at h
  cases hstart : q.start x memory with
  | error o' =>
    rw [hstart] at h
    cases h
    have hsame : (q.unobserved b).minimizeWithin x () fuel = some ⟨o.result, o.ledger.forget⟩ := by
      unfold minimizeWithin
      rw [herror o hstart]
    exact .same hsame rfl o.ledger.events_forget
  | ok run =>
    obtain ⟨run', hstart', hcut⟩ := hrun run hstart
    have hlast := cut_follow hb fuel fuel hcut
    have htraced := traced_follow hstart fuel fuel
    have hshown := shownWithin_of_start fuel hstart'
    rw [hstart] at h
    rw [shownWithin_of_start fuel hstart] at hhistory
    dsimp only at h
    generalize q.follow fuel run fuel = last at h hlast htraced hhistory
    generalize hend' : (q.unobserved b).follow fuel run' fuel = last' at hlast hshown
    obtain ⟨phase, e⟩ := last
    obtain ⟨phase', e'⟩ := last'
    cases hlast with
    | same =>
      have hsame : (q.unobserved b).minimizeWithin x () fuel = some ⟨o.result, o.ledger.forget⟩ := by
        unfold minimizeWithin
        rw [hstart']
        dsimp only
        rw [hend']
        exact outcome_forget h
      exact .same hsame rfl o.ledger.events_forget
    | stopped hbegins =>
      -- the trace of a stopped run has one event that was answered, and it is the last
      obtain ⟨-, -, hended⟩ := htraced
      obtain ⟨earlier, event, later, hsplit, ha⟩ := hended.stopped_iff.mp rfl
      cases hended.last hsplit ha
      refine .stopped (hhistory.trans hsplit) ha ?_
      rw [hhistory, hshown]
      exact hbegins
    | exhausted hlt hbegins =>
      cases h
      refine .exhausted hlt rfl rfl ?_
      rw [hhistory, hshown]
      exact hbegins

theorem Beside.begins (h : Beside q b x memory fuel o) :
    history o.ledger.events <+: (q.unobserved b).shownWithin x () fuel := by
  cases h with
  | same h _ hevents =>
    rw [← hevents, history_of_minimizeWithin h]
  | stopped _ _ hbegins => exact hbegins
  | exhausted _ _ _ hbegins => exact hbegins

/-! ## Two runs -/

structure Shares {τ : Type} (q : Search α I O ε σ n m) (q' : Search α I O ε τ n m) : Prop where
  model : q'.model = q.model
  problem : q'.problem = q.problem
  startRadius : q'.config.startRadius = q.config.startRadius
  finalRadius : q'.config.finalRadius = q.config.finalRadius

theorem Shares.unobserved_eq {τ : Type} {q' : Search α I O ε τ n m} (h : Shares q q') (b : Nat) :
    q'.unobserved b = q.unobserved b := by
  obtain ⟨model, problem, ⟨startRadius, finalRadius, maxEvals, _, _, _, _⟩, observer⟩ := q
  obtain ⟨model', problem', ⟨startRadius', finalRadius', maxEvals', _, _, _, _⟩, observer'⟩ := q'
  obtain ⟨rfl, rfl, hstart, hfinal⟩ := h
  cases hstart
  cases hfinal
  rfl

variable (memory) in
theorem exists_outcome_of_unobserved (hb : q.config.maxEvals ≤ b)
    (hvalid : (q.unobserved b).config.validateFor n = q.config.validateFor n) {o' : Outcome α I O ε Unit n}
    (h : (q.unobserved b).minimizeWithin x () fuel = some o') : ∃ o, q.minimizeWithin x memory fuel = some o := by
  obtain ⟨-, hrun⟩ := q.cut_start b hvalid x memory
  unfold minimizeWithin at h ⊢
  cases hstart : q.start x memory with
  | error o => exact ⟨o, rfl⟩
  | ok run =>
    obtain ⟨run', hstart', hcut⟩ := hrun run hstart
    rw [hstart'] at h
    dsimp only at h ⊢
    have hlast := cut_follow hb fuel fuel hcut
    obtain ⟨hover, hresolved⟩ := (q.unobserved b).over_of_outcome? h
    generalize q.follow fuel run fuel = last at hlast ⊢
    generalize (q.unobserved b).follow fuel run' fuel = last' at hlast hover hresolved
    obtain ⟨phase, e⟩ := last
    obtain ⟨phase', e'⟩ := last'
    cases hlast with
    | same => exact q.exists_outcome hover hresolved
    | stopped => exact ⟨_, rfl⟩
    | exhausted => exact ⟨_, rfl⟩

end

section
variable {α I O ε σ : Type} [Scalar α] {n m : Nat} {q : Search α I O ε σ n m} {b : Nat} {x : Vector α n}
variable {memory : σ} {fuel : Nat} {o : Outcome α I O ε σ n} {shared : List (Event α I O n)} {last : Event α I O n}

theorem Beside.reaches (h : Beside q b x memory fuel o)
    (hshared : shared ++ [last] <+: (q.unobserved b).shownWithin x () fuel) (hquiet : q.observer.Quiet memory shared)
    (hroom : q.config.maxEvals < b → o.Exhausted → ¬ history o.ledger.events <+: shared) :
    shared ++ [last] <+: history o.ledger.events := by
  cases h with
  | same h _ hevents =>
    rw [← hevents, history_of_minimizeWithin h]
    exact hshared
  | stopped hlast ha hbegins =>
    rw [hlast] at hbegins ⊢
    exact hquiet.reaches ha hbegins hshared
  | exhausted hlt hok hstatus hbegins =>
    -- of two beginnings of one list the one begins the other
    rcases List.prefix_or_prefix_of_prefix hshared hbegins with h | h
    · exact h
    · rcases List.prefix_concat_iff.mp h with heq | h
      · rw [heq]
      · exact absurd h (hroom hlt ⟨_, hok, hstatus⟩)

theorem Beside.same_of_quiet (h : Beside q b x memory fuel o)
    (hquiet : q.observer.Quiet memory (history o.ledger.events)) (hroom : q.config.maxEvals < b → ¬ o.Exhausted) :
    ∃ o', (q.unobserved b).minimizeWithin x () fuel = some o' ∧ o'.result = o.result ∧
      o'.ledger.events = o.ledger.events := by
  cases h with
  | same h hresult hevents => exact ⟨_, h, hresult, hevents⟩
  | stopped hlast ha => exact absurd (hlast ▸ List.prefix_rfl) (hquiet.not_begins ha)
  | exhausted hlt hok hstatus => exact absurd ⟨_, hok, hstatus⟩ (hroom hlt)

/-- An observer that answers nothing leaves a run as it is unobserved. -/
theorem unobserved_of_quiet (hquiet : ∀ events, q.observer.Quiet memory events) (x : Vector α n) (fuel : Nat) :
    Option.Rel (fun o o' => o'.result = o.result ∧ o'.ledger.events = o.ledger.events)
      (q.minimizeWithin x memory fuel) ((q.unobserved q.config.maxEvals).minimizeWithin x () fuel) := by
  cases ho : q.minimizeWithin x memory fuel with
  | some o =>
    obtain ⟨o', ho', hsame⟩ :=
      (beside (le_refl _) rfl ho).same_of_quiet (hquiet _) fun hlt => absurd hlt (lt_irrefl _)
    rw [ho']
    exact .some hsame
  | none =>
    cases ho' : (q.unobserved q.config.maxEvals).minimizeWithin x () fuel with
    | none => exact .none
    | some o' =>
      obtain ⟨o, hsome⟩ := exists_outcome_of_unobserved memory (le_refl _) rfl ho'
      cases ho.symm.trans hsome

/-- It is enough that the observer answers nothing of what the unobserved run shows. -/
theorem exists_same_result (hquiet : ∀ o', (q.unobserved q.config.maxEvals).minimizeWithin x () fuel = some o' →
      q.observer.Quiet memory (history o'.ledger.events)) {o' : Outcome α I O ε Unit n}
    (h : (q.unobserved q.config.maxEvals).minimizeWithin x () fuel = some o') :
    ∃ o, q.minimizeWithin x memory fuel = some o ∧ o.result = o'.result := by
  obtain ⟨o, ho⟩ := exists_outcome_of_unobserved memory (le_refl _) rfl h
  have hbeside := beside (le_refl _) rfl ho
  have hbegins := hbeside.begins
  rw [← history_of_minimizeWithin h] at hbegins
  have hsame : q.observer.Quiet memory (history o.ledger.events) := by
    obtain ⟨later, hlater⟩ := hbegins
    intro earlier event rest hsplit
    refine hquiet o' h earlier event (rest ++ later) ?_
    rw [← hlater, hsplit, List.append_assoc, List.cons_append]
  obtain ⟨o'', ho'', hresult, -⟩ := hbeside.same_of_quiet hsame fun hlt => absurd hlt (lt_irrefl _)
  cases h.symm.trans ho''
  exact ⟨o, ho, hresult.symm⟩

theorem history_begins (h : q.minimizeWithin x memory fuel = some o) :
    history o.ledger.events <+: o.ledger.events := by
  cases concluded h with
  | invalid => exact List.prefix_rfl
  | failed _ hbroken => rw [history_eq_self hbroken.truthful.unfinished]
  | solved _ hevents _ htruthful =>
    rw [hevents, history_concat_finished, history_eq_self htruthful.unfinished]
    exact List.prefix_append _ _

section
variable {τ : Type} {q' : Search α I O ε τ n m} {memory' : τ} {o' : Outcome α I O ε τ n} {fuel' : Nat}

/-- Both runs stand beside the one that is unobserved and has the greater budget. -/
theorem besides (hgrown : n + 1 ≤ q.config.maxEvals)
    (hbudget : q.config.maxEvals ≤ q'.config.maxEvals) (ho : q.minimizeWithin x memory fuel = some o)
    (ho' : q'.minimizeWithin x memory' fuel' = some o') :
    Beside q q'.config.maxEvals x memory (max fuel fuel') o ∧
      Beside q' q'.config.maxEvals x memory' (max fuel fuel') o' := by
  have hvalid : (q.unobserved q'.config.maxEvals).config.validateFor n = q.config.validateFor n := by
    have hroom : ¬ q.config.maxEvals < n + 1 := Nat.not_lt.mpr hgrown
    have hroom' : ¬ q'.config.maxEvals < n + 1 := Nat.not_lt.mpr (hgrown.trans hbudget)
    unfold Config.validateFor
    rw [if_neg hroom]
    exact congrArg (ite _ _) (if_neg hroom')
  exact ⟨beside hbudget hvalid (q.minimizeWithin_of_le x memory (Nat.le_max_left _ _) ho),
    beside (le_refl _) rfl (q'.minimizeWithin_of_le x memory' (Nat.le_max_right _ _) ho')⟩

/-- Runs that neither an observer nor a smaller budget cuts off agree to the end. -/
theorem Beside.agree (hshares : Shares q q') (h : Beside q b x memory fuel o) (h' : Beside q' b x memory' fuel o')
    (hquiet : q.observer.Quiet memory (history o.ledger.events))
    (hquiet' : q'.observer.Quiet memory' (history o'.ledger.events)) (hroom : q.config.maxEvals < b → ¬ o.Exhausted)
    (hroom' : q'.config.maxEvals < b → ¬ o'.Exhausted) :
    o.result = o'.result ∧ o.ledger.events = o'.ledger.events := by
  obtain ⟨p, hp, hresult, hevents⟩ := h.same_of_quiet hquiet hroom
  obtain ⟨p', hp', hresult', hevents'⟩ := h'.same_of_quiet hquiet' hroom'
  rw [hshares.unobserved_eq] at hp'
  cases hp.symm.trans hp'
  exact ⟨hresult.symm.trans hresult', hevents.symm.trans hevents'⟩

end

/-- Two runs that differ in their observers and budgets show the same events up to the first that either observer
answers or after which the smaller budget is found spent, and if there is none they agree to the end. So one that
its observer does not stop shows all that one with no greater budget shows, and an observer that answers nothing
changes no result. -/
theorem shown_until_cut (q : Search α I O ε σ n m) (x : Vector α n) (memory : σ) :
    (∀ (τ : Type) (q' : Search α I O ε τ n m) (memory' : τ), Shares q q' → n + 1 ≤ q.config.maxEvals →
      q.config.maxEvals ≤ q'.config.maxEvals → ∀ fuel fuel' o o', q.minimizeWithin x memory fuel = some o →
      q'.minimizeWithin x memory' fuel' = some o' →
      (∀ shared last, shared ++ [last] <+: history o.ledger.events → q'.observer.Quiet memory' shared →
        shared ++ [last] <+: history o'.ledger.events) ∧
      (∀ shared last, shared ++ [last] <+: history o'.ledger.events → q.observer.Quiet memory shared →
        (o.Exhausted → ¬ history o.ledger.events <+: shared) → shared ++ [last] <+: history o.ledger.events) ∧
      (q.observer.Quiet memory (history o.ledger.events) → q'.observer.Quiet memory' (history o'.ledger.events) →
        ¬ o.Exhausted ∨ q.config.maxEvals = q'.config.maxEvals →
        o.result = o'.result ∧ o.ledger.events = o'.ledger.events) ∧
      (q'.observer.Quiet memory' (history o'.ledger.events) → history o.ledger.events <+: o'.ledger.events)) ∧
    (∀ o, q.minimize x memory = some o → q.observer.Quiet memory (history o.ledger.events) →
      ∃ o', minimizeUnobserved q.model q.problem q.config x = some o' ∧ o'.result = o.result) ∧
    ∀ o', minimizeUnobserved q.model q.problem q.config x = some o' →
      q.observer.Quiet memory (history o'.ledger.events) →
      ∃ o, q.minimize x memory = some o ∧ o.result = o'.result := by
  refine ⟨fun τ q' memory' hshares hgrown hbudget fuel fuel' o o' ho ho' => ?_, fun o ho hquiet => ?_,
    fun o' ho' hquiet => exists_same_result ?_ ho'⟩
  · obtain ⟨h, h'⟩ := besides hgrown hbudget ho ho'
    have heq := hshares.unobserved_eq q'.config.maxEvals
    have hbegins := h'.begins
    rw [heq] at hbegins
    have hspent : ∀ {P : Prop}, q'.config.maxEvals < q'.config.maxEvals → P := fun hlt => absurd hlt (lt_irrefl _)
    refine ⟨fun shared last hshared hquiet => h'.reaches ?_ hquiet hspent,
      fun shared last hshared hquiet hroom => h.reaches (hshared.trans hbegins) hquiet fun _ => hroom,
      fun hquiet hquiet' hroom => h.agree hshares h' hquiet hquiet' (fun hlt => ?_) hspent, fun hquiet => ?_⟩
    · rw [heq]
      exact hshared.trans h.begins
    · exact hroom.resolve_right hlt.ne
    · obtain ⟨p, hp, -, hevents⟩ := h'.same_of_quiet hquiet hspent
      have hall := h.begins
      rw [← heq, ← history_of_minimizeWithin hp, hevents] at hall
      exact hall.trans (history_begins ho')
  · obtain ⟨o', ho', hresult, -⟩ := (beside (le_refl _) rfl ho).same_of_quiet hquiet fun hlt => absurd hlt (lt_irrefl _)
    exact ⟨o', ho', hresult⟩
  · intro o'' ho''
    cases ho'.symm.trans ho''
    exact hquiet

end

theorem quiet_unwatched (events : List (Event ℝ (Vector ℝ 1) Unit 1)) : unwatched.observer.Quiet () events :=
  fun _ _ _ _ => rfl

/-- The run that is stopped at its target shows what the one that is not shows first. -/
theorem shown_until_cut_targeted : ∃ o o' shared last first,
    Shares targeted unwatched ∧ targeted.minimizeWithin #v[0] () 4 = some o ∧
    unwatched.minimizeWithin #v[0] () 4 = some o' ∧ shared ++ [last] <+: history o.ledger.events ∧
    shared ++ [last] <+: history o'.ledger.events ∧ [] ++ [first] <+: history o.ledger.events ∧
    history o.ledger.events <+: o'.ledger.events ∧
    ∃ p p', unwatched.minimize #v[0] () = some p ∧
      minimizeUnobserved unwatched.model unwatched.problem unwatched.config #v[0] = some p' ∧ p'.result = p.result := by
  obtain ⟨r, ledger, hr, he, hlast⟩ := follow_targeted
  obtain ⟨r', e', hr', he', -⟩ := follow_cubic
  have ho := minimizeWithin_of_finish hr he
  have ho' := minimizeWithin_of_finish hr' he'
  have hshares : Shares targeted unwatched := ⟨rfl, rfl, rfl, rfl⟩
  obtain ⟨hagree, -⟩ := shown_until_cut targeted #v[0] ()
  obtain ⟨hforth, hback, -, hall⟩ := hagree Unit unwatched () hshares (by decide) (le_refl _) 4 4 _ _ ho ho'
  have hhistory := history_of_minimizeWithin ho
  have hshown : targeted.shownWithin #v[0] () 4 = ledger.events := by
    unfold shownWithin
    rw [hr]
    dsimp only
    rw [he]
    rfl
  obtain ⟨shared, last, hconcat⟩ : ∃ shared last, ledger.events = shared ++ [last] := by
    rcases List.eq_nil_or_concat ledger.events with hnil | ⟨shared, last, hconcat⟩
    · rw [hnil] at hlast
      cases hlast
    · exact ⟨shared, last, by rw [hconcat, List.concat_eq_append]⟩
  have hshared : shared ++ [last] <+: history (targeted.finish (cubicState 1 ledger) .stoppedByObserver).2.events := by
    rw [hhistory, hshown, hconcat]
  have hreached := hforth shared last hshared (quiet_unwatched shared)
  obtain ⟨first, hfirst⟩ : ∃ first, [] ++ [first] <+: shared ++ [last] := by
    cases shared with
    | nil => exact ⟨last, List.prefix_rfl⟩
    | cons first rest => exact ⟨first, List.prefix_append [first] (rest ++ [last])⟩
  have henough : 4 ≤ unwatched.fuel := by
    show 4 ≤ (3 * 1 + 4) * (100 + doubleCount)
    omega
  have hp := unwatched.minimizeWithin_of_le #v[0] () henough ho'
  obtain ⟨p', hp', hresult⟩ := (shown_until_cut unwatched #v[0] ()).2.1 _ hp (quiet_unwatched _)
  refine ⟨_, _, shared, last, first, hshares, ho, ho', hshared, hreached, ?_, hall (quiet_unwatched _), _, p', hp, hp',
    hresult⟩
  refine hback [] first (hfirst.trans hreached) atEach_nil ?_
  rintro ⟨solution, hok, hstatus⟩
  cases hok
  cases hstatus

end Search

end TrustSimplex
