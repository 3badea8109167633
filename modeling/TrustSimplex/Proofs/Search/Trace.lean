import TrustSimplex.Proofs.Search.Solution

/-!
# The trace of a run

Whatever the arithmetic returns, the events of a run stand in one order. The evaluations are numbered, the
first of them grow the simplex with nothing in between, and the end is announced once and last. A run counts
what it attempted, keeps to its budget, and ends for the observer exactly at the event that the observer
answers.
-/

namespace TrustSimplex

/-! ## What holds at each event -/

section
variable {β : Type} {R : List β → β → Prop} {events earlier later : List β} {e event : β}

def AtEach (R : List β → β → Prop) (events : List β) : Prop :=
  ∀ earlier event later, events = earlier ++ event :: later → R earlier event

theorem split_concat (h : events ++ [e] = earlier ++ event :: later) :
    (later = [] ∧ events = earlier ∧ e = event) ∨ ∃ rest, events = earlier ++ event :: rest := by
  rcases List.eq_nil_or_concat later with rfl | ⟨rest, z, rfl⟩
  · obtain ⟨hevents, he⟩ := List.append_inj' h rfl
    exact Or.inl ⟨rfl, hevents, List.singleton_inj.mp he⟩
  · rw [List.concat_eq_append, ← List.cons_append, ← List.append_assoc] at h
    exact Or.inr ⟨rest, (List.append_inj' h rfl).1⟩

theorem atEach_nil : AtEach R [] := by
  intro earlier event later h
  exact absurd h.symm (by simp)

theorem AtEach.concat (h : AtEach R events) (he : R events e) : AtEach R (events ++ [e]) := by
  intro earlier event later hsplit
  rcases split_concat hsplit with ⟨-, rfl, rfl⟩ | ⟨rest, hrest⟩
  · exact he
  · exact h earlier event rest hrest

end

/-! ## The answers of an observer -/

namespace Observer

variable {β A σ : Type}

def memoryAfter (o : Observer β A σ) (memory : σ) (events : List β) : σ :=
  events.foldl (fun memory e => (o.observe memory e).2) memory

def answerTo (o : Observer β A σ) (memory : σ) (earlier : List β) (event : β) : Option A :=
  (o.observe (o.memoryAfter memory earlier) event).1

theorem memoryAfter_concat (o : Observer β A σ) (memory : σ) (events : List β) (e : β) :
    o.memoryAfter memory (events ++ [e]) = (o.observe (o.memoryAfter memory events) e).2 := by
  simp [memoryAfter]

def Quiet (o : Observer β A σ) (memory : σ) (events : List β) : Prop :=
  AtEach (fun earlier event => o.answerTo memory earlier event = none) events

end Observer

section
variable {α I O : Type} {n : Nat}

/-! ## The order of events -/

def Event.isEvaluated : Event α I O n → Bool
  | evaluated .. => true
  | penaltyIncreased _ => false
  | radiusReduced .. => false
  | finished .. => false

def evaluations (events : List (Event α I O n)) : Nat := events.countP Event.isEvaluated

/-- What may be shown after `earlier` as long as the run goes on: an evaluation with its number, initial if it
is one of the first `n + 1`, and all else once these are made. -/
def Event.Follows (earlier : List (Event α I O n)) : Event α I O n → Prop
  | evaluated evals kind _ _ => evals = evaluations earlier + 1 ∧ (kind = .initial ↔ evals ≤ n + 1)
  | penaltyIncreased _ => n + 1 ≤ evaluations earlier
  | radiusReduced _ _ evals _ => n + 1 ≤ evaluations earlier ∧ evals = evaluations earlier
  | finished .. => False

theorem evaluations_concat (events : List (Event α I O n)) (e : Event α I O n) :
    evaluations (events ++ [e]) = evaluations events + if e.isEvaluated then 1 else 0 := by
  unfold evaluations
  rw [List.countP_append, List.countP_singleton]

variable {events : List (Event α I O n)}

/-- The first events of a trace in order are the initial evaluations. -/
theorem initial_of_follows (h : AtEach Event.Follows events) :
    ∀ i ≤ min (n + 1) (evaluations events), evaluations (events.take i) = i ∧
      ∀ k < i, ∃ p snapshot, events[k]? = some (.evaluated (k + 1) .initial p snapshot)
  | 0, _ => ⟨rfl, nofun⟩
  | i + 1, hi => by
    obtain ⟨hcount, hinitial⟩ := initial_of_follows h i (Nat.le_of_succ_le hi)
    have hfirst : i < n + 1 := hi.trans (min_le_left _ _)
    have hlength : i < events.length := (hi.trans (min_le_right _ _)).trans List.countP_le_length
    have htake : events.take (i + 1) = events.take i ++ [events[i]] := (List.take_append_getElem hlength).symm
    have hfollows : events[i].Follows (events.take i) := by
      refine h _ _ (events.drop (i + 1)) ?_
      rw [← List.drop_eq_getElem_cons hlength, List.take_append_drop]
    rw [htake, evaluations_concat, hcount]
    cases he : events[i] with
    | evaluated evals kind p snapshot =>
      rw [he] at hfollows
      obtain ⟨rfl, hkind⟩ := hfollows
      rw [hcount] at hkind
      refine ⟨rfl, fun k hk => ?_⟩
      rcases Nat.lt_succ_iff_lt_or_eq.mp hk with hlt | rfl
      · exact hinitial k hlt
      · refine ⟨p, snapshot, ?_⟩
        rw [List.getElem?_eq_getElem hlength, he, hcount, hkind.mpr hfirst]
    | penaltyIncreased penalty =>
      rw [he] at hfollows
      have hlate : n + 1 ≤ evaluations (events.take i) := hfollows
      omega
    | radiusReduced radius penalty evals best =>
      rw [he] at hfollows
      have hlate : n + 1 ≤ evaluations (events.take i) := hfollows.1
      omega
    | finished status evals best =>
      rw [he] at hfollows
      exact hfollows.elim

theorem not_mem_of_follows (h : AtEach Event.Follows events) (status : Status) (evals : Nat) (best : Point α n) :
    Event.finished status evals best ∉ events := by
  intro hmem
  obtain ⟨earlier, later, hsplit⟩ := List.append_of_mem hmem
  exact h earlier _ later hsplit

end

namespace Search

section
variable {α I O ε σ : Type} [Scalar α] {n m : Nat} {q : Search α I O ε σ n m} {memory : σ}
variable {s : State α I O σ n m} {l l' : Ledger α I O σ n} {x : Vector α n} {event : Event α I O n}
variable {answer : Option Action}

/-! ## Ledgers -/

structure Accounted (q : Search α I O ε σ n m) (memory : σ) (l : Ledger α I O σ n) : Prop where
  follows : AtEach Event.Follows l.events
  evals : l.evals = evaluations l.events
  attempts : l.attempts.length = l.evals
  memory : l.memory = q.observer.memoryAfter memory l.events
  budget : l.evals ≤ q.config.maxEvals

theorem Accounted.announced (h : Accounted q memory l) (ha : l.Announced q.observer event answer l')
    (hevent : event.Follows l.events) (hkind : event.isEvaluated = false) :
    Accounted q memory l' ∧ q.observer.answerTo memory l.events event = answer := by
  have hobserved := ha.observed
  rw [h.memory] at hobserved
  refine ⟨⟨?_, ?_, ?_, ?_, ha.evals ▸ h.budget⟩, congrArg Prod.fst hobserved⟩
  · rw [ha.events]
    exact h.follows.concat hevent
  · rw [ha.evals, ha.events, evaluations_concat, hkind, h.evals]
    rfl
  · rw [ha.attempts, ha.evals, h.attempts]
  · rw [ha.events, Observer.memoryAfter_concat, hobserved]

theorem Accounted.probed {kind : Probe} {r : Sample α (Snapshot I O) m} (h : Accounted q memory l)
    (hp : Probed q l x kind r answer l') (hbudget : l.evals < q.config.maxEvals)
    (hkind : kind = .initial ↔ l.evals < n + 1) :
    Accounted q memory l' ∧ q.observer.answerTo memory l.events (evaluatedAt l'.evals kind x r) = answer := by
  have hobserved := hp.observed
  rw [h.memory] at hobserved
  refine ⟨⟨?_, ?_, ?_, ?_, hp.evals ▸ hbudget⟩, congrArg Prod.fst hobserved⟩
  · rw [hp.events]
    refine h.follows.concat ⟨?_, hkind.trans ?_⟩
    · rw [hp.evals, h.evals]
    · rw [hp.evals]
      exact Iff.rfl
  · rw [hp.evals, hp.events, evaluations_concat, h.evals]
    rfl
  · rw [hp.attempts, hp.evals, List.length_append, h.attempts]
    rfl
  · rw [hp.events, Observer.memoryAfter_concat, hobserved]

structure Running (q : Search α I O ε σ n m) (memory : σ) (l : Ledger α I O σ n) : Prop where
  accounted : Accounted q memory l
  grown : n + 1 ≤ l.evals
  quiet : q.observer.Quiet memory l.events

inductive Ended (q : Search α I O ε σ n m) (memory : σ) : Status → List (Event α I O n) → Prop
  | stopped {earlier : List (Event α I O n)} {event : Event α I O n} (hquiet : q.observer.Quiet memory earlier)
      (ha : q.observer.answerTo memory earlier event = some .stopEarly) :
      Ended q memory .stoppedByObserver (earlier ++ [event])
  | unstopped {status : Status} {events : List (Event α I O n)} (hquiet : q.observer.Quiet memory events)
      (hstatus : status ≠ .stoppedByObserver) : Ended q memory status events

theorem Ended.stopped_iff {status : Status} {events : List (Event α I O n)} (h : Ended q memory status events) :
    status = .stoppedByObserver ↔ ∃ earlier event later, events = earlier ++ event :: later ∧
      q.observer.answerTo memory earlier event = some .stopEarly := by
  cases h with
  | stopped hquiet ha => exact iff_of_true rfl ⟨_, _, [], rfl, ha⟩
  | unstopped hquiet hstatus =>
    refine iff_of_false hstatus ?_
    rintro ⟨earlier, event, later, hsplit, ha⟩
    cases ha.symm.trans (hquiet earlier event later hsplit)

theorem Ended.last {status : Status} {events earlier later : List (Event α I O n)}
    (h : Ended q memory status events) (hsplit : events = earlier ++ event :: later)
    (ha : q.observer.answerTo memory earlier event = some .stopEarly) : later = [] := by
  have hquiet : ∀ {events rest}, q.observer.Quiet memory events → events ≠ earlier ++ event :: rest := by
    intro events rest hquiet hrest
    cases ha.symm.trans (hquiet earlier event rest hrest)
  cases h with
  | stopped hearlier =>
    rcases split_concat hsplit with ⟨hlater, -, -⟩ | ⟨rest, hrest⟩
    · exact hlater
    · exact absurd hrest (hquiet hearlier)
  | unstopped hevents => exact absurd hsplit (hquiet hevents)

/-! ## The phases -/

def Traced (q : Search α I O ε σ n m) (memory : σ) : Phase α ε n → Ledger α I O σ n → Prop
  | .selectBest, l => Running q memory l
  | .shrinkRadius, l => Running q memory l
  | .finish status, l => Accounted q memory l ∧ (status = .maxEvals → l.evals = q.config.maxEvals) ∧
      Ended q memory status l.events
  | .failed _, l => l.attempts.length ≤ q.config.maxEvals
  | .unresolved, l => l.attempts.length ≤ q.config.maxEvals

theorem Running.unstopped (h : Running q memory l) {status : Status}
    (hspent : status = .maxEvals → l.evals = q.config.maxEvals) (hstatus : status ≠ .stoppedByObserver) :
    Traced q memory (.finish status) l :=
  ⟨h.accounted, hspent, .unstopped h.quiet hstatus⟩

theorem Running.announced (h : Running q memory l) (ha : l.announce q.observer event = (none, l'))
    (hevent : event.Follows l.events) (hkind : event.isEvaluated = false) : Running q memory l' := by
  have hannounced := Ledger.announced ha
  obtain ⟨haccounted, hanswer⟩ := h.accounted.announced hannounced hevent hkind
  refine ⟨haccounted, hannounced.evals ▸ h.grown, ?_⟩
  rw [hannounced.events]
  exact h.quiet.concat hanswer

theorem Running.halted (h : Running q memory l) (ha : l.announce q.observer event = (some .stopEarly, l'))
    (hevent : event.Follows l.events) (hkind : event.isEvaluated = false) :
    Traced q memory (.finish .stoppedByObserver) l' := by
  have hannounced := Ledger.announced ha
  obtain ⟨haccounted, hanswer⟩ := h.accounted.announced hannounced hevent hkind
  refine ⟨haccounted, nofun, ?_⟩
  rw [hannounced.events]
  exact .stopped h.quiet hanswer

theorem Running.inaccurate (h : Running q memory l) (error : α) (evals : Nat) :
    Running q memory (l.add (.inaccurate error evals)) := by
  have hevents := l.events_add_inaccurate error evals
  have hattempts := l.attempts_add_inaccurate error evals
  obtain ⟨⟨hfollows, hevals, hlength, hmemory, hbudget⟩, hgrown, hquiet⟩ := h
  refine ⟨⟨?_, ?_, ?_, ?_, hbudget⟩, hgrown, ?_⟩
  · rw [hevents]
    exact hfollows
  · rw [hevents]
    exact hevals
  · rw [hattempts]
    exact hlength
  · rw [hevents]
    exact hmemory
  · rw [hevents]
    exact hquiet

theorem Accounted.attempts_le (h : Accounted q memory l) : l.attempts.length ≤ q.config.maxEvals :=
  h.attempts.trans_le h.budget

theorem Accounted.attempts_of_error {kind : Probe} {cause : Failure α ε n} (h : Accounted q memory l)
    (hp : q.probe l x kind = (.error cause, l')) (hbudget : l.evals < q.config.maxEvals) :
    l'.attempts.length ≤ q.config.maxEvals := by
  rw [ledger_of_probe_error hp, Ledger.attempts_add_attempted, List.length_append, h.attempts]
  exact hbudget

theorem traced_stopped {kind : Probe} {r : Sample α (Snapshot I O) m} (h : Accounted q memory l)
    (hquiet : q.observer.Quiet memory l.events) (hp : Probed q l x kind r (some .stopEarly) l')
    (hbudget : l.evals < q.config.maxEvals) (hkind : kind = .initial ↔ l.evals < n + 1) :
    Traced q memory (.finish .stoppedByObserver) l' := by
  obtain ⟨haccounted, hanswer⟩ := h.probed hp hbudget hkind
  refine ⟨haccounted, nofun, ?_⟩
  rw [hp.events]
  exact .stopped hquiet hanswer

theorem Running.attempted {kind : Probe} {out : Phase α ε n × State α I O σ n m}
    {next : Sample α (Snapshot I O) m → Ledger α I O σ n → Phase α ε n × State α I O σ n m}
    (ho : Attempted q s x kind next out) (h : Running q memory s.ledger) (hkind : kind ≠ .initial)
    (hnext : ∀ sample ledger, Running q memory ledger →
      Traced q memory (next sample ledger).1 (next sample ledger).2.ledger) :
    Traced q memory out.1 out.2.ledger := by
  have hlate : kind = .initial ↔ s.ledger.evals < n + 1 := iff_of_false hkind h.grown.not_gt
  cases ho with
  | exhausted hspent =>
    have hle : q.config.maxEvals ≤ s.ledger.evals := not_lt.mp (of_decide_eq_false hspent)
    exact h.unstopped (fun _ => le_antisymm h.accounted.budget hle) nofun
  | failed hp hbudget => exact h.accounted.attempts_of_error hp (of_decide_eq_true hbudget)
  | stopped hp hbudget =>
    exact traced_stopped h.accounted h.quiet (probed hp) (of_decide_eq_true hbudget) hlate
  | @evaluated sample ledger hp hbudget =>
    obtain ⟨haccounted, hanswer⟩ := h.accounted.probed (probed hp) (of_decide_eq_true hbudget) hlate
    refine hnext sample ledger ⟨haccounted, ?_, ?_⟩
    · rw [(probed hp).evals]
      exact h.grown.trans (Nat.le_succ _)
    · rw [(probed hp).events]
      exact h.quiet.concat hanswer

theorem traced_accepted {g : Geometry α n} {step : Vector α n} {p : Prediction α} {r : Sample α (Snapshot I O) m}
    {out : Phase α ε n × State α I O σ n m} (h : Running q memory s.ledger) (ho : Accepted s g step p r out) :
    Traced q memory out.1 out.2.ledger := by
  cases ho with
  | dropped => exact h
  | gained => exact h
  | stored => exact h

theorem traced_iterated {fuel : Nat} {out : Phase α ε n × State α I O σ n m} (h : Running q memory s.ledger)
    (ho : Iterated q s fuel out) : Traced q memory out.1 out.2.ledger := by
  have hlate : n + 1 ≤ evaluations s.ledger.events := h.accounted.evals ▸ h.grown
  cases ho with
  | inaccurate =>
    exact (h.inaccurate _ _).unstopped nofun nofun
  | repaired _ _ ha => exact h.attempted ha nofun fun _ _ hl => hl
  | unresolved => exact h.accounted.attempts_le
  | tooShort => exact h
  | stepped _ _ hstepped =>
    cases hstepped with
    | halted _ ha => exact h.halted ha hlate rfl
    | overtaken _ ha => exact h.announced ha hlate rfl
    | @tried w _ hw ha =>
      have hready : Running q memory w.ledger := by
        cases hw with
        | kept => exact h
        | raised _ hshown _ => exact h.announced hshown hlate rfl
      exact hready.attempted ha nofun fun sample ledger hl =>
        traced_accepted (s := { w with repairArmed := false, ledger }) hl (accepted _ _ _ _ _)

theorem traced_shrunk {out : Phase α ε n × State α I O σ n m} (h : Running q memory s.ledger)
    (ho : Shrunk q s out) : Traced q memory out.1 out.2.ledger := by
  have hlate : n + 1 ≤ evaluations s.ledger.events := h.accounted.evals ▸ h.grown
  cases ho with
  | rearmed => exact h
  | converged => exact h.unstopped nofun nofun
  | halted _ _ ha => exact h.halted ha ⟨hlate, h.accounted.evals⟩ rfl
  | reduced _ _ ha => exact h.announced ha ⟨hlate, h.accounted.evals⟩ rfl

/-! ## The first simplex -/

structure Planted (q : Search α I O ε σ n m) (memory : σ) (s : State α I O σ n m) : Prop where
  accounted : Accounted q memory s.ledger
  evals : s.ledger.evals = s.simplex.others.size + 1
  quiet : q.observer.Quiet memory s.ledger.events

theorem accounted_start (q : Search α I O ε σ n m) (memory : σ) : Accounted q memory (.start memory) :=
  ⟨atEach_nil, rfl, rfl, rfl, Nat.zero_le _⟩

theorem traced_start {run : Run α I O ε σ n m} (h : q.start x memory = .ok run) :
    Traced q memory run.phase run.state.ledger := by
  have hbudget := (budget_of_start h).2
  have hfirst : ∀ {first ledger}, q.probe (.start memory) x .initial = (.ok (first, none), ledger) →
      Planted q memory (q.firstState x first ledger) := by
    intro first ledger hp
    obtain ⟨haccounted, hanswer⟩ := (accounted_start q memory).probed (probed hp)
      (Nat.lt_of_lt_of_le (Nat.succ_pos n) hbudget) (iff_of_true rfl (Nat.succ_pos n))
    refine ⟨haccounted, (probed hp).evals, ?_⟩
    show q.observer.Quiet memory ledger.events
    rw [(probed hp).events]
    exact atEach_nil.concat hanswer
  have hextend : ∀ {s sample ledger}, Planted q memory s → s.simplex.isBuilding = true →
      q.probe s.ledger s.simplex.nextInitial .initial = (.ok (sample, none), ledger) →
      Planted q memory { s with ledger, simplex := s.simplex.extend sample } := by
    intro s sample ledger hs hbuilding hp
    have hn : s.simplex.others.size < n := of_decide_eq_true hbuilding
    have hevals := hs.evals
    obtain ⟨haccounted, hanswer⟩ := hs.accounted.probed (probed hp) (by omega) (iff_of_true rfl (by omega))
    refine ⟨haccounted, ?_, ?_⟩
    · show ledger.evals = (s.simplex.extend sample).others.size + 1
      rw [(probed hp).evals, Simplex.size_others_extend, hevals]
    · show q.observer.Quiet memory ledger.events
      rw [(probed hp).events]
      exact hs.quiet.concat hanswer
  have hstarted : Started q x memory (Planted q memory) run := started hfirst hextend h
  cases hstarted with
  | stopped hp =>
    exact traced_stopped (accounted_start q memory) atEach_nil (probed hp)
      (Nat.lt_of_lt_of_le (Nat.succ_pos n) hbudget) (iff_of_true rfl (Nat.succ_pos n))
  | built hbuilt =>
    cases hbuilt with
    | failed hs hbuilding hp =>
      have hn := of_decide_eq_true hbuilding
      have hevals := hs.evals
      exact hs.accounted.attempts_of_error hp (by omega)
    | stopped hs hbuilding hp =>
      have hn := of_decide_eq_true hbuilding
      have hevals := hs.evals
      exact traced_stopped hs.accounted hs.quiet (probed hp) (by omega) (iff_of_true rfl (by omega))
    | complete hs hfull => exact ⟨hs.accounted, (hs.evals.trans (congrArg (· + 1) hfull)).ge, hs.quiet⟩

theorem traced_follow {run : Run α I O ε σ n m} (h : q.start x memory = .ok run) (fuel count : Nat) :
    Traced q memory (q.follow fuel run count).phase (q.follow fuel run count).state.ledger :=
  follow_invariant (P := fun phase s => Traced q memory phase s.ledger)
    (fun s hs => traced_iterated hs (iterated s fuel)) (fun s hs => traced_shrunk hs (shrunk s)) count
    (traced_start h)

/-! ## The whole trace -/

/-- The ledger `l` of a run that ended with a solution shows `history` and the end after it. -/
structure IsTrace (q : Search α I O ε σ n m) (memory : σ) (solution : Solution α I O n) (l : Ledger α I O σ n)
    (history : List (Event α I O n)) : Prop where
  events : l.events = history ++ [.finished solution.status solution.evals solution.point]
  unfinished : ∀ status evals best, Event.finished status evals best ∉ history
  -- the numbers of the evaluations, their kinds and the counts that the reductions of the radius show
  follows : ∀ earlier event later, history = earlier ++ event :: later → event.Follows earlier
  initial : ∀ i < min (n + 1) solution.evals,
    ∃ p snapshot, history[i]? = some (.evaluated (i + 1) .initial p snapshot)
  evals : solution.evals = evaluations history
  attempts : solution.evals = l.attempts.length
  budget : solution.evals ≤ q.config.maxEvals
  spent : solution.status = .maxEvals → solution.evals = q.config.maxEvals
  stopped_iff : solution.status = .stoppedByObserver ↔ ∃ earlier event later,
    history = earlier ++ event :: later ∧ q.observer.answerTo memory earlier event = some .stopEarly
  stopped_last : ∀ earlier event later, history = earlier ++ event :: later →
    q.observer.answerTo memory earlier event = some .stopEarly → later = []

/-- A run that ends with a solution shows its evaluations in order, the initial ones first, and its end once
and last. It attempts what it counts, within its budget, and is stopped exactly at the event that the observer
answers. -/
theorem isTrace_of_minimizeWithin {fuel : Nat} {o : Outcome α I O ε σ n} {solution : Solution α I O n}
    (h : q.minimizeWithin x memory fuel = some o) (hok : o.result = .ok solution) :
    ∃ history, IsTrace q memory solution o.ledger history := by
  obtain ⟨r, e, hr, he, hfinished⟩ := finished_of_minimizeWithin h hok
  have htraced := traced_follow hr fuel fuel
  rw [he] at htraced
  obtain ⟨haccounted, hspent, hended⟩ := htraced
  have hevals : solution.evals = evaluations e.ledger.events := hfinished.evals.trans haccounted.evals
  refine ⟨e.ledger.events, hfinished.events, not_mem_of_follows haccounted.follows, haccounted.follows, ?_, hevals,
    ?_, ?_, ?_, hended.stopped_iff, fun _ _ _ hsplit ha => hended.last hsplit ha⟩
  · rw [hevals]
    exact (initial_of_follows haccounted.follows _ (le_refl _)).2
  · rw [hfinished.attempts, hfinished.evals]
    exact haccounted.attempts.symm
  · rw [hfinished.evals]
    exact haccounted.budget
  · rw [hfinished.evals]
    exact hspent

end

theorem isTrace_of_minimizeWithin_cubic : ∃ o solution, unwatched.minimizeWithin #v[0] () 4 = some o ∧
    o.result = .ok solution ∧ ∃ history, IsTrace unwatched () solution o.ledger history := by
  obtain ⟨r, e, hr, he, -⟩ := follow_cubic
  have ho := minimizeWithin_of_finish hr he
  exact ⟨_, _, ho, rfl, isTrace_of_minimizeWithin ho rfl⟩

end Search

end TrustSimplex
