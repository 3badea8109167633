import TrustSimplex.Proofs.Search.Attribution
import TrustSimplex.Proofs.Search.Radii

/-!
# Where a selection evaluates

A selection evaluates at one point at most, a step away from the pole of a state that it has prepared: the pole
was chosen, the vertex that a repair moves was moved, or the penalty was raised for the trial. Every evaluation
of a run after those of the first simplex is made in such a state.
-/

namespace TrustSimplex

section
variable {β : Type} {R : List β → β → Prop} {events new : List β}

theorem AtEach.append (h : AtEach R events) (hnew : ∀ earlier, ∀ e ∈ new, R earlier e) :
    AtEach R (events ++ new) := by
  induction new generalizing events with
  | nil => rwa [List.append_nil]
  | cons e new ih =>
    rw [List.append_cons]
    exact ih (h.concat (hnew events e List.mem_cons_self)) fun earlier e' he' =>
      hnew earlier e' (List.mem_cons_of_mem e he')

end

namespace Search

section
variable {K I O ε σ : Type} [EuclideanField K] {n m : Nat} {q : Search K I O ε σ n m}
variable {s t w : State K I O σ n m} {x step : Vector K n} {memory : σ} {r : Run K I O ε σ n m} {fuel : Nat}
variable {kind : Probe} {out : Phase K ε n × State K I O σ n m}

/-! ## Prepared states -/

inductive Readied (q : Search K I O ε σ n m) (s : State K I O σ n m) (fuel : Nat) :
    Probe → Vector K n → State K I O σ n m → Prop
  | repair {j : Fin n} {step : Vector K n} (hj : s.vertexInRepair? = some j)
      (hstep : step =
        s.surveyed.simplex.repairStep s.surveyed.geometry j s.surveyed.simplex.linearize s.penalty) :
      Readied q s fuel .geometry step { s.surveyed with simplex := s.surveyed.simplex.replace j step }
  | trial {step : Step K n} {w : State K I O σ n m}
      (hstep : s.surveyed.simplex.linearize.solveWithin s.radius fuel = some step)
      (hlong : isTooShort s.radius step = false)
      (hw : Weighed q s.surveyed (predict s.surveyed s.surveyed.simplex.linearize step.move) w) :
      Readied q s fuel .trial step.move { w with repairArmed := false }

theorem Weighed.simplex {p : Prediction K} (h : Weighed q s p w) : w.simplex = s.simplex := by
  cases h <;> rfl

theorem Weighed.attempts {p : Prediction K} (h : Weighed q s p w) : w.ledger.attempts = s.ledger.attempts := by
  cases h with
  | kept => rfl
  | raised _ ha => exact (Ledger.announced ha).attempts

theorem Readied.steady (h : Readied q s fuel kind step w) : Steady s w := by
  cases h with
  | repair => exact .of_events rfl rfl
  | trial _ _ hw => exact steady_weighed hw

theorem Readied.attempts (h : Readied q s fuel kind step w) : w.ledger.attempts = s.ledger.attempts := by
  cases h with
  | repair => rfl
  | trial _ _ hw => exact hw.attempts

theorem Readied.events (h : Readied q s fuel kind step w) :
    ∃ new, w.ledger.events = s.ledger.events ++ new ∧ ∀ e ∈ new, e.isEvaluated = false := by
  cases h with
  | repair => exact ⟨[], (List.append_nil _).symm, nofun⟩
  | trial _ _ hw =>
    cases hw with
    | kept => exact ⟨[], (List.append_nil _).symm, nofun⟩
    | raised _ ha =>
      refine ⟨_, (Ledger.announced ha).events, fun e he => ?_⟩
      rw [List.mem_singleton.mp he]
      rfl

/-! ## The evaluation of a selection -/

inductive Asked (q : Search K I O ε σ n m) (s : State K I O σ n m) (fuel : Nat) :
    Phase K ε n × State K I O σ n m → Prop
  | nothing {out : Phase K ε n × State K I O σ n m} (hattempts : out.2.ledger.attempts = s.ledger.attempts)
      (hevents : ∃ new, out.2.ledger.events = s.ledger.events ++ new ∧ ∀ e ∈ new, e.isEvaluated = false) :
      Asked q s fuel out
  | something {kind : Probe} {step : Vector K n} {w : State K I O σ n m}
      {next : Sample K (Snapshot I O) m → Ledger K I O σ n → Phase K ε n × State K I O σ n m}
      {out : Phase K ε n × State K I O σ n m} (hw : Readied q s fuel kind step w)
      (ha : Attempted q w (w.simplex.offset step) kind next out)
      (hnext : ∀ sample ledger, (next sample ledger).2.ledger = ledger) : Asked q s fuel out

theorem asked_iterated (ho : Iterated q s fuel out) : Asked q s fuel out := by
  have hraised : ∀ {penalty : K} {answer : Option Action} {ledger : Ledger K I O σ n},
      s.ledger.announce q.observer (.penaltyIncreased penalty) = (answer, ledger) →
      ledger.attempts = s.ledger.attempts ∧
        ∃ new, ledger.events = s.ledger.events ++ new ∧ ∀ e ∈ new, e.isEvaluated = false := by
    intro penalty answer ledger ha
    refine ⟨(Ledger.announced ha).attempts, _, (Ledger.announced ha).events, fun e he => ?_⟩
    rw [List.mem_singleton.mp he]
    rfl
  cases ho with
  | inaccurate =>
    exact .nothing (Ledger.attempts_add_inaccurate ..)
      ⟨[], (Ledger.events_add_inaccurate ..).trans (List.append_nil _).symm, nofun⟩
  | repaired hj hstep ha => exact .something (.repair hj hstep) ha fun _ _ => rfl
  | unresolved => exact .nothing rfl ⟨[], (List.append_nil _).symm, nofun⟩
  | tooShort => exact .nothing rfl ⟨[], (List.append_nil _).symm, nofun⟩
  | stepped hstep hlong hstepped =>
    cases hstepped with
    | halted _ ha => exact .nothing (hraised ha).1 (hraised ha).2
    | overtaken _ ha => exact .nothing (hraised ha).1 (hraised ha).2
    | tried hw ha => exact .something (.trial hstep hlong hw) ha fun _ _ => (judged_accept (ε := ε) ..).ledger

section
variable {next : Sample K (Snapshot I O) m → Ledger K I O σ n → Phase K ε n × State K I O σ n m}

theorem Attempted.attempts (ha : Attempted q w x kind next out)
    (hnext : ∀ sample ledger, (next sample ledger).2.ledger = ledger) :
    out.2.ledger.attempts = w.ledger.attempts ∨ out.2.ledger.attempts = w.ledger.attempts ++ [x] := by
  cases ha with
  | exhausted => exact Or.inl rfl
  | failed hp =>
    refine Or.inr ?_
    show Ledger.attempts _ = _
    rw [ledger_of_probe_error hp, Ledger.attempts_add_attempted]
  | stopped hp => exact Or.inr (probed hp).attempts
  | evaluated hp => exact Or.inr ((congrArg Ledger.attempts (hnext _ _)).trans (probed hp).attempts)

theorem Attempted.events (ha : Attempted q w x kind next out)
    (hnext : ∀ sample ledger, (next sample ledger).2.ledger = ledger) :
    out.2.ledger.events = w.ledger.events ∨
      ∃ (evals : Nat) (sample : Sample K (Snapshot I O) m),
        out.2.ledger.events = w.ledger.events ++ [evaluatedAt evals kind x sample] := by
  cases ha with
  | exhausted => exact Or.inl rfl
  | failed hp => exact Or.inl (events_of_probe_error hp)
  | stopped hp => exact Or.inr ⟨_, _, (probed hp).events⟩
  | evaluated hp => exact Or.inr ⟨_, _, (congrArg Ledger.events (hnext _ _)).trans (probed hp).events⟩

end

theorem attempts_iterate (s : State K I O σ n m) (fuel : Nat) :
    (q.iterate s fuel).2.ledger.attempts = s.ledger.attempts ∨ ∃ kind step w, Readied q s fuel kind step w ∧
      (q.iterate s fuel).2.ledger.attempts = s.ledger.attempts ++ [w.simplex.offset step] := by
  have ho : Asked q s fuel (q.iterate s fuel) := asked_iterated (iterated s fuel)
  cases ho with
  | nothing hattempts => exact Or.inl hattempts
  | something hw ha hnext =>
    rcases ha.attempts hnext with hsame | hmore
    · exact Or.inl (hsame.trans hw.attempts)
    · exact Or.inr ⟨_, _, _, hw, hmore.trans (congrArg (· ++ _) hw.attempts)⟩

theorem initial_mem_iterated (ho : Iterated q s fuel out) {evals : Nat} {p : Point K n} {snapshot : Snapshot I O}
    (h : Event.evaluated evals .initial p snapshot ∈ out.2.ledger.events) :
    Event.evaluated evals .initial p snapshot ∈ s.ledger.events := by
  have hold : ∀ {new : List (Event K I O n)}, (∀ e ∈ new, e.isEvaluated = false) →
      Event.evaluated evals .initial p snapshot ∈ s.ledger.events ++ new →
      Event.evaluated evals .initial p snapshot ∈ s.ledger.events := by
    intro new hnone hmem
    rcases List.mem_append.mp hmem with hmem | hmem
    · exact hmem
    · cases hnone _ hmem
  have ho : Asked q s fuel out := asked_iterated ho
  cases ho with
  | nothing _ hevents =>
    obtain ⟨new, hnew, hnone⟩ := hevents
    exact hold hnone (hnew ▸ h)
  | @something kind _ w _ _ hw ha hnext =>
    obtain ⟨new, hnew, hnone⟩ := hw.events
    have hkind : kind ≠ .initial := by cases hw <;> exact nofun
    have hw : Event.evaluated evals .initial p snapshot ∈ w.ledger.events := by
      rcases ha.events hnext with hsame | ⟨evals', sample, hmore⟩
      · exact hsame ▸ h
      · rcases List.mem_append.mp (hmore ▸ h) with hmem | hmem
        · exact hmem
        · cases List.mem_singleton.mp hmem
          exact absurd rfl hkind
    exact hold hnone (hnew ▸ hw)

/-! ## The pole that a selection leaves -/

theorem Accepted.poleSample {g : Geometry K n} {p : Prediction K} {sample : Sample K (Snapshot I O) m}
    (h : Accepted s g step p sample out) : out.2.simplex.poleSample = s.simplex.poleSample := by
  cases h <;> rfl

theorem poleSample_iterated (ho : Iterated q s fuel out) :
    out.2.simplex.poleSample = s.selected.simplex.poleSample := by
  cases ho with
  | inaccurate => rfl
  | repaired _ _ ha => cases ha <;> rfl
  | unresolved => rfl
  | tooShort => rfl
  | stepped _ _ hstepped =>
    cases hstepped with
    | halted => rfl
    | overtaken => rfl
    | @tried w _ hw ha =>
      have hsame : w.simplex.poleSample = s.selected.simplex.poleSample := congrArg Simplex.poleSample hw.simplex
      cases ha with
      | exhausted => exact hsame
      | failed => exact hsame
      | stopped => exact hsame
      | evaluated => exact (accepted (ε := ε) ..).poleSample.trans hsame

theorem poleSample_shrunk (ho : Shrunk q s out) : out.2.simplex.poleSample = s.simplex.poleSample := by
  cases ho <;> rfl

theorem merit_le_of_rank_le {penalty f v g z : K} (h : rank penalty f v ≤ rank penalty g z) :
    f + penalty * v ≤ g + penalty * z := by
  unfold rank at h
  rw [Prod.Lex.toLex_le_toLex] at h
  rcases h with hlt | ⟨heq, -⟩
  · exact hlt.le
  · exact heq.le

/-- Under the penalty that it starts with, a phase leaves no worse pole than it finds. -/
theorem rank_pole_advance_le (q : Search K I O ε σ n m) (phase : Phase K ε n)
    (hfull : phase.isActive = true → s.simplex.others.size = n) (fuel : Nat) :
    (q.advance ⟨phase, s⟩ fuel).state.simplex.rank s.penalty .pole ≤ s.simplex.rank s.penalty .pole := by
  cases phase with
  | selectBest =>
    -- the best vertex is made the pole first, and what the selection does then leaves the sample of the pole alone
    have hpole : (q.iterate s fuel).2.simplex.poleSample = s.selected.simplex.poleSample :=
      poleSample_iterated (iterated s fuel)
    have hrank : (q.iterate s fuel).2.simplex.rank s.penalty .pole = s.selected.simplex.rank s.penalty .pole := by
      rw [Simplex.rank_of_sample? (r := (q.iterate s fuel).2.simplex.poleSample) rfl, hpole]
      rfl
    have hselected : s.selected.simplex.rank s.penalty .pole =
        s.simplex.rank s.penalty (s.simplex.selectBest s.penalty) := by
      show (s.simplex.pivotTo _).rank s.penalty .pole = _
      rw [Simplex.rank_pivotTo (hfull rfl), Equiv.swap_apply_left]
    show (q.iterate s fuel).2.simplex.rank s.penalty .pole ≤ _
    rw [hrank, hselected]
    exact s.simplex.rank_selectBest_le s.penalty .pole
  | shrinkRadius =>
    have hpole : (q.shrink s).2.simplex.poleSample = s.simplex.poleSample := poleSample_shrunk (shrunk s)
    refine le_of_eq ?_
    show (q.shrink s).2.simplex.rank s.penalty .pole = _
    rw [Simplex.rank_of_sample? (r := (q.shrink s).2.simplex.poleSample) rfl, hpole]
    rfl
  | finish => exact le_refl _
  | failed => exact le_refl _
  | unresolved => exact le_refl _

/-! ## The evaluations of a run -/

/-- If the event is an evaluation, but none of the first simplex, then a selection of the run has shown `earlier`
and prepared the state in which it was made. -/
def MadeBy (q : Search K I O ε σ n m) (r : Run K I O ε σ n m) (fuel : Nat) (earlier : List (Event K I O n))
    (event : Event K I O n) : Prop :=
  ∀ evals kind p snapshot, event = .evaluated evals kind p snapshot → kind ≠ .initial →
    ∃ k t step w, q.follow fuel r k = ⟨.selectBest, t⟩ ∧ Readied q t fuel kind step w ∧
      w.ledger.events = earlier ∧ p.x = w.simplex.offset step

theorem madeBy_of_not_evaluated {earlier : List (Event K I O n)} {event : Event K I O n}
    (h : event.isEvaluated = false) : MadeBy q r fuel earlier event := by
  rintro evals kind p snapshot rfl
  cases h

def InitialOnly (events : List (Event K I O n)) : Prop :=
  ∀ e ∈ events, ∃ evals p snapshot, e = .evaluated evals .initial p snapshot

theorem InitialOnly.probed {l l' : Ledger K I O σ n} {sample : Sample K (Snapshot I O) m}
    {answer : Option Action} (h : InitialOnly l.events)
    (hp : q.probe l x .initial = (.ok (sample, answer), l')) : InitialOnly l'.events := by
  intro e he
  rw [(Search.probed hp).events] at he
  rcases List.mem_append.mp he with he | he
  · exact h e he
  · exact ⟨_, _, _, List.mem_singleton.mp he⟩

theorem Begun.initialOnly (h : Begun q x memory s) : InitialOnly s.ledger.events := by
  induction h with
  | first hp =>
    have hnone : InitialOnly (Ledger.start memory : Ledger K I O σ n).events := nofun
    exact hnone.probed hp
  | extend _ _ hp ih => exact ih.probed hp

theorem initialOnly_start (h : q.start x memory = .ok r) : InitialOnly r.state.ledger.events := by
  obtain ⟨s, hs, -, hevents⟩ := begun_start h
  exact hevents ▸ hs.initialOnly

theorem madeBy_iterate (ht : AtEach (MadeBy q r fuel) t.ledger.events) {k : Nat}
    (hk : q.follow fuel r k = ⟨.selectBest, t⟩) : AtEach (MadeBy q r fuel) (q.iterate t fuel).2.ledger.events := by
  have ho : Asked q t fuel (q.iterate t fuel) := asked_iterated (iterated t fuel)
  cases ho with
  | nothing _ hevents =>
    obtain ⟨new, hnew, hnone⟩ := hevents
    rw [hnew]
    exact ht.append fun _ e he => madeBy_of_not_evaluated (hnone e he)
  | @something kind step w _ _ hw ha hnext =>
    obtain ⟨new, hnew, hnone⟩ := hw.events
    have hready : AtEach (MadeBy q r fuel) w.ledger.events := by
      rw [hnew]
      exact ht.append fun _ e he => madeBy_of_not_evaluated (hnone e he)
    rcases ha.events hnext with hsame | ⟨evals, sample, hmore⟩
    · rw [hsame]
      exact hready
    · rw [hmore]
      refine hready.concat fun evals' kind' p snapshot he _ => ?_
      cases he
      exact ⟨k, t, step, w, hk, hw, rfl, rfl⟩

/-- Every repair and every trial that a run shows was evaluated in a state that a selection prepared. -/
theorem madeBy_follow (h : q.start x memory = .ok r) (fuel count : Nat) :
    AtEach (MadeBy q r fuel) (q.follow fuel r count).state.ledger.events := by
  -- a selection adds evaluations made in its own state, which the run reached; a reduction adds none
  induction count with
  | zero =>
    rw [← List.nil_append (Ledger.events _)]
    refine atEach_nil.append fun _ e he evals kind p snapshot hevaluated hkind => ?_
    obtain ⟨_, _, _, hinitial⟩ := initialOnly_start h e he
    cases hevaluated.symm.trans hinitial
    exact absurd rfl hkind
  | succ count ih =>
    rw [follow_succ_last]
    generalize hlast : q.follow fuel r count = last at ih ⊢
    obtain ⟨phase, s⟩ := last
    cases phase with
    | selectBest => exact madeBy_iterate ih hlast
    | shrinkRadius =>
      have ho : Shrunk q s (q.shrink s) := shrunk s
      show AtEach _ (q.shrink s).2.ledger.events
      generalize q.shrink s = out at ho ⊢
      have hreduced : ∀ {answer ledger}, s.ledger.announce q.observer (.radiusReduced (q.reducedRadius s.radius)
          s.reducedPenalty s.ledger.evals s.simplex.best) = (answer, ledger) →
          AtEach (MadeBy q r fuel) ledger.events := by
        intro answer ledger ha
        rw [(Ledger.announced ha).events]
        exact ih.concat (madeBy_of_not_evaluated rfl)
      cases ho with
      | rearmed => exact ih
      | converged => exact ih
      | halted _ _ ha => exact hreduced ha
      | reduced _ _ ha => exact hreduced ha
    | finish => exact ih
    | failed => exact ih
    | unresolved => exact ih

end

end Search

end TrustSimplex
