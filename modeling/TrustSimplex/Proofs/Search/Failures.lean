import TrustSimplex.Proofs.Search.Solution

/-!
# Failures of a run

An evaluation fails at the first of its four stages that does, or for a value that is no number. The evaluation
that fails is the last one attempted: it is neither counted nor shown, its failure is the result of the run, and
all that was shown before it stands.
-/

namespace TrustSimplex

section
variable {α I O : Type} {n : Nat}

def Event.visited? : Event α I O n → Option (Vector α n)
  | evaluated _ _ p _ => some p.x
  | penaltyIncreased _ => none
  | radiusReduced .. => none
  | finished .. => none

def visited (events : List (Event α I O n)) : List (Vector α n) := events.filterMap Event.visited?

theorem visited_concat (events : List (Event α I O n)) (event : Event α I O n) :
    visited (events ++ [event]) = visited events ++ event.visited?.toList := by
  unfold visited
  rw [List.filterMap_append]
  cases event <;> rfl

end

namespace Search

section
variable {α I O ε σ : Type} [Scalar α] {n m : Nat} {q : Search α I O ε σ n m}
variable {s : State α I O σ n m} {l l' : Ledger α I O σ n} {x : Vector α n} {cause : Failure α ε n}
variable {kind : Probe} {r : Sample α (Snapshot I O) m} {answer : Option Action} {event : Event α I O n}

/-! ## One evaluation -/

/-- Why the evaluation at `x` fails: its first stage that does, or else what its values are. -/
inductive Fails (q : Search α I O ε σ n m) (x : Vector α n) : Failure α ε n → Prop
  | input {cause : ε} (hi : q.problem.input x = .error cause) : Fails q x (.evaluation (.problem cause))
  | model {input : I} {cause : ε} (hi : q.problem.input x = .ok input)
      (ho : q.model.call input = .error cause) : Fails q x (.evaluation (.model cause))
  | objective {input : I} {output : O} {cause : ε} (hi : q.problem.input x = .ok input)
      (ho : q.model.call input = .ok output) (hf : q.problem.objective input output = .error cause) :
      Fails q x (.evaluation (.problem cause))
  | constraints {input : I} {output : O} {f : α} {cause : ε} (hi : q.problem.input x = .ok input)
      (ho : q.model.call input = .ok output) (hf : q.problem.objective input output = .ok f)
      (hc : q.problem.constraints input output = .error cause) : Fails q x (.evaluation (.problem cause))
  | nonFinite {input : I} {output : O} {f : α} {c : Vector α m} (hi : q.problem.input x = .ok input)
      (ho : q.model.call input = .ok output) (hf : q.problem.objective input output = .ok f)
      (hc : q.problem.constraints input output = .ok c)
      (h : Scalar.isFinite f = false ∨ ∃ k, Scalar.isFinite (c.get k) = false) : Fails q x (.nonFinite x f)

structure Genuine (q : Search α I O ε σ n m) (p : Point α n) (snapshot : Snapshot I O) : Prop where
  input : q.problem.input p.x = .ok snapshot.input
  output : q.model.call snapshot.input = .ok snapshot.output
  objective : q.problem.objective snapshot.input snapshot.output = .ok p.objective
  finite : Scalar.isFinite p.objective = true
  constraints : ∃ c, q.problem.constraints snapshot.input snapshot.output = .ok c ∧
    (∀ k, Scalar.isFinite (c.get k) = true) ∧ p.maxViolation = (c.map (- ·)).foldl larger 0

omit [Scalar α] in
theorem all_eq_true_iff_get {f : α → Bool} {c : Vector α m} : c.all f = true ↔ ∀ k, f (c.get k) = true := by
  rw [Vector.all_eq_true]
  constructor
  · intro h k
    exact h k.1 k.2
  · intro h i hi
    exact h ⟨i, hi⟩

theorem isFinite_iff {e : Evaluation α I O n m} :
    e.isFinite = true ↔ Scalar.isFinite e.objective = true ∧ ∀ k, Scalar.isFinite (e.constraints.get k) = true := by
  unfold Evaluation.isFinite
  rw [Bool.and_eq_true, all_eq_true_iff_get]

theorem isFinite_eq_false_iff {e : Evaluation α I O n m} :
    e.isFinite = false ↔ Scalar.isFinite e.objective = false ∨ ∃ k, Scalar.isFinite (e.constraints.get k) = false := by
  rw [← Bool.not_eq_true, isFinite_iff, not_and_or, not_forall, Bool.not_eq_true]
  simp only [Bool.not_eq_true]

theorem evaluate_of_stages {input : I} {output : O} {f : α} {c : Vector α m} (hi : q.problem.input x = .ok input)
    (ho : q.model.call input = .ok output) (hf : q.problem.objective input output = .ok f)
    (hc : q.problem.constraints input output = .ok c) :
    evaluate q.model q.problem x = .ok ⟨x, f, c, ⟨input, output⟩⟩ := by
  simp [evaluate, bind, Except.bind, Except.mapError, hi, ho, hf, hc]
  rfl

theorem genuine_or_fails (q : Search α I O ε σ n m) (x : Vector α n) :
    (∃ e, evaluate q.model q.problem x = .ok e ∧ e.isFinite = true ∧
      Genuine q ⟨x, e.objective, e.maxViolation⟩ e.snapshot) ∨ ∃ cause, Fails q x cause := by
  cases hi : q.problem.input x with
  | error cause => exact Or.inr ⟨_, .input hi⟩
  | ok input =>
    cases ho : q.model.call input with
    | error cause => exact Or.inr ⟨_, .model hi ho⟩
    | ok output =>
      cases hf : q.problem.objective input output with
      | error cause => exact Or.inr ⟨_, .objective hi ho hf⟩
      | ok f =>
        cases hc : q.problem.constraints input output with
        | error cause => exact Or.inr ⟨_, .constraints hi ho hf hc⟩
        | ok c =>
          cases hfinite : (⟨x, f, c, ⟨input, output⟩⟩ : Evaluation α I O n m).isFinite with
          | false => exact Or.inr ⟨_, .nonFinite hi ho hf hc (isFinite_eq_false_iff.mp hfinite)⟩
          | true =>
            obtain ⟨hobjective, hconstraints⟩ := isFinite_iff.mp hfinite
            refine Or.inl ⟨_, evaluate_of_stages hi ho hf hc, hfinite,
              ⟨hi, ho, hf, hobjective, c, hc, hconstraints, ?_⟩⟩
            exact Vector.foldl_map.symm

theorem probe_of_fails (h : Fails q x cause) (l : Ledger α I O σ n) (kind : Probe) :
    q.probe l x kind = (.error cause, l.add (.attempted x)) := by
  unfold probe
  cases h with
  | input hi => simp [evaluate, bind, Except.bind, Except.mapError, hi]
  | model hi ho => simp [evaluate, bind, Except.bind, Except.mapError, hi, ho]
  | objective hi ho hf => simp [evaluate, bind, Except.bind, Except.mapError, hi, ho, hf]
  | constraints hi ho hf hc => simp [evaluate, bind, Except.bind, Except.mapError, hi, ho, hf, hc]
  | nonFinite hi ho hf hc h =>
    rw [evaluate_of_stages hi ho hf hc]
    dsimp only
    rw [isFinite_eq_false_iff.mpr h]
    rfl

theorem Genuine.not_fails {p : Point α n} {snapshot : Snapshot I O} (h : Genuine q p snapshot) :
    ¬ Fails q p.x cause := by
  obtain ⟨hinput, houtput, hobjective, hfinite, c₀, hconstraints, hall, -⟩ := h
  intro hfails
  cases hfails with
  | input hi => cases hinput.symm.trans hi
  | model hi ho =>
    cases hinput.symm.trans hi
    cases houtput.symm.trans ho
  | objective hi ho hf =>
    cases hinput.symm.trans hi
    cases houtput.symm.trans ho
    cases hobjective.symm.trans hf
  | constraints hi ho hf hc =>
    cases hinput.symm.trans hi
    cases houtput.symm.trans ho
    cases hconstraints.symm.trans hc
  | nonFinite hi ho hf hc h =>
    cases hinput.symm.trans hi
    cases houtput.symm.trans ho
    cases hobjective.symm.trans hf
    cases hconstraints.symm.trans hc
    rcases h with h | ⟨k, h⟩
    · cases hfinite.symm.trans h
    · cases (hall k).symm.trans h

theorem fails_of_probe (h : q.probe l x kind = (.error cause, l')) : Fails q x cause := by
  rcases genuine_or_fails q x with ⟨e, he, hfinite, -⟩ | ⟨other, hother⟩
  · unfold probe at h
    rw [he] at h
    dsimp only at h
    rw [if_pos hfinite] at h
    cases h
  · cases (probe_of_fails hother l kind).symm.trans h
    exact hother

theorem genuine_of_probe (h : q.probe l x kind = (.ok (r, answer), l')) :
    Genuine q ⟨x, r.objective, r.maxViolation⟩ r.snapshot := by
  rcases genuine_or_fails q x with ⟨e, he, -, hgenuine⟩ | ⟨other, hother⟩
  · obtain ⟨e', he', rfl⟩ := (probed h).evaluation
    cases he.symm.trans he'
    exact hgenuine
  · cases (probe_of_fails hother l kind).symm.trans h

/-! ## Ledgers -/

structure Truthful (q : Search α I O ε σ n m) (events : List (Event α I O n)) : Prop where
  genuine : ∀ evals kind p snapshot, Event.evaluated evals kind p snapshot ∈ events → Genuine q p snapshot
  unfinished : ∀ status evals best, Event.finished status evals best ∉ events

structure Clean (q : Search α I O ε σ n m) (l : Ledger α I O σ n) : Prop where
  attempts : l.attempts = visited l.events
  truthful : Truthful q l.events

structure Broken (q : Search α I O ε σ n m) (cause : Failure α ε n) (l : Ledger α I O σ n) : Prop where
  attempts : ∃ x, l.attempts = visited l.events ++ [x] ∧ Fails q x cause
  truthful : Truthful q l.events

theorem Truthful.concat {events : List (Event α I O n)} (h : Truthful q events)
    (hgenuine : ∀ evals kind p snapshot, event = .evaluated evals kind p snapshot → Genuine q p snapshot)
    (hunfinished : ∀ status evals best, event ≠ .finished status evals best) : Truthful q (events ++ [event]) := by
  constructor
  · intro evals kind p snapshot hmem
    rcases List.mem_append.mp hmem with hmem | hmem
    · exact h.genuine evals kind p snapshot hmem
    · exact hgenuine evals kind p snapshot (List.mem_singleton.mp hmem).symm
  · intro status evals best hmem
    rcases List.mem_append.mp hmem with hmem | hmem
    · exact h.unfinished status evals best hmem
    · exact hunfinished status evals best (List.mem_singleton.mp hmem).symm

theorem Truthful.not_fails {events : List (Event α I O n)} (h : Truthful q events) (hx : x ∈ visited events) :
    ¬ Fails q x cause := by
  obtain ⟨event, hmem, hevent⟩ := List.mem_filterMap.mp hx
  cases event with
  | evaluated evals kind p snapshot =>
    cases hevent
    exact (h.genuine evals kind p snapshot hmem).not_fails
  | penaltyIncreased => cases hevent
  | radiusReduced => cases hevent
  | finished => cases hevent

theorem clean_start (q : Search α I O ε σ n m) (memory : σ) : Clean q (.start memory) :=
  ⟨rfl, ⟨fun _ _ _ _ => List.not_mem_nil.elim, fun _ _ _ => List.not_mem_nil⟩⟩

theorem Clean.announced (h : Clean q l) (ha : l.announce q.observer event = (answer, l'))
    (hevent : event.visited? = none) (hunfinished : ∀ status evals best, event ≠ .finished status evals best) :
    Clean q l' := by
  have hannounced := Ledger.announced ha
  constructor
  · rw [hannounced.attempts, hannounced.events, visited_concat, hevent, h.attempts]
    exact (List.append_nil _).symm
  · rw [hannounced.events]
    refine h.truthful.concat ?_ hunfinished
    rintro evals kind p snapshot rfl
    cases hevent

theorem Clean.probed (h : Clean q l) (hp : q.probe l x kind = (.ok (r, answer), l')) : Clean q l' := by
  have hprobed := Search.probed hp
  constructor
  · rw [hprobed.attempts, hprobed.events, visited_concat, h.attempts]
    rfl
  · rw [hprobed.events]
    refine h.truthful.concat ?_ nofun
    intro evals kind p snapshot heq
    cases heq
    exact genuine_of_probe hp

theorem Clean.failed (h : Clean q l) (hp : q.probe l x kind = (.error cause, l')) : Broken q cause l' := by
  have hevents := events_of_probe_error hp
  constructor
  · refine ⟨x, ?_, fails_of_probe hp⟩
    rw [hevents, ledger_of_probe_error hp, Ledger.attempts_add_attempted, h.attempts]
  · rw [hevents]
    exact h.truthful

theorem Clean.inaccurate (h : Clean q l) (error : α) (evals : Nat) : Clean q (l.add (.inaccurate error evals)) := by
  constructor
  · rw [Ledger.attempts_add_inaccurate, Ledger.events_add_inaccurate]
    exact h.attempts
  · rw [Ledger.events_add_inaccurate]
    exact h.truthful

/-! ## The phases -/

def Disclosed (q : Search α I O ε σ n m) : Phase α ε n → Ledger α I O σ n → Prop
  | .selectBest, l => Clean q l
  | .shrinkRadius, l => Clean q l
  | .finish _, l => Clean q l
  | .failed cause, l => Broken q cause l
  | .unresolved, l => Clean q l

theorem Disclosed.truthful {phase : Phase α ε n} (h : Disclosed q phase l) : Truthful q l.events := by
  cases phase with
  | selectBest => exact Clean.truthful h
  | shrinkRadius => exact Clean.truthful h
  | finish => exact Clean.truthful h
  | failed => exact Broken.truthful h
  | unresolved => exact Clean.truthful h

theorem disclosed_attempted {out : Phase α ε n × State α I O σ n m}
    {next : Sample α (Snapshot I O) m → Ledger α I O σ n → Phase α ε n × State α I O σ n m}
    (ho : Attempted q s x kind next out) (h : Clean q s.ledger)
    (hnext : ∀ sample ledger, Clean q ledger → Disclosed q (next sample ledger).1 (next sample ledger).2.ledger) :
    Disclosed q out.1 out.2.ledger := by
  cases ho with
  | exhausted => exact h
  | failed hp => exact h.failed hp
  | stopped hp => exact h.probed hp
  | evaluated hp => exact hnext _ _ (h.probed hp)

theorem disclosed_accepted {g : Geometry α n} {step : Vector α n} {p : Prediction α}
    {out : Phase α ε n × State α I O σ n m} (h : Clean q s.ledger) (ho : Accepted s g step p r out) :
    Disclosed q out.1 out.2.ledger := by
  cases ho with
  | dropped => exact h
  | gained => exact h
  | stored => exact h

theorem disclosed_iterated {fuel : Nat} {out : Phase α ε n × State α I O σ n m} (h : Clean q s.ledger)
    (ho : Iterated q s fuel out) : Disclosed q out.1 out.2.ledger := by
  cases ho with
  | inaccurate => exact h.inaccurate _ _
  | repaired _ _ ha => exact disclosed_attempted ha h fun _ _ hl => hl
  | unresolved => exact h
  | tooShort => exact h
  | stepped _ _ hstepped =>
    cases hstepped with
    | halted _ ha => exact h.announced ha rfl nofun
    | overtaken _ ha => exact h.announced ha rfl nofun
    | @tried w _ hw ha =>
      have hready : Clean q w.ledger := by
        cases hw with
        | kept => exact h
        | raised _ hshown _ => exact h.announced hshown rfl nofun
      refine disclosed_attempted ha hready fun sample ledger hl => ?_
      exact disclosed_accepted (s := { w with repairArmed := false, ledger }) hl (accepted _ _ _ _ _)

theorem disclosed_shrunk {out : Phase α ε n × State α I O σ n m} (h : Clean q s.ledger) (ho : Shrunk q s out) :
    Disclosed q out.1 out.2.ledger := by
  cases ho with
  | rearmed => exact h
  | converged => exact h
  | halted _ _ ha => exact h.announced ha rfl nofun
  | reduced _ _ ha => exact h.announced ha rfl nofun

theorem disclosed_start {memory : σ} {run : Run α I O ε σ n m} (h : q.start x memory = .ok run) :
    Disclosed q run.phase run.state.ledger := by
  have hstarted : Started q x memory (fun s => Clean q s.ledger) run :=
    started (fun hp => (clean_start q memory).probed hp) (fun hs _ hp => hs.probed hp) h
  cases hstarted with
  | stopped hp => exact (clean_start q memory).probed hp
  | built hbuilt =>
    cases hbuilt with
    | failed hs _ hp => exact hs.failed hp
    | stopped hs _ hp => exact hs.probed hp
    | complete hs => exact hs

theorem disclosed_follow {memory : σ} {run : Run α I O ε σ n m} (h : q.start x memory = .ok run) (fuel count : Nat) :
    Disclosed q (q.follow fuel run count).phase (q.follow fuel run count).state.ledger :=
  follow_invariant (P := fun phase s => Disclosed q phase s.ledger)
    (fun s hs => disclosed_iterated hs (iterated s fuel)) (fun s hs => disclosed_shrunk hs (shrunk s)) count
    (disclosed_start h)

/-! ## Outcomes -/

inductive Concluded (q : Search α I O ε σ n m) (memory : σ) : Outcome α I O ε σ n → Prop
  | invalid {cause : ConfigError} (h : q.config.validateFor n = .error cause) :
      Concluded q memory ⟨.error (.invalidConfig cause), .start memory⟩
  | failed {cause : Failure α ε n} {l : Ledger α I O σ n} (hvalid : q.config.validateFor n = .ok ())
      (h : Broken q cause l) : Concluded q memory ⟨.error cause, l⟩
  | solved {solution : Solution α I O n} {l : Ledger α I O σ n} {status : Status} {evals : Nat} {best : Point α n}
      {history : List (Event α I O n)} (hvalid : q.config.validateFor n = .ok ())
      (hevents : l.events = history ++ [.finished status evals best]) (hattempts : l.attempts = visited history)
      (htruthful : Truthful q history) : Concluded q memory ⟨.ok solution, l⟩

/-- A run that is over before it has a simplex was not valid, or failed at its first evaluation. -/
theorem broken_or_invalid_of_start {memory : σ} {o : Outcome α I O ε σ n} (h : q.start x memory = .error o) :
    (∃ cause, q.config.validateFor n = .error cause ∧ o = ⟨.error (.invalidConfig cause), .start memory⟩) ∨
    q.config.validateFor n = .ok () ∧ ∃ cause l, o = ⟨.error cause, l⟩ ∧ Broken q cause l := by
  unfold start at h
  split at h
  · next hinvalid =>
    cases h
    exact Or.inl ⟨_, hinvalid, rfl⟩
  · next hvalid =>
    split at h
    · next hp =>
      cases h
      exact Or.inr ⟨hvalid, _, _, rfl, (clean_start q memory).failed hp⟩
    · cases h
    · cases h

theorem concluded {memory : σ} {fuel : Nat} {o : Outcome α I O ε σ n}
    (h : q.minimizeWithin x memory fuel = some o) : Concluded q memory o := by
  unfold minimizeWithin at h
  split at h
  · next hstart =>
    cases h
    rcases broken_or_invalid_of_start hstart with ⟨cause, hinvalid, rfl⟩ | ⟨hvalid, cause, l, rfl, hbroken⟩
    · exact .invalid hinvalid
    · exact .failed hvalid hbroken
  · next r hr =>
    have hvalid := (q.config.validateFor_eq_ok_iff n).mpr (budget_of_start hr)
    have hdisclosed := disclosed_follow hr fuel fuel
    generalize q.follow fuel r fuel = last at h hdisclosed
    obtain ⟨phase, e⟩ := last
    cases phase with
    | finish status =>
      cases h
      have hclean : Clean q e.ledger := hdisclosed
      refine .solved hvalid (Ledger.events_announce ..) ?_ hclean.truthful
      exact (Ledger.attempts_announce ..).trans hclean.attempts
    | failed cause =>
      cases h
      exact .failed hvalid hdisclosed
    | selectBest => cases h
    | shrinkRadius => cases h
    | unresolved => cases h

theorem not_valid_iff {c : Config α} : (∃ cause, c.validateFor n = .error cause) ↔ n = 0 ∨ c.maxEvals < n + 1 := by
  have hiff := c.validateFor_eq_ok_iff n
  cases h : c.validateFor n with
  | error cause =>
    refine iff_of_true ⟨cause, rfl⟩ ?_
    by_contra hnot
    rw [not_or, not_lt] at hnot
    cases h.symm.trans (hiff.mpr hnot)
  | ok =>
    obtain ⟨hn, hbudget⟩ := hiff.mp h
    refine iff_of_false nofun ?_
    omega

theorem Fails.ne_invalid (h : Fails q x cause) (c : ConfigError) : cause ≠ .invalidConfig c := by
  cases h <;> exact nofun

theorem Fails.unique {other : Failure α ε n} (h : Fails q x cause) (hother : Fails q x other) (l : Ledger α I O σ n) :
    other = cause := by
  -- both are what the same evaluation gives
  have heq := (probe_of_fails hother l .initial).symm.trans (probe_of_fails h l .initial)
  cases heq
  rfl

theorem Broken.eq_of_mem {other : Failure α ε n} (h : Broken q cause l) (hx : x ∈ l.attempts)
    (hother : Fails q x other) : other = cause := by
  obtain ⟨y, hattempts, hfails⟩ := h.attempts
  rw [hattempts] at hx
  rcases List.mem_append.mp hx with hx | hx
  · exact absurd hother (h.truthful.not_fails hx)
  · cases List.mem_singleton.mp hx
    exact hfails.unique hother l

section
variable {memory : σ} {o : Outcome α I O ε σ n}

theorem Concluded.invalid_iff (h : Concluded q memory o) :
    (∃ cause, o.result = .error (.invalidConfig cause)) ↔ n = 0 ∨ q.config.maxEvals < n + 1 := by
  cases h with
  | invalid h => exact iff_of_true ⟨_, rfl⟩ (not_valid_iff.mp ⟨_, h⟩)
  | failed hvalid h =>
    obtain ⟨y, -, hfails⟩ := h.attempts
    refine iff_of_false ?_ ?_
    · rintro ⟨c, hc⟩
      cases hc
      exact hfails.ne_invalid c rfl
    · rw [← not_valid_iff, hvalid]
      exact nofun
  | solved hvalid =>
    refine iff_of_false nofun ?_
    rw [← not_valid_iff, hvalid]
    exact nofun

theorem Concluded.failed_iff (h : Concluded q memory o) :
    (∃ cause, o.result = .error cause ∧ ∀ c, cause ≠ .invalidConfig c) ↔
      ∃ y ∈ o.ledger.attempts, ∃ cause, Fails q y cause := by
  cases h with
  | @invalid c h =>
    refine iff_of_false ?_ ?_
    · rintro ⟨cause, hcause, hne⟩
      cases hcause
      exact hne c rfl
    · rintro ⟨y, hy, -⟩
      exact absurd hy List.not_mem_nil
  | failed hvalid h =>
    obtain ⟨y, hattempts, hfails⟩ := h.attempts
    refine iff_of_true ⟨_, rfl, hfails.ne_invalid⟩ ⟨y, ?_, _, hfails⟩
    rw [hattempts]
    exact List.mem_append_right _ (List.mem_singleton.mpr rfl)
  | solved hvalid hevents hattempts htruthful =>
    refine iff_of_false nofun ?_
    rintro ⟨y, hy, cause, hfails⟩
    rw [hattempts] at hy
    exact htruthful.not_fails hy hfails

theorem Concluded.broken (h : Concluded q memory o) (hresult : o.result = .error cause)
    (hcause : ∀ c, cause ≠ .invalidConfig c) : Broken q cause o.ledger := by
  cases h with
  | @invalid c h =>
    cases hresult
    exact absurd rfl (hcause c)
  | failed hvalid h =>
    cases hresult
    exact h
  | solved => cases hresult

theorem Concluded.genuine {evals : Nat} {p : Point α n} {snapshot : Snapshot I O} (h : Concluded q memory o)
    (hmem : Event.evaluated evals kind p snapshot ∈ o.ledger.events) : Genuine q p snapshot := by
  cases h with
  | invalid => exact absurd hmem List.not_mem_nil
  | failed hvalid h => exact h.truthful.genuine _ _ _ _ hmem
  | solved hvalid hevents hattempts htruthful =>
    rw [hevents] at hmem
    rcases List.mem_append.mp hmem with hmem | hmem
    · exact htruthful.genuine _ _ _ _ hmem
    · cases List.mem_singleton.mp hmem

end

/-- A failure in any state of a run is the result of the run. -/
theorem minimizeWithin_of_fails {memory : σ} {run : Run α I O ε σ n m} {fuel count : Nat}
    (hr : q.start x memory = .ok run) {y : Vector α n} (hy : y ∈ (q.follow fuel run count).state.ledger.attempts)
    (hfails : Fails q y cause) : ∃ l, q.minimizeWithin x memory (max fuel count) = some ⟨.error cause, l⟩ := by
  have hdisclosed := disclosed_follow hr fuel count
  generalize hlast : q.follow fuel run count = last at hdisclosed hy
  obtain ⟨phase, e⟩ := last
  have hclean : Clean q e.ledger → ∃ l, q.minimizeWithin x memory (max fuel count) = some ⟨.error cause, l⟩ := by
    intro h
    rw [h.attempts] at hy
    exact absurd hfails (h.truthful.not_fails hy)
  -- only a failed run has attempted a point that fails, and it is over
  cases phase with
  | failed other =>
    cases Broken.eq_of_mem hdisclosed hy hfails
    have hover : q.outcome? (q.follow fuel run count) = some ⟨.error cause, e.ledger⟩ := by
      rw [hlast]
      rfl
    refine ⟨e.ledger, ?_⟩
    unfold minimizeWithin
    rw [hr]
    exact q.outcome?_follow_of_le (Nat.le_max_left _ _) (Nat.le_max_right _ _) hover
  | selectBest => exact hclean hdisclosed
  | shrinkRadius => exact hclean hdisclosed
  | finish status => exact hclean hdisclosed
  | unresolved => exact hclean hdisclosed

/-- A run that is given no variables or too small a budget attempts nothing. Any other failure is that of an
evaluation, the last one attempted: it fails at the stage or for the values that the result says, and those before
it were shown, with nothing else for an end. No evaluation fails without its failure being the result. -/
theorem failure_iff (q : Search α I O ε σ n m) (x : Vector α n) (memory : σ) :
    (n = 0 ∨ q.config.maxEvals < n + 1 → ∀ fuel, ∃ cause,
      q.minimizeWithin x memory fuel = some ⟨.error (.invalidConfig cause), .start memory⟩) ∧
    (∀ fuel o, q.minimizeWithin x memory fuel = some o →
      ((∃ cause, o.result = .error (.invalidConfig cause)) ↔ n = 0 ∨ q.config.maxEvals < n + 1) ∧
      (∀ cause, o.result = .error (.invalidConfig cause) → o.ledger.attempts = [] ∧ o.ledger.events = []) ∧
      ((∃ cause, o.result = .error cause ∧ ∀ c, cause ≠ .invalidConfig c) ↔
        ∃ y ∈ o.ledger.attempts, ∃ cause, Fails q y cause) ∧
      (∀ cause, o.result = .error cause → (∀ c, cause ≠ .invalidConfig c) → ∃ earlier y,
        o.ledger.attempts = earlier ++ [y] ∧ Fails q y cause ∧ (∀ z ∈ earlier, ∀ c, ¬ Fails q z c) ∧
        visited o.ledger.events = earlier ∧ y ∉ visited o.ledger.events ∧
        ∀ status evals best, Event.finished status evals best ∉ o.ledger.events) ∧
      ∀ evals kind p snapshot, Event.evaluated evals kind p snapshot ∈ o.ledger.events → Genuine q p snapshot) ∧
    (n ≠ 0 → n + 1 ≤ q.config.maxEvals → ∀ cause, Fails q x cause → ∀ fuel,
      q.minimizeWithin x memory fuel = some ⟨.error cause, (Ledger.start memory).add (.attempted x)⟩) ∧
    ∀ r fuel count y cause, q.start x memory = .ok r →
      y ∈ (q.follow fuel r count).state.ledger.attempts → Fails q y cause →
      ∃ l, q.minimizeWithin x memory (max fuel count) = some ⟨.error cause, l⟩ := by
  refine ⟨fun hinvalid fuel => ?_, fun fuel o ho => ?_, fun hn hbudget cause hfails fuel => ?_,
    fun r fuel count y cause hr hy hfails => ?_⟩
  · obtain ⟨cause, hcause⟩ := not_valid_iff.mpr hinvalid
    refine ⟨cause, ?_⟩
    unfold minimizeWithin start
    rw [hcause]
  · have h := concluded ho
    refine ⟨h.invalid_iff, ?_, h.failed_iff, fun cause hresult hcause => ?_, fun _ _ _ _ => h.genuine⟩
    · intro cause hresult
      cases h with
      | invalid => exact ⟨rfl, rfl⟩
      | failed hvalid hbroken =>
        obtain ⟨y, -, hfails⟩ := hbroken.attempts
        cases hresult
        exact absurd rfl (hfails.ne_invalid cause)
      | solved => cases hresult
    · have hbroken := h.broken hresult hcause
      obtain ⟨y, hattempts, hfails⟩ := hbroken.attempts
      exact ⟨_, y, hattempts, hfails, fun z hz c => hbroken.truthful.not_fails hz, rfl,
        fun hy => hbroken.truthful.not_fails hy hfails, hbroken.truthful.unfinished⟩
  · have hvalid := (q.config.validateFor_eq_ok_iff n).mpr ⟨hn, hbudget⟩
    unfold minimizeWithin start
    rw [hvalid]
    dsimp only
    rw [probe_of_fails hfails]
  · exact minimizeWithin_of_fails hr hy hfails

end

/-! ## A run that fails at its second vertex -/

def belowOne {α : Type} [Scalar α] {n : Nat} (u : Vector α n) : Except Unit α :=
  if normSq u < 1 then .ok (normSq u) else .error ()

noncomputable def fragile (budget : Nat) : Search ℝ (Vector ℝ 1) Unit Unit Unit 1 0 where
  model := ⟨fun _ => .ok ()⟩
  problem := ⟨.ok, fun u _ => belowOne u, fun _ _ => .ok (zeroVec 0)⟩
  config := { unwatched.config with maxEvals := budget }
  observer := .silent

theorem fails_fragile (budget : Nat) : Fails (fragile budget) #v[2] (.evaluation (.problem ())) := by
  have hlong : ¬ normSq (#v[2] : Vector ℝ 1) < 1 := by
    rw [normSq_eq, Linearization.coords_one]
    norm_num
  have hfails : (fragile budget).problem.objective #v[2] () = .error () := if_neg hlong
  exact .objective rfl rfl hfails

theorem start_fragile : ∃ e : State ℝ (Vector ℝ 1) Unit Unit 1 0,
    (fragile 2).start #v[0] () = .ok ⟨.failed (.evaluation (.problem ())), e⟩ ∧ e.ledger.attempts = [#v[0], #v[2]] := by
  have hshort : normSq (#v[0] : Vector ℝ 1) < 1 := by
    rw [normSq_eq, Linearization.coords_one]
    norm_num
  have hzero : (fragile 2).problem.objective #v[0] () = .ok (normSq #v[0]) := if_pos hshort
  obtain ⟨first, l, hp⟩ : ∃ first l, (fragile 2).probe (.start ()) #v[0] .initial = (.ok (first, none), l) := by
    unfold probe
    rw [evaluate_of_stages (c := zeroVec 0) rfl rfl hzero rfl]
    dsimp only
    rw [if_pos (isFinite_iff.mpr ⟨rfl, fun k => k.elim0⟩)]
    exact ⟨_, _, rfl⟩
  have hnext : ((fragile 2).firstState #v[0] first l).simplex.nextInitial = #v[2] := nextInitial_zero 2 first
  refine ⟨{ (fragile 2).firstState #v[0] first l with ledger := l.add (.attempted #v[2]) }, ?_, ?_⟩
  · unfold start
    rw [show (fragile 2).config.validateFor 1 = .ok () from rfl]
    dsimp only
    rw [hp]
    dsimp only
    unfold build
    rw [hnext, probe_of_fails (fails_fragile 2)]
    rfl
  · show (l.add (.attempted #v[2])).attempts = _
    rw [Ledger.attempts_add_attempted, (probed hp).attempts]
    rfl

theorem failure_iff_fragile :
    (∀ fuel, ∃ cause, (fragile 1).minimizeWithin #v[0] () fuel =
      some ⟨.error (.invalidConfig cause), .start ()⟩) ∧
    (∀ fuel, (fragile 2).minimizeWithin #v[2] () fuel =
      some ⟨.error (.evaluation (.problem ())), (Ledger.start ()).add (.attempted #v[2])⟩) ∧
    ∃ r l, (fragile 2).start #v[0] () = .ok r ∧
      #v[2] ∈ ((fragile 2).follow 0 r 0).state.ledger.attempts ∧
      (fragile 2).minimizeWithin #v[0] () 0 = some ⟨.error (.evaluation (.problem ())), l⟩ ∧
      ∃ earlier y, l.attempts = earlier ++ [y] ∧ Fails (fragile 2) y (.evaluation (.problem ())) ∧
        (∀ z ∈ earlier, ∀ c, ¬ Fails (fragile 2) z c) ∧ visited l.events = earlier ∧ y ∉ visited l.events ∧
        ∀ status evals best, Event.finished status evals best ∉ l.events := by
  obtain ⟨e, hr, hattempts⟩ := start_fragile
  have hmem : #v[2] ∈ ((fragile 2).follow 0 ⟨.failed (.evaluation (.problem ())), e⟩ 0).state.ledger.attempts := by
    show #v[2] ∈ e.ledger.attempts
    rw [hattempts]
    exact List.mem_cons_of_mem _ (List.mem_singleton.mpr rfl)
  obtain ⟨-, houtcome, -, hreturns⟩ := failure_iff (fragile 2) #v[0] ()
  obtain ⟨l, hl⟩ := hreturns _ 0 0 _ _ hr hmem (fails_fragile 2)
  obtain ⟨-, -, -, hbroken, -⟩ := houtcome 0 _ hl
  exact ⟨(failure_iff (fragile 1) #v[0] ()).1 (Or.inr (by decide)),
    (failure_iff (fragile 2) #v[2] ()).2.2.1 one_ne_zero (le_refl 2) _ (fails_fragile 2),
    _, l, hr, hmem, hl, hbroken _ rfl nofun⟩

end Search

end TrustSimplex
