import TrustSimplex.Proofs.Search.Solution

/-!
# Stopping at an evaluation

An observer that answers an evaluation stops the run. While the first simplex grows the new vertex is taken in
first, and the solution is no worse than it. A repair and a trial stop before their sample is stored, so a
point that is better than every vertex is lost; the solution is no worse than the point in all other cases.
-/

namespace TrustSimplex

section
variable {K I O ε σ : Type} [EuclideanField K] {n m : Nat}

def Point.merit (p : Point K n) (penalty : K) : K := p.objective + penalty * p.maxViolation

def Sample.merit {S : Type} (r : Sample K S m) (penalty : K) : K := r.objective + penalty * r.maxViolation

namespace Search

variable {q : Search K I O ε σ n m} {s : State K I O σ n m}

/-! ## Stops while the first simplex grows -/

def StoppedFirst (phase : Phase K ε n) (s : State K I O σ n m) : Prop :=
  phase = .finish .stoppedByObserver → ∀ evals p snapshot,
    s.ledger.events.getLast? = some (.evaluated evals .initial p snapshot) →
      s.penalty = 0 ∧ s.simplex.poleSample.objective ≤ p.objective

theorem stoppedFirst_of_last {phase : Phase K ε n} {event : Event K I O n}
    (hlast : s.ledger.events.getLast? = some event)
    (hevent : ∀ evals p snapshot, event ≠ .evaluated evals .initial p snapshot) : StoppedFirst phase s := by
  intro _ evals p snapshot hinitial
  rw [hlast] at hinitial
  exact absurd (Option.some.inj hinitial) (hevent evals p snapshot)

theorem stoppedFirst_iterated {fuel : Nat} {out : Phase K ε n × State K I O σ n m} (ho : Iterated q s fuel out) :
    StoppedFirst out.1 out.2 := by
  cases ho with
  | inaccurate => exact nofun
  | repaired _ _ ha =>
    cases ha with
    | exhausted => exact nofun
    | failed => exact nofun
    | stopped hp => exact stoppedFirst_of_last (last_probe hp) nofun
    | evaluated => exact nofun
  | unresolved => exact nofun
  | tooShort => exact nofun
  | stepped _ _ hstepped =>
    cases hstepped with
    | halted _ ha => exact stoppedFirst_of_last (Ledger.last_announce ha) nofun
    | overtaken => exact nofun
    | tried _ ha =>
      cases ha with
      | exhausted => exact nofun
      | failed => exact nofun
      | stopped hp => exact stoppedFirst_of_last (last_probe hp) nofun
      | @evaluated sample ledger hp =>
        generalize hout : accept _ _ _ _ sample = out
        have haccepted := hout ▸ accepted _ _ _ _ sample
        cases haccepted <;> exact nofun

theorem stoppedFirst_shrunk {out : Phase K ε n × State K I O σ n m} (ho : Shrunk q s out) :
    StoppedFirst out.1 out.2 := by
  cases ho with
  | rearmed => exact nofun
  | converged => exact nofun
  | halted _ _ ha => exact stoppedFirst_of_last (Ledger.last_announce ha) nofun
  | reduced => exact nofun

theorem objective_pole_extend_le {S : Type} (s : Simplex K S n m) (r : Sample K S m) :
    (s.extend r).poleSample.objective ≤ r.objective := by
  have hpole : s.objective .pole = s.poleSample.objective := rfl
  unfold Simplex.extend
  dsimp only
  by_cases hle : s.objective .pole ≤ r.objective
  · rw [if_pos hle]
    exact hle
  · rw [if_neg hle]

theorem stoppedFirst_start {x : Vector K n} {memory : σ} {r : Run K I O ε σ n m} (h : q.start x memory = .ok r) :
    StoppedFirst r.phase r.state := by
  have hstarted : Started q x memory (fun s => s.penalty = 0) r := started (fun _ => rfl) (fun h _ _ => h) h
  cases hstarted with
  | stopped hp =>
    intro _ evals p snapshot hlast
    cases (last_probe hp).symm.trans hlast
    exact ⟨rfl, le_refl _⟩
  | built hbuilt =>
    cases hbuilt with
    | failed => exact nofun
    | stopped hs _ hp =>
      intro _ evals p snapshot hlast
      cases (last_probe hp).symm.trans hlast
      exact ⟨hs, objective_pole_extend_le _ _⟩
    | complete => exact nofun

theorem stoppedFirst_follow {x : Vector K n} {memory : σ} {r : Run K I O ε σ n m} (h : q.start x memory = .ok r)
    (fuel count : Nat) : StoppedFirst (q.follow fuel r count).phase (q.follow fuel r count).state :=
  follow_invariant (P := StoppedFirst) (fun _ _ => stoppedFirst_iterated (iterated _ fuel))
    (fun _ _ => stoppedFirst_shrunk (shrunk _)) count (stoppedFirst_start h)

/-! ## All stops at an evaluation -/

theorem PoleBest.merit_le (h : PoleBest s) {v : Vertex n} {r : Sample K (Snapshot I O) m}
    (hr : s.simplex.sample? v = some r) : s.simplex.poleSample.merit s.penalty ≤ r.merit s.penalty :=
  not_lt.mp fun hlt => h v r hr (Or.inl hlt)

/-- A run that is stopped at an evaluation has a solution no worse than the point, unless a repair or a trial
found one that is better than every vertex. -/
theorem merit_le_stopped_iff {x : Vector K n} {memory : σ} {fuel : Nat} {o : Outcome K I O ε σ n}
    {solution : Solution K I O n} (h : q.minimizeWithin x memory fuel = some o) (hok : o.result = .ok solution)
    (hstopped : solution.status = .stoppedByObserver) :
    ∃ r e, q.start x memory = .ok r ∧ q.follow fuel r fuel = ⟨.finish solution.status, e⟩ ∧
      Finished e solution o.ledger ∧ ∀ evals kind p snapshot,
        e.ledger.events.getLast? = some (.evaluated evals kind p snapshot) →
          (solution.point.merit e.penalty ≤ p.merit e.penalty ↔
            kind = .initial ∨ ∃ v r, e.simplex.sample? v = some r ∧ r.merit e.penalty ≤ p.merit e.penalty) := by
  obtain ⟨r, e, hr, he, hfinished⟩ := finished_of_minimizeWithin h hok
  refine ⟨r, e, hr, he, hfinished, fun evals kind p snapshot hlast => ?_⟩
  have hmerit : solution.point.merit e.penalty = e.simplex.poleSample.merit e.penalty := by
    rw [hfinished.point]
    rfl
  rw [hmerit]
  constructor
  · exact fun hle => Or.inr ⟨.pole, _, rfl, hle⟩
  · rw [hstopped] at he
    by_cases hkind : kind = .initial
    · subst hkind
      have hfirst := stoppedFirst_follow hr fuel fuel
      rw [he] at hfirst
      obtain ⟨hpenalty, hobjective⟩ := hfirst rfl _ _ _ hlast
      intro _
      unfold Sample.merit Point.merit
      rw [hpenalty, zero_mul, zero_mul, add_zero, add_zero]
      exact hobjective
    · have htracked := tracked_follow hr fuel fuel
      rw [he] at htracked
      have hbest : PoleBest e := htracked.mpr (not_overtaken_of_last hlast hkind)
      rintro (hinitial | ⟨v, r, hv, hle⟩)
      · exact absurd hinitial hkind
      · exact (hbest.merit_le hv).trans hle

end Search

end

namespace Search

/-! ## A target that is found and lost -/

noncomputable def atTarget (e : Event ℝ (Vector ℝ 1) Unit 1) : Option Action :=
  if e.meets (-1 / 100) 0 then some .stopEarly else none

noncomputable def targeted : Search ℝ (Vector ℝ 1) Unit Empty Unit 1 0 := cubicSearch atTarget

theorem passesNonnegative_atTarget : PassesNonnegative atTarget := by
  intro e p hp hobjective
  have hmisses : ¬ p.objective ≤ -1 / 100 := by linarith
  unfold atTarget Event.meets
  rw [hp]
  simp [hmisses]

theorem atTarget_trial (evals : Nat) : atTarget (cubicEvent evals (-1) .trial) = some .stopEarly := by
  have hlow : cubic (-1) ≤ -1 / 100 := by unfold cubic; norm_num
  simp [atTarget, Event.meets, Event.point?, cubicEvent, hlow]

/-- The observer stops the run at the trial at `-1`. -/
theorem follow_targeted : ∃ r ledger, targeted.start #v[0] () = .ok r ∧
    targeted.follow 4 r 4 = ⟨.finish .stoppedByObserver, cubicState 1 ledger⟩ ∧
    ledger.events.getLast? = some (cubicEvent ledger.evals (-1) .trial) := by
  obtain ⟨r, ledger, hr, hevals, hfollow⟩ := follow_cubic_two passesNonnegative_atTarget
  have hprobe := probe_cubic_step atTarget 1 ledger
  rw [atTarget_trial] at hprobe
  have hbudget : targeted.hasBudget ledger = true := decide_eq_true (by rw [hevals]; decide)
  have hiterate : targeted.iterate (cubicState 1 ledger) 4 = _ :=
    (iterate_cubic_eq_tryStep atTarget (le_refl 1) one_le_two ledger 3).trans (tryStep_eq_stopped hbudget hprobe)
  exact ⟨r, _, hr, (hfollow 2).trans (follow_selectBest hiterate 1),
    last_probe (probe_cubic atTarget ledger (-1) .trial)⟩

theorem merit_le_stopped_iff_targeted : ∃ o solution, targeted.minimizeWithin #v[0] () 4 = some o ∧
    o.result = .ok solution ∧ solution.status = .stoppedByObserver ∧
    ∃ r e, targeted.start #v[0] () = .ok r ∧ targeted.follow 4 r 4 = ⟨.finish solution.status, e⟩ ∧
      Finished e solution o.ledger ∧ ∀ evals kind p snapshot,
        e.ledger.events.getLast? = some (.evaluated evals kind p snapshot) →
          (solution.point.merit e.penalty ≤ p.merit e.penalty ↔
            kind = .initial ∨ ∃ v r, e.simplex.sample? v = some r ∧ r.merit e.penalty ≤ p.merit e.penalty) := by
  obtain ⟨r, ledger, hr, he, -⟩ := follow_targeted
  have ho := minimizeWithin_of_finish hr he
  exact ⟨_, _, ho, rfl, rfl, merit_le_stopped_iff ho rfl rfl⟩

/-- The point meets the target, at a zero penalty, and the solution does not. -/
theorem not_merit_le_stopped_targeted : ∃ o solution r e evals p snapshot,
    targeted.minimizeWithin #v[0] () 4 = some o ∧ o.result = .ok solution ∧
    solution.status = .stoppedByObserver ∧ targeted.start #v[0] () = .ok r ∧
    targeted.follow 4 r 4 = ⟨.finish solution.status, e⟩ ∧
    e.ledger.events.getLast? = some (.evaluated evals .trial p snapshot) ∧ e.penalty = 0 ∧
    p.maxViolation ≤ 0 ∧ p.objective ≤ -1 / 100 ∧ ¬ solution.point.objective ≤ -1 / 100 ∧
    ¬ solution.point.merit e.penalty ≤ p.merit e.penalty := by
  obtain ⟨r, ledger, hr, he, hlast⟩ := follow_targeted
  have hpoint : cubic 0 = 0 ∧ cubic (-1) = -1 / 32 := by unfold cubic; norm_num
  refine ⟨_, _, r, _, _, _, _, minimizeWithin_of_finish hr he, rfl, rfl, hr, he, hlast, rfl, le_refl 0, ?_, ?_, ?_⟩
  · show cubic (-1) ≤ -1 / 100
    rw [hpoint.2]
    norm_num
  · show ¬ cubic 0 ≤ -1 / 100
    rw [hpoint.1]
    norm_num
  · show ¬ cubic 0 + 0 * 0 ≤ cubic (-1) + 0 * 0
    rw [hpoint.1, hpoint.2]
    norm_num

end Search

end TrustSimplex
