import TrustSimplex.Proofs.Search.Exactness
import TrustSimplex.Proofs.Simplex.Selection
import TrustSimplex.Proofs.TrustRegion.Optimality

/-!
# The pole at the end of a run

A run ends with its pole for the solution and selects no more. The selection made it the best vertex, so it
is the best one still unless something came after: a trial that was stored for less than a tenth of its
promise, a new penalty, or a vertex of the first simplex that only its violation tells from the pole.
-/

namespace TrustSimplex

section
variable {K I O ε σ : Type} [EuclideanField K] {n m : Nat}

namespace Search

variable {q : Search K I O ε σ n m} {s : State K I O σ n m}

/-- What was last shown, and the values it left behind, put another vertex before the pole. -/
inductive Overtaken (s : State K I O σ n m) : Status → Prop
  | trial {evals : Nat} {p : Point K n} {snapshot : Snapshot I O}
      (hlast : s.ledger.events.getLast? = some (.evaluated evals .trial p snapshot))
      (h : Better s.penalty p.objective p.maxViolation s.simplex.poleSample.objective
        s.simplex.poleSample.maxViolation) : Overtaken s .converged
  | initial {evals : Nat} {p : Point K n} {snapshot : Snapshot I O}
      (hlast : s.ledger.events.getLast? = some (.evaluated evals .initial p snapshot)) {v : Vertex n}
      {r : Sample K (Snapshot I O) m} (hr : s.simplex.sample? v = some r)
      (hobjective : r.objective = s.simplex.poleSample.objective)
      (hviolation : r.maxViolation < s.simplex.poleSample.maxViolation) : Overtaken s .stoppedByObserver
  | penaltyIncreased {penalty : K} (hlast : s.ledger.events.getLast? = some (.penaltyIncreased penalty))
      (h : s.simplex.poleIsBeaten s.penalty = true) : Overtaken s .stoppedByObserver
  | radiusReduced {radius penalty : K} {evals : Nat} {best : Point K n}
      (hlast : s.ledger.events.getLast? = some (.radiusReduced radius penalty evals best))
      (h : s.simplex.poleIsBeaten s.penalty = true) : Overtaken s .stoppedByObserver

/-! ## The best vertex -/

def PoleBest (s : State K I O σ n m) : Prop :=
  ∀ v r, s.simplex.sample? v = some r → ¬ Better s.penalty r.objective r.maxViolation
    s.simplex.poleSample.objective s.simplex.poleSample.maxViolation

theorem poleBest_iff (hfull : s.simplex.others.size = n) :
    PoleBest s ↔ s.simplex.poleIsBeaten s.penalty ≠ true := by
  rw [Ne, Simplex.poleIsBeaten_iff, not_exists]
  have hpole : s.simplex.rank s.penalty .pole =
    rank s.penalty s.simplex.poleSample.objective s.simplex.poleSample.maxViolation := rfl
  constructor
  · intro h v
    obtain ⟨r, hr⟩ := Simplex.exists_sample hfull v
    rw [Simplex.rank_of_sample? hr, hpole, ← better_iff]
    exact h v r hr
  · intro h v r hr
    rw [better_iff, ← Simplex.rank_of_sample? hr, ← hpole]
    exact h v

/-! ## What holds between the phases -/

def TrialBetter (s : State K I O σ n m) (p : Point K n) : Prop :=
  (∃ evals snapshot, s.ledger.events.getLast? = some (.evaluated evals .trial p snapshot)) ∧
    Better s.penalty p.objective p.maxViolation s.simplex.poleSample.objective s.simplex.poleSample.maxViolation

structure Kept (s : State K I O σ n m) : Prop where
  full : s.simplex.others.size = n
  kept : ∀ p, TrialBetter s p →
    ∃ v r, s.simplex.sample? v = some r ∧ r.objective = p.objective ∧ r.maxViolation = p.maxViolation

/-- What a run has at each phase. A reduction of the radius knows what the selection has missed since, and at
the end the pole is the best vertex unless it was overtaken. -/
def Tracked : Phase K ε n → State K I O σ n m → Prop
  | .selectBest, s => Kept s
  | .shrinkRadius, s => Kept s ∧ (¬ PoleBest s → ∃ p, TrialBetter s p)
  | .finish status, s => PoleBest s ↔ ¬ Overtaken s status
  | .failed _, _ => True
  | .unresolved, _ => True

theorem Kept.of_last {event : Event K I O n} (hfull : s.simplex.others.size = n)
    (hlast : s.ledger.events.getLast? = some event)
    (hevent : ∀ evals p snapshot, event ≠ .evaluated evals .trial p snapshot) : Kept s := by
  refine ⟨hfull, fun p hp => ?_⟩
  obtain ⟨⟨evals, snapshot, htrial⟩, -⟩ := hp
  rw [hlast] at htrial
  exact absurd (Option.some.inj htrial) (hevent _ _ _)

/-- The selection leaves nothing better than the pole, the last trial included. -/
theorem Kept.selected (h : Kept s) : PoleBest s.selected ∧ ∀ p, ¬ TrialBetter s.selected p := by
  have hpole : s.selected.simplex.rank s.penalty .pole =
      s.simplex.rank s.penalty (s.simplex.selectBest s.penalty) := by
    show (s.simplex.pivotTo _).rank s.penalty .pole = _
    rw [Simplex.rank_pivotTo h.full, Equiv.swap_apply_left]
  refine ⟨fun v r hr => ?_, fun p hp => ?_⟩
  · rw [better_iff, not_lt, ← Simplex.rank_of_sample? hr]
    exact Simplex.rank_pole_pivotTo_selectBest_le h.full s.penalty v
  · have hlt : rank s.penalty p.objective p.maxViolation <
        s.simplex.rank s.penalty (s.simplex.selectBest s.penalty) := hpole ▸ better_iff.mp hp.2
    have hbefore : TrialBetter s p :=
      ⟨hp.1, better_iff.mpr (hlt.trans_le (s.simplex.rank_selectBest_le _ .pole))⟩
    obtain ⟨v, r, hr, hobjective, hviolation⟩ := h.kept p hbefore
    have hle := s.simplex.rank_selectBest_le s.penalty v
    rw [Simplex.rank_of_sample? hr, hobjective, hviolation] at hle
    exact absurd hlt hle.not_gt

/-! ## The end of a run -/

theorem Overtaken.of_evaluated {evals : Nat} {kind : Probe} {p : Point K n} {snapshot : Snapshot I O}
    (h : Overtaken s .stoppedByObserver)
    (hlast : s.ledger.events.getLast? = some (.evaluated evals kind p snapshot)) :
    kind = .initial ∧ ∃ v r, s.simplex.sample? v = some r ∧
      r.objective = s.simplex.poleSample.objective ∧ r.maxViolation < s.simplex.poleSample.maxViolation := by
  cases h with
  | initial hinitial hr hobjective hviolation =>
    rw [hlast] at hinitial
    cases hinitial
    exact ⟨rfl, _, _, hr, hobjective, hviolation⟩
  | penaltyIncreased hpenalty => rw [hlast] at hpenalty; cases hpenalty
  | radiusReduced hradius => rw [hlast] at hradius; cases hradius

theorem not_overtaken_of_last {evals : Nat} {kind : Probe} {p : Point K n} {snapshot : Snapshot I O}
    (hlast : s.ledger.events.getLast? = some (.evaluated evals kind p snapshot)) (hkind : kind ≠ .initial) :
    ¬ Overtaken s .stoppedByObserver := fun h =>
  hkind (h.of_evaluated hlast).1

/-- A run that the observer stops while it raises the penalty or reduces the radius. -/
theorem tracked_of_beaten (hfull : s.simplex.others.size = n)
    (hlast : (∃ penalty, s.ledger.events.getLast? = some (.penaltyIncreased penalty)) ∨
      ∃ radius penalty evals best, s.ledger.events.getLast? = some (.radiusReduced radius penalty evals best)) :
    PoleBest s ↔ ¬ Overtaken s .stoppedByObserver := by
  refine (poleBest_iff hfull).trans (not_congr ⟨fun hbeaten => ?_, fun hover => ?_⟩)
  · rcases hlast with ⟨penalty, hlast⟩ | ⟨radius, penalty, evals, best, hlast⟩
    · exact .penaltyIncreased hlast hbeaten
    · exact .radiusReduced hlast hbeaten
  · cases hover with
    | initial hinitial =>
      rcases hlast with ⟨penalty, hlast⟩ | ⟨radius, penalty, evals, best, hlast⟩
      · rw [hlast] at hinitial; cases hinitial
      · rw [hlast] at hinitial; cases hinitial
    | penaltyIncreased _ hbeaten => exact hbeaten
    | radiusReduced _ hbeaten => exact hbeaten

/-! ## The phases -/

theorem reduction_pos_iff {p : Prediction K} {r : Sample K (Snapshot I O) m} :
    0 < (reductions s p r).2 ↔ Better s.penalty r.objective r.maxViolation
      s.simplex.poleSample.objective s.simplex.poleSample.maxViolation := by
  have hobjective : s.simplex.objective .pole = s.simplex.poleSample.objective := rfl
  have hviolation : s.simplex.maxViolation .pole = s.simplex.poleSample.maxViolation := rfl
  unfold reductions Better
  rw [hobjective, hviolation]
  dsimp only
  by_cases h : s.penalty = 0 ∧ r.objective = s.simplex.poleSample.objective
  · rw [if_pos (by simpa using h)]
    simp [h.1, h.2]
  · rw [if_neg (by simpa using h), sub_pos]
    refine ⟨Or.inl, fun hbetter => hbetter.resolve_right ?_⟩
    rintro ⟨heq, hzero, -⟩
    rw [hzero, zero_mul, zero_mul, add_zero, add_zero] at heq
    exact h ⟨hzero, heq⟩

theorem tracked_accepted {g : Geometry K n} {step x : Vector K n} {p : Prediction K}
    {r : Sample K (Snapshot I O) m} {evals : Nat} {out : Phase K ε n × State K I O σ n m} (hexact : s.simplex.Exact)
    (hfull : s.simplex.others.size = n) (hbest : PoleBest s) (hstep : coords step ≠ 0)
    (hlast : s.ledger.events.getLast? =
      some (.evaluated evals .trial ⟨x, r.objective, r.maxViolation⟩ r.snapshot))
    (ho : Accepted s g step p r out) : Tracked out.1 out.2 := by
  have htrial : ∀ {t : State K I O σ n m} {p' : Point K n}, t.ledger = s.ledger → TrialBetter t p' →
      p'.objective = r.objective ∧ p'.maxViolation = r.maxViolation := by
    rintro t p' ht ⟨⟨evals', snapshot, hp'⟩, -⟩
    rw [ht, hlast] at hp'
    cases hp'
    exact ⟨rfl, rfl⟩
  have hkept : ∀ j : Fin n, Kept { s with simplex := (s.simplex.replace j step).store j r } := by
    intro j
    have hj : j.val < (s.simplex.replace j step).others.size := j.isLt.trans_eq hfull.symm
    refine ⟨(Simplex.size_others_store _ j r).trans hfull, fun p' hp' => ?_⟩
    obtain ⟨hobjective, hviolation⟩ := htrial rfl hp'
    refine ⟨.other j, r, ?_, hobjective.symm, hviolation.symm⟩
    show ((s.simplex.replace j step).store j r).sample? (.other j) = some r
    rw [Simplex.sample?_store _ hj, if_pos rfl]
  cases ho with
  -- a better trial replaces some vertex, so this one was not better
  | dropped hj =>
    refine ⟨⟨hfull, fun p' hp' => ?_⟩, fun hnot => absurd hbest hnot⟩
    obtain ⟨hobjective, hviolation⟩ := htrial rfl hp'
    have hbetter := hp'.2
    rw [hobjective, hviolation] at hbetter
    obtain ⟨j, hsome⟩ := hexact.exists_vertexToReplace g hstep (reduction_pos_iff.mpr hbetter)
    rw [hj] at hsome
    cases hsome
  | @gained j => exact hkept j
  -- the pole beats all it beat before, so only the trial can be better
  | @stored j =>
    refine ⟨hkept j, fun hnot => ?_⟩
    have hj : j.val < (s.simplex.replace j step).others.size := j.isLt.trans_eq hfull.symm
    by_contra hnone
    refine hnot fun v r' hr' hbetter => ?_
    have hr' : ((s.simplex.replace j step).store j r).sample? v = some r' := hr'
    rw [Simplex.sample?_store _ hj] at hr'
    by_cases hv : v = .other j
    · rw [if_pos hv] at hr'
      cases hr'
      exact hnone ⟨_, ⟨evals, _, hlast⟩, hbetter⟩
    · rw [if_neg hv] at hr'
      exact hbest v r' hr' hbetter

/-- A step that is not too short has at least half the radius. -/
theorem le_normSq_of_long {L : Linearization K n m} {radius : K} {fuel : Nat} {step : Step K n}
    (hr : 0 < radius) (hstep : L.solveWithin radius fuel = some step)
    (hlong : isTooShort radius step = false) : 0.25 * radius * radius ≤ normSq step.move := by
  by_cases hfull : step.isFull = true
  · obtain ⟨e, -, he, -, -, hreach⟩ := L.solveWithin_spec hr hstep
    have hreach := hreach hfull
    rw [he, ← normSq_eq] at hreach
    have := mul_pos hr hr
    linarith
  · unfold isTooShort at hlong
    rw [Bool.eq_false_iff.mpr hfull, Bool.not_false, Bool.true_and, decide_eq_false_iff_not, not_lt] at hlong
    exact hlong

theorem coords_ne_zero_of_long {L : Linearization K n m} {radius : K} {fuel : Nat} {step : Step K n}
    (hr : 0 < radius) (hstep : L.solveWithin radius fuel = some step)
    (hlong : isTooShort radius step = false) : coords step.move ≠ 0 := by
  intro hzero
  have hlength := le_normSq_of_long hr hstep hlong
  rw [normSq_eq, hzero, zero_dotProduct] at hlength
  have := mul_pos hr hr
  linarith

theorem tracked_iterated {fuel : Nat} {out : Phase K ε n × State K I O σ n m} (hexact : Exact s) (h : Kept s)
    (ho : Iterated q s fuel out) : Tracked out.1 out.2 := by
  obtain ⟨hbest, htrial⟩ := h.selected
  have hfull : s.surveyed.simplex.others.size = n := (s.simplex.size_others_pivotTo _).trans h.full
  cases ho with
  | inaccurate => exact iff_of_true hbest nofun
  | @repaired j step _ _ _ ha =>
    cases ha with
    | exhausted => exact iff_of_true hbest nofun
    | failed => trivial
    | stopped hp => exact iff_of_true hbest (not_overtaken_of_last (last_probe hp) nofun)
    | evaluated hp =>
      exact Kept.of_last ((Simplex.size_others_store _ j _).trans hfull) (last_probe hp) nofun
  | unresolved => trivial
  | tooShort => exact ⟨⟨hfull, fun p hp => absurd hp (htrial p)⟩, fun hnot => absurd hbest hnot⟩
  | stepped hstep hlong hstepped =>
    cases hstepped with
    | halted _ ha => exact tracked_of_beaten hfull (Or.inl ⟨_, Ledger.last_announce ha⟩)
    | overtaken _ ha => exact Kept.of_last hfull (Ledger.last_announce ha) nofun
    | @tried w _ hw ha =>
      have hready : w.simplex = s.surveyed.simplex ∧ PoleBest w := by
        cases hw with
        | kept => exact ⟨rfl, hbest⟩
        | raised _ _ hnot =>
          refine ⟨rfl, (poleBest_iff ?_).mpr ?_⟩
          · exact hfull
          · exact Bool.eq_false_iff.mp hnot
      obtain ⟨hsame, hbest⟩ := hready
      cases ha with
      | exhausted => exact iff_of_true hbest nofun
      | failed => trivial
      | stopped hp => exact iff_of_true hbest (not_overtaken_of_last (last_probe hp) nofun)
      | @evaluated sample ledger hp =>
        exact tracked_accepted (s := { w with repairArmed := false, ledger }) (hsame ▸ hexact.selected.1)
          (hsame ▸ hfull) hbest (coords_ne_zero_of_long hexact.2 hstep hlong) (last_probe hp)
          (accepted _ _ _ _ _)

theorem tracked_shrunk {out : Phase K ε n × State K I O σ n m} (h : Tracked (.shrinkRadius : Phase K ε n) s)
    (ho : Shrunk q s out) : Tracked out.1 out.2 := by
  obtain ⟨hkept, hmissed⟩ := h
  cases ho with
  | rearmed => exact ⟨hkept.full, hkept.kept⟩
  | converged =>
    constructor
    · intro hbest hover
      cases hover with
      | trial hlast hbetter =>
        obtain ⟨v, r, hr, hobjective, hviolation⟩ := hkept.kept _ ⟨⟨_, _, hlast⟩, hbetter⟩
        rw [← hobjective, ← hviolation] at hbetter
        exact hbest v r hr hbetter
    · intro hnot
      by_contra hbest
      obtain ⟨p, ⟨evals, snapshot, hlast⟩, hbetter⟩ := hmissed hbest
      exact hnot (.trial hlast hbetter)
  | halted _ _ ha => exact tracked_of_beaten hkept.full (Or.inr ⟨_, _, _, _, Ledger.last_announce ha⟩)
  | reduced _ _ ha => exact Kept.of_last hkept.full (Ledger.last_announce ha) nofun

/-! ## The first simplex -/

structure Lowest (s : State K I O σ n m) : Prop where
  penalty : s.penalty = 0
  least : ∀ r ∈ s.simplex.others, s.simplex.poleSample.objective ≤ r.objective
  last : ∃ evals p snapshot, s.ledger.events.getLast? = some (.evaluated evals .initial p snapshot)

theorem Lowest.extend (h : Lowest s) {sample : Sample K (Snapshot I O) m} {answer : Option Action}
    {ledger : Ledger K I O σ n}
    (hp : q.probe s.ledger s.simplex.nextInitial .initial = (.ok (sample, answer), ledger)) :
    Lowest { s with ledger, simplex := s.simplex.extend sample } := by
  refine ⟨h.penalty, fun r hr => ?_, _, _, _, last_probe hp⟩
  have hr : r ∈ (s.simplex.extend sample).others := hr
  show (s.simplex.extend sample).poleSample.objective ≤ r.objective
  have hpole : s.simplex.objective .pole = s.simplex.poleSample.objective := rfl
  unfold Simplex.extend at hr ⊢
  dsimp only at hr ⊢
  by_cases hle : s.simplex.objective .pole ≤ sample.objective
  · rw [if_pos hle] at hr ⊢
    rcases Array.mem_push.mp hr with hr | rfl
    · exact h.least r hr
    · exact hle
  · rw [if_neg hle] at hr ⊢
    have hlt : sample.objective ≤ s.simplex.poleSample.objective := (not_le.mp hle).le
    rcases Array.mem_push.mp hr with hr | rfl
    · exact hlt.trans (h.least r hr)
    · exact hlt

theorem Lowest.tracked (h : Lowest s) : PoleBest s ↔ ¬ Overtaken s .stoppedByObserver := by
  obtain ⟨evals, p, snapshot, hlast⟩ := h.last
  constructor
  · intro hbest hover
    obtain ⟨-, v, r, hr, hobjective, hviolation⟩ := hover.of_evaluated hlast
    refine hbest v r hr (Or.inr ⟨?_, h.penalty, hviolation⟩)
    rw [h.penalty, hobjective, zero_mul, zero_mul]
  · intro hnot v r hr hbetter
    have hle : s.simplex.poleSample.objective ≤ r.objective := by
      cases v with
      | pole => cases hr; exact le_refl _
      | other j => exact h.least r (Array.mem_of_getElem? hr)
    unfold Better at hbetter
    rw [h.penalty, zero_mul, zero_mul, add_zero, add_zero] at hbetter
    rcases hbetter with hlt | ⟨heq, -, hviolation⟩
    · exact absurd hlt hle.not_gt
    · exact hnot (.initial hlast hr heq hviolation)

theorem tracked_start {x : Vector K n} {memory : σ} {r : Run K I O ε σ n m} (h : q.start x memory = .ok r) :
    Tracked r.phase r.state := by
  have hfirst : ∀ {first : Sample K (Snapshot I O) m} {answer ledger},
      q.probe (.start memory) x .initial = (.ok (first, answer), ledger) → Lowest (q.firstState x first ledger) :=
    fun hp => ⟨rfl, nofun, _, _, _, last_probe hp⟩
  have hstarted : Started q x memory Lowest r := started hfirst (fun h _ hp => h.extend hp) h
  cases hstarted with
  | stopped hp => exact (hfirst hp).tracked
  | built hbuilt =>
    cases hbuilt with
    | failed => trivial
    | stopped hs _ hp => exact (hs.extend hp).tracked
    | complete hs hfull =>
      obtain ⟨evals, p, snapshot, hlast⟩ := hs.last
      exact Kept.of_last hfull hlast nofun

theorem tracked_follow {x : Vector K n} {memory : σ} {r : Run K I O ε σ n m} (h : q.start x memory = .ok r)
    (fuel count : Nat) : Tracked (q.follow fuel r count).phase (q.follow fuel r count).state := by
  have hiterate : ∀ s, Exact s ∧ Tracked (.selectBest : Phase K ε n) s →
      Exact (q.iterate s fuel).2 ∧ Tracked (q.iterate s fuel).1 (q.iterate s fuel).2 := by
    intro s h
    have ho : Iterated q s fuel (q.iterate s fuel) := iterated s fuel
    exact ⟨(h.1.iterated ho).1, tracked_iterated h.1 h.2 ho⟩
  have hshrink : ∀ s, Exact s ∧ Tracked (.shrinkRadius : Phase K ε n) s →
      Exact (q.shrink s).2 ∧ Tracked (q.shrink s).1 (q.shrink s).2 := by
    intro s h
    have ho : Shrunk q s (q.shrink s) := shrunk s
    exact ⟨(h.1.shrunk ho).1, tracked_shrunk h.2 ho⟩
  exact (follow_invariant (P := fun phase s => Exact s ∧ Tracked phase s) hiterate hshrink count
    ⟨(reached_start h).1.exact, tracked_start h⟩).2

end Search

end

end TrustSimplex
