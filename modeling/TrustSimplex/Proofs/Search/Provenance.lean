import TrustSimplex.Proofs.Search.Solution
import TrustSimplex.Proofs.Simplex.Position

/-!
# Where the samples come from

Between the phases of a run every vertex sits at a point that was evaluated and shown, and its sample is the
one of that evaluation. The pole keeps this to the end, so a solution is a point of the trace with its
objective, its violation and its snapshot.
-/

namespace TrustSimplex.Search

section
variable {K I O ε σ : Type} [EuclideanField K] {n m : Nat} {q : Search K I O ε σ n m}
variable {s : State K I O σ n m} {l l' : Ledger K I O σ n} {x : Vector K n} {r : Sample K (Snapshot I O) m}

/-! ## Samples on record -/

def Recorded (q : Search K I O ε σ n m) (l : Ledger K I O σ n) (x : Vector K n)
    (r : Sample K (Snapshot I O) m) : Prop :=
  ∃ e evals kind, evaluate q.model q.problem x = .ok e ∧ r = e.sample ∧
    Event.evaluated evals kind ⟨x, e.objective, e.maxViolation⟩ e.snapshot ∈ l.events

theorem Recorded.later (h : Recorded q l x r) {shown : List (Event K I O n)} (hl : l'.events = l.events ++ shown) :
    Recorded q l' x r := by
  obtain ⟨e, evals, kind, he, hr, hmem⟩ := h
  refine ⟨e, evals, kind, he, hr, ?_⟩
  rw [hl]
  exact List.mem_append_left _ hmem

theorem Probed.recorded {kind : Probe} {answer : Option Action} (h : Probed q l x kind r answer l') :
    Recorded q l' x r := by
  obtain ⟨e, he, rfl⟩ := h.evaluation
  refine ⟨e, l'.evals, kind, he, rfl, ?_⟩
  rw [h.events]
  exact List.mem_append_right _ (List.mem_singleton.mpr rfl)

structure Located (q : Search K I O ε σ n m) (l : Ledger K I O σ n) (s : Simplex K (Snapshot I O) n m) : Prop where
  full : s.others.size = n
  everywhere : s.Everywhere (Recorded q l)

section
variable {t : Simplex K (Snapshot I O) n m}

theorem Located.later (h : Located q l t) {shown : List (Event K I O n)} (hl : l'.events = l.events ++ shown) :
    Located q l' t :=
  ⟨h.full, h.everywhere.imp fun _ _ hr => hr.later hl⟩

theorem Located.pivotTo (h : Located q l t) (v : Vertex n) : Located q l (t.pivotTo v) :=
  ⟨(t.size_others_pivotTo v).trans h.full, h.everywhere.pivotTo h.full v⟩

theorem Located.replace_store (h : Located q l t) (j : Fin n) {d : Vector K n} {kind : Probe}
    {answer : Option Action} (hp : Probed q l (t.offset d) kind r answer l') :
    Located q l' ((t.replace j d).store j r) :=
  ⟨(Simplex.size_others_store _ j r).trans h.full,
    (h.later hp.events).everywhere.replace_store h.full j hp.recorded⟩

end

/-! ## The phases -/

def Sourced (q : Search K I O ε σ n m) : Phase K ε n → State K I O σ n m → Prop
  | .selectBest, s => Located q s.ledger s.simplex
  | .shrinkRadius, s => Located q s.ledger s.simplex
  | .finish _, s => Recorded q s.ledger s.simplex.pole s.simplex.poleSample
  | .failed _, _ => True
  | .unresolved, _ => True

theorem sourced_accepted {g : Geometry K n} {step : Vector K n} {p : Prediction K} {kind : Probe}
    {answer : Option Action} {out : Phase K ε n × State K I O σ n m} (h : Located q l s.simplex)
    (hp : Probed q l (s.simplex.offset step) kind r answer s.ledger) (ho : Accepted s g step p r out) :
    Sourced q out.1 out.2 := by
  cases ho with
  | dropped => exact h.later hp.events
  | gained => exact h.replace_store _ hp
  | stored => exact h.replace_store _ hp

theorem sourced_iterated {fuel : Nat} {out : Phase K ε n × State K I O σ n m} (h : Located q s.ledger s.simplex)
    (ho : Iterated q s fuel out) : Sourced q out.1 out.2 := by
  have ht : Located q s.ledger s.selected.simplex := h.pivotTo _
  have hpole := ht.everywhere.pole
  cases ho with
  | inaccurate =>
    exact hpole.later ((Ledger.events_add_inaccurate ..).trans (List.append_nil _).symm)
  | repaired _ _ ha =>
    -- a vertex was moved and has no sample yet, but the pole is not that vertex
    cases ha with
    | exhausted => exact hpole
    | failed => trivial
    | stopped hp => exact hpole.later (probed hp).events
    | evaluated hp => exact ht.replace_store _ (probed hp)
  | unresolved => trivial
  | tooShort => exact ht
  | stepped _ _ hstepped =>
    cases hstepped with
    | halted _ ha => exact hpole.later (Ledger.announced ha).events
    | overtaken _ ha => exact ht.later (Ledger.announced ha).events
    | @tried w _ hw ha =>
      have hsame : w.simplex = s.selected.simplex := by cases hw <;> rfl
      have hready : Located q w.ledger w.simplex := by
        rw [hsame]
        cases hw with
        | kept => exact ht
        | raised _ hshown _ => exact ht.later (Ledger.announced hshown).events
      cases ha with
      | exhausted => exact hready.everywhere.pole
      | failed => trivial
      | stopped hp => exact hready.everywhere.pole.later (probed hp).events
      | @evaluated sample ledger hp =>
        exact sourced_accepted (s := { w with repairArmed := false, ledger }) hready (probed hp)
          (accepted _ _ _ _ _)

theorem sourced_shrunk {out : Phase K ε n × State K I O σ n m} (h : Located q s.ledger s.simplex)
    (ho : Shrunk q s out) : Sourced q out.1 out.2 := by
  cases ho with
  | rearmed => exact h
  | converged => exact h.everywhere.pole
  | halted _ _ ha => exact h.everywhere.pole.later (Ledger.announced ha).events
  | reduced _ _ ha => exact h.later (Ledger.announced ha).events

/-! ## The first simplex -/

structure Rooted (q : Search K I O ε σ n m) (s : State K I O σ n m) : Prop where
  grown : Grown q s
  axes : s.simplex.AxesAhead s.radius
  everywhere : s.simplex.Everywhere (Recorded q s.ledger)

theorem rooted_first {memory : σ} {answer : Option Action}
    (hp : q.probe (.start memory) x .initial = (.ok (r, answer), l)) : Rooted q (q.firstState x r l) :=
  ⟨.first x r l, Simplex.axesAhead_start x r, Simplex.everywhere_start (probed hp).recorded⟩

theorem Rooted.extend (h : Rooted q s) (hbuilding : s.simplex.isBuilding = true) {answer : Option Action}
    (hp : q.probe s.ledger s.simplex.nextInitial .initial = (.ok (r, answer), l)) :
    Rooted q { s with ledger := l, simplex := s.simplex.extend r } := by
  have hgrowing := h.grown.growing.1
  refine ⟨h.grown.extend hbuilding r l, h.axes.extend hgrowing hbuilding r, ?_⟩
  have hlater : s.simplex.Everywhere (Recorded q l) :=
    h.everywhere.imp fun _ _ hr => hr.later (probed hp).events
  exact hlater.extend h.axes hgrowing hbuilding (probed hp).recorded

theorem sourced_start {memory : σ} {run : Run K I O ε σ n m} (h : q.start x memory = .ok run) :
    Sourced q run.phase run.state := by
  have hstarted : Started q x memory (Rooted q) run :=
    started rooted_first (fun hs hbuilding hp => hs.extend hbuilding hp) h
  cases hstarted with
  | stopped hp => exact (rooted_first hp).everywhere.pole
  | built hbuilt =>
    cases hbuilt with
    | failed => trivial
    | stopped hs hbuilding hp => exact (hs.extend hbuilding hp).everywhere.pole
    | complete hs hfull => exact ⟨hfull, hs.everywhere⟩

theorem sourced_follow {memory : σ} {run : Run K I O ε σ n m} (h : q.start x memory = .ok run) (fuel count : Nat) :
    Sourced q (q.follow fuel run count).phase (q.follow fuel run count).state :=
  follow_invariant (P := Sourced q) (fun s hs => sourced_iterated hs (iterated s fuel))
    (fun s hs => sourced_shrunk hs (shrunk s)) count (sourced_start h)

/-! ## Vertices and solutions -/

/-- Between two phases each vertex sits at the point of an evaluation that was shown and has the sample of it,
and a solution is such a point with the snapshot of its evaluation. -/
theorem vertices_evaluated (q : Search K I O ε σ n m) (x : Vector K n) (memory : σ) :
    (∀ r fuel count phase s, q.start x memory = .ok r → q.follow fuel r count = ⟨phase, s⟩ →
      phase = .selectBest ∨ phase = .shrinkRadius → ∀ v : Vertex n, ∃ sample e evals kind,
        s.simplex.sample? v = some sample ∧ evaluate q.model q.problem (s.simplex.position v) = .ok e ∧
        sample = e.sample ∧
        Event.evaluated evals kind ⟨s.simplex.position v, e.objective, e.maxViolation⟩ e.snapshot ∈
          s.ledger.events) ∧
    ∀ fuel o solution, q.minimizeWithin x memory fuel = some o → o.result = .ok solution →
      ∃ e evals kind, evaluate q.model q.problem solution.point.x = .ok e ∧
        solution.point.objective = e.objective ∧ solution.point.maxViolation = e.maxViolation ∧
        solution.snapshot = e.snapshot ∧
        Event.evaluated evals kind solution.point solution.snapshot ∈ o.ledger.events := by
  constructor
  · intro r fuel count phase s hr hs hphase v
    have hsourced := sourced_follow hr fuel count
    rw [hs] at hsourced
    have hlocated : Located q s.ledger s.simplex := by
      rcases hphase with rfl | rfl
      · exact hsourced
      · exact hsourced
    obtain ⟨sample, hsample⟩ := Simplex.exists_sample hlocated.full v
    obtain ⟨e, evals, kind, he, hr, hmem⟩ := hlocated.everywhere v sample hsample
    exact ⟨sample, e, evals, kind, hsample, he, hr, hmem⟩
  · intro fuel o solution ho hok
    obtain ⟨r, s, hr, hs, hfinished⟩ := finished_of_minimizeWithin ho hok
    have hsourced := sourced_follow hr fuel fuel
    rw [hs] at hsourced
    obtain ⟨e, evals, kind, he, hsample, hmem⟩ := hsourced
    have hpoint : solution.point = ⟨s.simplex.pole, e.objective, e.maxViolation⟩ := by
      rw [hfinished.point, Simplex.best, Simplex.offset_zeroVec]
      exact congrArg₂ (Point.mk s.simplex.pole) (congrArg Sample.objective hsample)
        (congrArg Sample.maxViolation hsample)
    have hsnapshot : solution.snapshot = e.snapshot :=
      hfinished.snapshot.trans (congrArg Sample.snapshot hsample)
    rw [hfinished.events, hpoint, hsnapshot]
    exact ⟨e, evals, kind, he, rfl, rfl, rfl, List.mem_append_left _ hmem⟩

end

theorem vertices_evaluated_cubic : ∃ r o solution, unwatched.start #v[0] () = .ok r ∧
    unwatched.follow 4 r 0 = ⟨.selectBest, r.state⟩ ∧ unwatched.minimizeWithin #v[0] () 4 = some o ∧
    o.result = .ok solution ∧
    (∃ sample e evals kind, r.state.simplex.sample? (.other 0) = some sample ∧
      evaluate unwatched.model unwatched.problem (r.state.simplex.position (.other 0)) = .ok e ∧
      sample = e.sample ∧
      Event.evaluated evals kind ⟨r.state.simplex.position (.other 0), e.objective, e.maxViolation⟩ e.snapshot ∈
        r.state.ledger.events) ∧
    ∃ e evals kind, evaluate unwatched.model unwatched.problem solution.point.x = .ok e ∧
      solution.point.objective = e.objective ∧ solution.point.maxViolation = e.maxViolation ∧
      solution.snapshot = e.snapshot ∧
      Event.evaluated evals kind solution.point solution.snapshot ∈ o.ledger.events := by
  obtain ⟨r, e, hr, he, -⟩ := follow_cubic
  have ho := minimizeWithin_of_finish hr he
  have hfirst : r.phase = .selectBest := by
    cases (start_cubic fun _ _ _ _ => rfl).symm.trans hr
    rfl
  have hstay : unwatched.follow 4 r 0 = ⟨.selectBest, r.state⟩ := by
    rw [← hfirst]
    rfl
  exact ⟨r, _, _, hr, hstay, ho, rfl,
    (vertices_evaluated unwatched #v[0] ()).1 r 4 0 _ _ hr hstay (Or.inl rfl) (.other 0),
    (vertices_evaluated unwatched #v[0] ()).2 4 _ _ ho rfl⟩

end TrustSimplex.Search
