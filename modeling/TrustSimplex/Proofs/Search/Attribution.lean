import TrustSimplex.Proofs.Search.Solution
import TrustSimplex.Proofs.Simplex.Stores

/-!
# Which evaluation a vertex holds

Whatever the arithmetic returns, every evaluated vertex holds one evaluation of the trace and no two vertices
hold the same. A vertex that is added or stored takes the evaluation that was just shown, which no other can
hold yet; all else only exchanges what the vertices hold. This goes for the values and for the snapshots, kept
together or apart, so a solution has both from one evaluation.
-/

namespace TrustSimplex.Search

section
variable {α I O ε σ : Type} [Scalar α] {n m : Nat} {q : Search α I O ε σ n m}
variable {s : State α I O σ n m} {l l' : Ledger α I O σ n} {x : Vector α n} {r : Sample α (Snapshot I O) m}
variable {kind : Probe} {answer : Option Action} {i : Nat}

/-! ## Samples by their place in the trace -/

def ShownAt (q : Search α I O ε σ n m) (l : Ledger α I O σ n) (i : Nat) (r : Sample α (Snapshot I O) m) : Prop :=
  ∃ x evals kind, l.events[i]? = some (evaluatedAt evals kind x r) ∧
    ∃ e, evaluate q.model q.problem x = .ok e ∧ r = e.sample

theorem ShownAt.lt (h : ShownAt q l i r) : i < l.events.length := by
  obtain ⟨_, _, _, hi, -⟩ := h
  exact (List.getElem?_eq_some_iff.mp hi).1

theorem ShownAt.later (h : ShownAt q l i r) {shown : List (Event α I O n)} (hl : l'.events = l.events ++ shown) :
    ShownAt q l' i r := by
  have hlt := h.lt
  obtain ⟨x, evals, kind, hi, he⟩ := h
  refine ⟨x, evals, kind, ?_, he⟩
  rw [hl, List.getElem?_append_left hlt]
  exact hi

theorem Probed.shownAt (h : Probed q l x kind r answer l') : ShownAt q l' l.events.length r := by
  refine ⟨x, l'.evals, kind, ?_, h.evaluation⟩
  rw [h.events]
  exact List.getElem?_concat_length

/-! ## What the vertices hold -/

structure SourcedFrom (q : Search α I O ε σ n m) (l : Ledger α I O σ n)
    (samples : Vertex n → Option (Sample α (Snapshot I O) m)) (source : Vertex n → Nat) : Prop where
  shown : ∀ v r, samples v = some r → ShownAt q l (source v) r
  injective : Set.InjOn source {v | (samples v).isSome}

section
variable {samples : Vertex n → Option (Sample α (Snapshot I O) m)} {source : Vertex n → Nat}

theorem SourcedFrom.later (h : SourcedFrom q l samples source) {shown : List (Event α I O n)}
    (hl : l'.events = l.events ++ shown) : SourcedFrom q l' samples source :=
  ⟨fun v r hr => (h.shown v r hr).later hl, h.injective⟩

theorem SourcedFrom.permute (h : SourcedFrom q l samples source) (p : Equiv.Perm (Vertex n)) :
    SourcedFrom q l (samples ∘ p) (source ∘ p) :=
  ⟨fun v r hr => h.shown (p v) r hr,
    fun _ hv _ hw hsame => p.injective (h.injective hv hw hsame)⟩

theorem SourcedFrom.update (h : SourcedFrom q l samples source) (hp : Probed q l x kind r answer l') (v : Vertex n) :
    SourcedFrom q l' (Function.update samples v (some r)) (Function.update source v l.events.length) := by
  -- the sources of all other vertices are older than the event just shown, so none of them is that event
  have hold : ∀ w, w ≠ v → (Function.update samples v (some r) w).isSome → (samples w).isSome ∧
      source w < l.events.length := by
    intro w hwv hw
    rw [Function.update_of_ne hwv] at hw
    obtain ⟨r', hr⟩ := Option.isSome_iff_exists.mp hw
    exact ⟨hw, (h.shown w r' hr).lt⟩
  constructor
  · intro w r' hr
    by_cases hwv : w = v
    · subst hwv
      rw [Function.update_self] at hr ⊢
      cases hr
      exact hp.shownAt
    · rw [Function.update_of_ne hwv] at hr ⊢
      exact (h.shown w r' hr).later hp.events
  · intro w hw w' hw' hsame
    by_cases hwv : w = v
    · by_cases hwv' : w' = v
      · exact hwv.trans hwv'.symm
      · rw [hwv, Function.update_self, Function.update_of_ne hwv'] at hsame
        exact absurd hsame (hold w' hwv' hw').2.ne'
    · by_cases hwv' : w' = v
      · rw [hwv', Function.update_self, Function.update_of_ne hwv] at hsame
        exact absurd hsame (hold w hwv hw).2.ne
      · rw [Function.update_of_ne hwv, Function.update_of_ne hwv'] at hsame
        exact h.injective (hold w hwv hw).1 (hold w' hwv' hw').1 hsame

end

/-- The simplex came by its samples in moves, which its stores made too, and each vertex holds an evaluation of
its own. -/
def Attributed (q : Search α I O ε σ n m) (l : Ledger α I O σ n) (s : Simplex α (Snapshot I O) n m) : Prop :=
  (∃ t, s.Stored t) ∧ ∃ source, SourcedFrom q l s.sample? source

section
variable {t : Simplex α (Snapshot I O) n m}

theorem Attributed.later (h : Attributed q l t) {shown : List (Event α I O n)}
    (hl : l'.events = l.events ++ shown) : Attributed q l' t := by
  obtain ⟨hstored, source, hsource⟩ := h
  exact ⟨hstored, source, hsource.later hl⟩

theorem Attributed.of_events (h : Attributed q l t) (hl : l'.events = l.events) : Attributed q l' t :=
  h.later (hl.trans (List.append_nil _).symm)

theorem attributed_start (hp : Probed q l x kind r answer l') (radius : α) :
    Attributed q l' (.start x radius r) := by
  have hnone : SourcedFrom q l (fun _ : Vertex n => none) fun _ => 0 := ⟨nofun, fun _ hv => by cases hv⟩
  have hsamples : (Simplex.start x radius r : Simplex α (Snapshot I O) n m).sample? =
      Function.update (fun _ => none) .pole (some r) := by
    funext v
    cases v with
    | pole => rw [Function.update_self]; rfl
    | other j => rfl
  exact ⟨⟨_, .start x radius r⟩, _, hsamples ▸ hnone.update hp .pole⟩

theorem Attributed.extend (h : Attributed q l t) (hbuilding : t.isBuilding = true)
    (hp : Probed q l x kind r answer l') : Attributed q l' (t.extend r) := by
  obtain ⟨⟨stores, hstored⟩, source, hsource⟩ := h
  obtain ⟨j, hj⟩ : ∃ j : Fin n, t.others.size = j := ⟨⟨_, of_decide_eq_true hbuilding⟩, rfl⟩
  -- the new sample goes to vertex `j`, and from there to the pole if its objective is lower
  have hpermuted := (hsource.update hp (.other j)).permute
    (Equiv.swap .pole (if t.objective .pole ≤ r.objective then .pole else .other j))
  rw [← Simplex.sample?_extend hj] at hpermuted
  exact ⟨⟨_, hstored.extend hj r⟩, _, hpermuted⟩

theorem Attributed.pivotTo (h : Attributed q l t) (hfull : t.others.size = n) (v : Vertex n) :
    Attributed q l (t.pivotTo v) := by
  obtain ⟨⟨stores, hstored⟩, source, hsource⟩ := h
  have hpermuted := hsource.permute (Equiv.swap .pole v)
  rw [← Simplex.sample?_pivotTo_eq hfull] at hpermuted
  exact ⟨⟨_, hstored.pivotTo hfull v⟩, _, hpermuted⟩

theorem Attributed.replace (h : Attributed q l t) (j : Fin n) (d : Vector α n) : Attributed q l (t.replace j d) := by
  obtain ⟨⟨stores, hstored⟩, source, hsource⟩ := h
  exact ⟨⟨_, hstored.replace j d⟩, source, hsource.shown, hsource.injective⟩

theorem Attributed.store (h : Attributed q l t) {j : Fin n} (hj : j < t.others.size)
    (hp : Probed q l x kind r answer l') : Attributed q l' (t.store j r) := by
  obtain ⟨⟨stores, hstored⟩, source, hsource⟩ := h
  have hupdated := hsource.update hp (.other j)
  rw [← Simplex.sample?_store_eq hj] at hupdated
  exact ⟨⟨_, hstored.store hj r⟩, _, hupdated⟩

end

/-! ## The phases -/

structure Owned (q : Search α I O ε σ n m) (phase : Phase α ε n) (s : State α I O σ n m) : Prop where
  attributed : Attributed q s.ledger s.simplex
  full : phase.isActive = true → s.simplex.others.size = n

theorem owned_attempted {out : Phase α ε n × State α I O σ n m}
    {next : Sample α (Snapshot I O) m → Ledger α I O σ n → Phase α ε n × State α I O σ n m}
    (ho : Attempted q s x kind next out) (h : Attributed q s.ledger s.simplex)
    (hnext : ∀ sample ledger, Probed q s.ledger x kind sample none ledger →
      Owned q (next sample ledger).1 (next sample ledger).2) : Owned q out.1 out.2 := by
  cases ho with
  | exhausted => exact ⟨h, nofun⟩
  | failed hp => exact ⟨h.of_events (events_of_probe_error hp), nofun⟩
  | stopped hp => exact ⟨h.later (probed hp).events, nofun⟩
  | evaluated hp => exact hnext _ _ (probed hp)

theorem owned_accepted {g : Geometry α n} {step : Vector α n} {p : Prediction α}
    {out : Phase α ε n × State α I O σ n m} (h : Attributed q l s.simplex) (hfull : s.simplex.others.size = n)
    (hp : Probed q l x kind r answer s.ledger) (ho : Accepted s g step p r out) : Owned q out.1 out.2 := by
  have hstore : ∀ j, Attributed q s.ledger ((s.simplex.replace j step).store j r) :=
    fun j => (h.replace j step).store (j.isLt.trans_eq hfull.symm) hp
  have hsize : ∀ j, ((s.simplex.replace j step).store j r).others.size = n :=
    fun j => (Simplex.size_others_store _ j r).trans hfull
  cases ho with
  | dropped => exact ⟨h.later hp.events, fun _ => hfull⟩
  | gained => exact ⟨hstore _, fun _ => hsize _⟩
  | stored => exact ⟨hstore _, fun _ => hsize _⟩

theorem owned_iterated {fuel : Nat} {out : Phase α ε n × State α I O σ n m}
    (h : Owned q (.selectBest : Phase α ε n) s) (ho : Iterated q s fuel out) : Owned q out.1 out.2 := by
  have hfull := h.full rfl
  have ht : Attributed q s.ledger s.selected.simplex := h.attributed.pivotTo hfull _
  have hsize : s.selected.simplex.others.size = n := (Simplex.size_others_pivotTo _ _).trans hfull
  cases ho with
  | inaccurate => exact ⟨ht.of_events (Ledger.events_add_inaccurate ..), nofun⟩
  | @repaired j step _ _ _ ha =>
    -- the vertex that was moved keeps its old sample until the new one is stored
    have hreplaced := ht.replace j step
    exact owned_attempted ha hreplaced fun sample ledger hp =>
      ⟨hreplaced.store (j.isLt.trans_eq hsize.symm) hp, fun _ => (Simplex.size_others_store _ j sample).trans hsize⟩
  | unresolved => exact ⟨ht, nofun⟩
  | tooShort => exact ⟨ht, fun _ => hsize⟩
  | stepped _ _ hstepped =>
    cases hstepped with
    | halted _ ha => exact ⟨ht.later (Ledger.announced ha).events, nofun⟩
    | overtaken _ ha => exact ⟨ht.later (Ledger.announced ha).events, fun _ => hsize⟩
    | @tried w _ hw ha =>
      have hsame : w.simplex = s.selected.simplex := by cases hw <;> rfl
      have hready : Attributed q w.ledger w.simplex := by
        rw [hsame]
        cases hw with
        | kept => exact ht
        | raised _ hshown _ => exact ht.later (Ledger.announced hshown).events
      exact owned_attempted ha hready fun sample ledger hp =>
        owned_accepted (s := { w with repairArmed := false, ledger }) hready (hsame ▸ hsize) hp
          (accepted _ _ _ _ _)

theorem owned_shrunk {out : Phase α ε n × State α I O σ n m} (h : Owned q (.shrinkRadius : Phase α ε n) s)
    (ho : Shrunk q s out) : Owned q out.1 out.2 := by
  have hfull := h.full rfl
  cases ho with
  | rearmed => exact ⟨h.attributed, fun _ => hfull⟩
  | converged => exact ⟨h.attributed, nofun⟩
  | halted _ _ ha => exact ⟨h.attributed.later (Ledger.announced ha).events, nofun⟩
  | reduced _ _ ha => exact ⟨h.attributed.later (Ledger.announced ha).events, fun _ => hfull⟩

/-! ## The first simplex -/

inductive Begun (q : Search α I O ε σ n m) (x : Vector α n) (memory : σ) : State α I O σ n m → Prop
  | first {first : Sample α (Snapshot I O) m} {answer : Option Action} {ledger : Ledger α I O σ n}
      (hp : q.probe (.start memory) x .initial = (.ok (first, answer), ledger)) :
      Begun q x memory (q.firstState x first ledger)
  | extend {s : State α I O σ n m} {sample : Sample α (Snapshot I O) m} {answer : Option Action}
      {ledger : Ledger α I O σ n} (h : Begun q x memory s) (hbuilding : s.simplex.isBuilding = true)
      (hp : q.probe s.ledger s.simplex.nextInitial .initial = (.ok (sample, answer), ledger)) :
      Begun q x memory { s with ledger, simplex := s.simplex.extend sample }

/-- The states of a run from `x`: those in which it grows its first simplex, and those between its phases. -/
def Visited (q : Search α I O ε σ n m) (x : Vector α n) (memory : σ) (s : State α I O σ n m) : Prop :=
  Begun q x memory s ∨ ∃ r fuel count, q.start x memory = .ok r ∧ s = (q.follow fuel r count).state

/-- A run starts from a simplex that was grown, and a failure before that shows nothing more. -/
theorem begun_start {memory : σ} {run : Run α I O ε σ n m} (h : q.start x memory = .ok run) :
    ∃ s, Begun q x memory s ∧ run.state = { s with ledger := run.state.ledger } ∧
      run.state.ledger.events = s.ledger.events := by
  have hstarted : Started q x memory (Begun q x memory) run := started .first (fun hs => hs.extend) h
  cases hstarted with
  | stopped hp => exact ⟨_, .first hp, rfl, rfl⟩
  | built hbuilt =>
    cases hbuilt with
    | failed hs _ hp => exact ⟨_, hs, rfl, events_of_probe_error hp⟩
    | stopped hs hbuilding hp => exact ⟨_, hs.extend hbuilding hp, rfl, rfl⟩
    | complete hs => exact ⟨_, hs, rfl, rfl⟩

theorem Begun.attributed {memory : σ} (h : Begun q x memory s) : Attributed q s.ledger s.simplex := by
  induction h with
  | first hp => exact attributed_start (probed hp) _
  | extend _ hbuilding hp ih => exact ih.extend hbuilding (probed hp)

theorem full_start {memory : σ} {run : Run α I O ε σ n m} (h : q.start x memory = .ok run)
    (hactive : run.phase.isActive = true) : run.state.simplex.others.size = n := by
  have hstarted : Started q x memory (fun _ => True) run := started (fun _ => trivial) (fun _ _ _ => trivial) h
  cases hstarted with
  | stopped => cases hactive
  | built hbuilt =>
    cases hbuilt with
    | failed => cases hactive
    | stopped => cases hactive
    | complete _ hfull => exact hfull

theorem owned_start {memory : σ} {run : Run α I O ε σ n m} (h : q.start x memory = .ok run) :
    Owned q run.phase run.state := by
  obtain ⟨s, hs, hstate, hevents⟩ := begun_start h
  refine ⟨?_, full_start h⟩
  rw [hstate]
  exact hs.attributed.of_events hevents

theorem owned_follow {memory : σ} {run : Run α I O ε σ n m} (h : q.start x memory = .ok run) (fuel count : Nat) :
    Owned q (q.follow fuel run count).phase (q.follow fuel run count).state :=
  follow_invariant (P := Owned q) (fun s hs => owned_iterated hs (iterated s fuel))
    (fun s hs => owned_shrunk hs (shrunk s)) count (owned_start h)

/-! ## Vertices and solutions -/

def HeldBy (l : Ledger α I O σ n) (s : Simplex α (Snapshot I O) n m) (t : Stores α (Snapshot I O) n m)
    (v : Vertex n) (i : Nat) : Prop :=
  ∃ evals kind p snapshot, l.events[i]? = some (.evaluated evals kind p snapshot) ∧
    s.objective v = p.objective ∧ s.maxViolation v = p.maxViolation ∧
    (s.sample? v).map Sample.snapshot = some snapshot ∧
    (t.columns v).objective = p.objective ∧ (t.columns v).maxViolation = p.maxViolation ∧
    t.snapshot? v = some snapshot

theorem ShownAt.heldBy {t : Simplex α (Snapshot I O) n m} {stores : Stores α (Snapshot I O) n m} {v : Vertex n}
    (h : ShownAt q l i r) (hr : t.sample? v = some r) (hstores : t.Agrees stores) : HeldBy l t stores v i := by
  obtain ⟨x, evals, kind, hi, -⟩ := h
  have hcolumn := hstores.columns v r hr
  refine ⟨evals, kind, _, _, hi, Simplex.objective_of_sample? hr, Simplex.maxViolation_of_sample? hr, ?_,
    congrArg Column.objective hcolumn, congrArg Column.maxViolation hcolumn, ?_⟩
  · rw [hr]
    rfl
  · rw [hstores.snapshot?, hr]
    rfl

/-- In every state of a run the evaluated vertices hold evaluations that were shown, no two of them the same, and
a solution has its objective, its violation and its snapshot from one evaluation. Values and snapshots that are
kept in two stores and moved apart give the same. -/
theorem vertices_attributed (q : Search α I O ε σ n m) (x : Vector α n) (memory : σ) :
    (∀ s, Visited q x memory s →
      ∃ t, s.simplex.Stored t ∧ ∃ source : Vertex n → Nat,
        Set.InjOn source {v | (s.simplex.sample? v).isSome} ∧
        ∀ v, (s.simplex.sample? v).isSome → HeldBy s.ledger s.simplex t v (source v)) ∧
    ∀ fuel o solution, q.minimizeWithin x memory fuel = some o → o.result = .ok solution →
      ∃ (i : Nat) (evals : Nat) (kind : Probe) (p : Point α n),
        o.ledger.events[i]? = some (.evaluated evals kind p solution.snapshot) ∧
        solution.point.objective = p.objective ∧ solution.point.maxViolation = p.maxViolation := by
  constructor
  · intro s hs
    have hattributed : Attributed q s.ledger s.simplex := by
      rcases hs with hs | ⟨r, fuel, count, hr, rfl⟩
      · exact hs.attributed
      · exact (owned_follow hr fuel count).attributed
    obtain ⟨⟨t, hstored⟩, source, hsource⟩ := hattributed
    refine ⟨t, hstored, source, hsource.injective, fun v hv => ?_⟩
    obtain ⟨r, hr⟩ := Option.isSome_iff_exists.mp hv
    exact (hsource.shown v r hr).heldBy hr hstored.agrees
  · intro fuel o solution ho hok
    obtain ⟨r, s, hr, hs, hfinished⟩ := finished_of_minimizeWithin ho hok
    have howned := owned_follow hr fuel fuel
    rw [hs] at howned
    obtain ⟨-, source, hsource⟩ := howned.attributed
    obtain ⟨x, evals, kind, hi, -⟩ := (hsource.shown .pole _ rfl).later hfinished.events
    have hsnapshot : solution.snapshot = s.simplex.poleSample.snapshot := hfinished.snapshot
    rw [hsnapshot, hfinished.point]
    exact ⟨source .pole, evals, kind, _, hi, rfl, rfl⟩

end

theorem vertices_attributed_cubic : ∃ r o solution, unwatched.start #v[0] () = .ok r ∧
    unwatched.minimizeWithin #v[0] () 4 = some o ∧ o.result = .ok solution ∧
    (∃ t, (unwatched.follow 4 r 4).state.simplex.Stored t ∧ ∃ source : Vertex 1 → Nat,
      Set.InjOn source {v | ((unwatched.follow 4 r 4).state.simplex.sample? v).isSome} ∧
      ∀ v, ((unwatched.follow 4 r 4).state.simplex.sample? v).isSome →
        HeldBy (unwatched.follow 4 r 4).state.ledger (unwatched.follow 4 r 4).state.simplex t v (source v)) ∧
    ∃ (i : Nat) (evals : Nat) (kind : Probe) (p : Point ℝ 1),
      o.ledger.events[i]? = some (.evaluated evals kind p solution.snapshot) ∧
      solution.point.objective = p.objective ∧ solution.point.maxViolation = p.maxViolation := by
  obtain ⟨r, e, hr, he, -⟩ := follow_cubic
  have ho := minimizeWithin_of_finish hr he
  exact ⟨r, _, _, hr, ho, rfl, (vertices_attributed unwatched #v[0] ()).1 _ (Or.inr ⟨r, 4, 4, hr, rfl⟩),
    (vertices_attributed unwatched #v[0] ()).2 4 _ _ ho rfl⟩

end TrustSimplex.Search
