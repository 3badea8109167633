import TrustSimplex.Proofs.Search.EarlyStop
import TrustSimplex.Proofs.Search.Evaluations
import TrustSimplex.Proofs.Simplex.Linearization

/-!
# The penalty of a run

The penalty is always the one announced last. A trial raises it by more than a third, a reduction of the radius
can only lower it, and it is never negative. Without constraints no vertex is violated and there is nothing to
pay for: the penalty stays zero, the pole is the vertex with the lowest objective, and a solution is no higher
than any vertex of the first simplex.
-/

namespace TrustSimplex

/-! ## Announced penalties -/

section
variable {K I O : Type} [EuclideanField K] {n : Nat} {earlier later : List (Event K I O n)}

omit [EuclideanField K] in
def Event.penalty? : Event K I O n → Option K
  | evaluated .. => none
  | penaltyIncreased penalty => some penalty
  | radiusReduced _ penalty _ _ => some penalty
  | finished .. => none

omit [EuclideanField K] in
theorem Event.penalty?_eq_none {e : Event K I O n} (hraised : e.isPenaltyIncreased = false)
    (hreduced : e.isRadiusReduced = false) : e.penalty? = none := by
  cases e with
  | evaluated => rfl
  | penaltyIncreased => cases hraised
  | radiusReduced => cases hreduced
  | finished => rfl

/-- The penalty that was announced last; a run starts at zero. -/
def penaltyAfter (events : List (Event K I O n)) : K :=
  events.foldl (fun penalty event => event.penalty?.getD penalty) 0

theorem penaltyAfter_concat (events : List (Event K I O n)) (e : Event K I O n) :
    penaltyAfter (events ++ [e]) = e.penalty?.getD (penaltyAfter events) := by
  unfold penaltyAfter
  rw [List.foldl_append]
  rfl

theorem penaltyAfter_append (h : ∀ e ∈ later, e.penalty? = none) :
    penaltyAfter (earlier ++ later) = penaltyAfter earlier := by
  induction later generalizing earlier with
  | nil => rw [List.append_nil]
  | cons e later ih =>
    rw [List.append_cons, ih fun e' he' => h e' (List.mem_cons_of_mem e he'), penaltyAfter_concat,
      h e List.mem_cons_self]
    rfl

def Event.Reprices (earlier : List (Event K I O n)) : Event K I O n → Prop
  | evaluated .. => True
  | penaltyIncreased penalty => 0 < penalty ∧ 4 / 3 * penaltyAfter earlier < penalty
  | radiusReduced _ penalty _ _ => 0 ≤ penalty ∧ penalty ≤ penaltyAfter earlier
  | finished .. => True

theorem Event.reprices_of_none {e : Event K I O n} (h : e.penalty? = none) : e.Reprices earlier := by
  cases e with
  | evaluated => trivial
  | penaltyIncreased => cases h
  | radiusReduced => cases h
  | finished => trivial

end

namespace Search

section
variable {K I O ε σ : Type} [EuclideanField K] {n m : Nat} {q : Search K I O ε σ n m}
variable {s t u w : State K I O σ n m} {x step : Vector K n} {memory : σ} {r : Run K I O ε σ n m} {fuel : Nat}
variable {kind : Probe} {p : Prediction K} {out : Phase K ε n × State K I O σ n m}

/-! ## The phases -/

structure Priced (s : State K I O σ n m) : Prop where
  penalty : s.penalty = penaltyAfter s.ledger.events
  nonneg : 0 ≤ s.penalty
  each : AtEach Event.Reprices s.ledger.events

theorem Priced.of_events (h : Priced s) (hpenalty : u.penalty = s.penalty)
    (hevents : u.ledger.events = s.ledger.events) : Priced u := by
  refine ⟨?_, ?_, ?_⟩
  · rw [hpenalty, hevents]
    exact h.penalty
  · rw [hpenalty]
    exact h.nonneg
  · rw [hevents]
    exact h.each

theorem Priced.shown (h : Priced s) {e : Event K I O n} (hevents : u.ledger.events = s.ledger.events ++ [e])
    (hpenalty : u.penalty = e.penalty?.getD s.penalty) (hnonneg : 0 ≤ u.penalty) (he : e.Reprices s.ledger.events) :
    Priced u := by
  refine ⟨?_, hnonneg, ?_⟩
  · rw [hevents, penaltyAfter_concat, ← h.penalty]
    exact hpenalty
  · rw [hevents]
    exact h.each.concat he

theorem Priced.evaluated (h : Priced s) {evals : Nat} {sample : Sample K (Snapshot I O) m}
    (hevents : u.ledger.events = s.ledger.events ++ [evaluatedAt evals kind x sample])
    (hpenalty : u.penalty = s.penalty) : Priced u :=
  h.shown hevents hpenalty (hpenalty ▸ h.nonneg) trivial

theorem Priced.raised (h : Priced s) (hraise : s.penalty < 1.5 * p.leastPenalty) {answer : Option Action}
    {ledger : Ledger K I O σ n}
    (ha : s.ledger.announce q.observer (.penaltyIncreased (2.0 * p.leastPenalty)) = (answer, ledger)) :
    Priced { s with penalty := 2.0 * p.leastPenalty, ledger } := by
  have hnonneg := h.nonneg
  have hpos : 0 < 2.0 * p.leastPenalty := hnonneg.trans_lt (lt_raised hnonneg hraise)
  have hthird : 4 / 3 * s.penalty < 2.0 * p.leastPenalty := by
    norm_num at hraise ⊢
    linarith
  exact h.shown (Ledger.announced ha).events rfl hpos.le ⟨hpos, h.penalty ▸ hthird⟩

theorem Priced.weighed (h : Priced s) (hw : Weighed q s p w) : Priced w := by
  cases hw with
  | kept => exact h
  | raised hraise ha => exact h.raised hraise ha

theorem Priced.surveyed (h : Priced s) : Priced s.surveyed := h.of_events rfl rfl

theorem Priced.readied (h : Priced s) (hw : Readied q s fuel kind step w) : Priced w := by
  cases hw with
  | repair => exact h.of_events rfl rfl
  | trial _ _ hw => exact (h.surveyed.weighed hw).of_events rfl rfl

theorem Priced.attempted {next : Sample K (Snapshot I O) m → Ledger K I O σ n → Phase K ε n × State K I O σ n m}
    (h : Priced s) (ho : Attempted q s x kind next out)
    (hnext : ∀ sample ledger, (next sample ledger).2.ledger = ledger ∧ (next sample ledger).2.penalty = s.penalty) :
    Priced out.2 := by
  cases ho with
  | exhausted => exact h
  | failed hp => exact h.of_events rfl (events_of_probe_error hp)
  | stopped hp => exact h.evaluated (probed hp).events rfl
  | @evaluated sample ledger hp =>
    obtain ⟨hledger, hpenalty⟩ := hnext sample ledger
    exact h.evaluated ((congrArg Ledger.events hledger).trans (probed hp).events) hpenalty

theorem Priced.iterated (h : Priced s) (ho : Iterated q s fuel out) : Priced out.2 := by
  cases ho with
  | inaccurate => exact h.of_events rfl (Ledger.events_add_inaccurate ..)
  | repaired hj hstep ha =>
    have hready := h.readied (.repair hj hstep : Readied q s fuel _ _ _)
    exact hready.attempted ha fun _ _ => ⟨rfl, rfl⟩
  | unresolved => exact h.surveyed
  | tooShort => exact h.of_events rfl rfl
  | stepped hstep hlong hstepped =>
    cases hstepped with
    | halted hraise ha => exact h.surveyed.raised hraise ha
    | overtaken hraise ha => exact h.surveyed.raised hraise ha
    | @tried w _ hw ha =>
      have hready := h.readied (.trial hstep hlong hw)
      refine hready.attempted ha fun sample ledger => ?_
      obtain ⟨-, hledger, -, hpenalty, -⟩ := judged_accept (ε := ε) { w with repairArmed := false, ledger }
        s.surveyed.geometry _ _ sample
      exact ⟨hledger, hpenalty⟩

theorem reducedPenalty_bounds (h : 0 ≤ s.penalty) : 0 ≤ s.reducedPenalty ∧ s.reducedPenalty ≤ s.penalty := by
  unfold State.reducedPenalty
  split_ifs
  · exact ⟨s.simplex.rescaledPenalty_nonneg h, s.simplex.rescaledPenalty_le h⟩
  · exact ⟨h, le_refl _⟩

theorem Priced.shrunk (h : Priced s) (ho : Shrunk q s out) : Priced out.2 := by
  obtain ⟨hnonneg, hle⟩ := reducedPenalty_bounds h.nonneg
  have hlowered : s.reducedPenalty ≤ penaltyAfter s.ledger.events := h.penalty ▸ hle
  cases ho with
  | rearmed => exact h.of_events rfl rfl
  | converged => exact h
  | halted _ _ ha => exact h.shown (Ledger.announced ha).events rfl hnonneg ⟨hnonneg, hlowered⟩
  | reduced _ _ ha => exact h.shown (Ledger.announced ha).events rfl hnonneg ⟨hnonneg, hlowered⟩

/-! ## Runs -/

theorem Begun.penalty (h : Begun q x memory s) : s.penalty = 0 := by
  induction h with
  | first => rfl
  | extend _ _ _ ih => exact ih

theorem priced_of_initialOnly (hpenalty : s.penalty = 0) (h : InitialOnly s.ledger.events) : Priced s := by
  have hnone : ∀ e ∈ s.ledger.events, e.penalty? = none := by
    intro e he
    obtain ⟨_, _, _, rfl⟩ := h e he
    rfl
  refine ⟨?_, hpenalty.ge, ?_⟩
  · rw [hpenalty, ← List.nil_append s.ledger.events, penaltyAfter_append hnone]
    rfl
  · rw [← List.nil_append s.ledger.events]
    exact atEach_nil.append fun _ e he => Event.reprices_of_none (hnone e he)

theorem Begun.priced (h : Begun q x memory s) : Priced s := priced_of_initialOnly h.penalty h.initialOnly

theorem priced_follow (h : q.start x memory = .ok r) (fuel count : Nat) : Priced (q.follow fuel r count).state := by
  refine follow_invariant (P := fun _ s => Priced s) (fun s hs => hs.iterated (Search.iterated s fuel))
    (fun s hs => hs.shrunk (Search.shrunk s)) count ?_
  obtain ⟨s, hs, hstate, hevents⟩ := begun_start h
  refine hs.priced.of_events ?_ hevents
  rw [hstate]

theorem Visited.priced (h : Visited q x memory s) : Priced s := by
  rcases h with h | ⟨r, fuel, count, hr, rfl⟩
  · exact h.priced
  · exact priced_follow hr fuel count

/-- A penalty that was never raised is zero. -/
theorem penaltyAfter_eq_zero {events : List (Event K I O n)} (h : AtEach Event.Reprices events)
    (hunraised : ∀ penalty, Event.penaltyIncreased penalty ∉ events) : penaltyAfter events = 0 := by
  induction events using List.reverseRecOn with
  | nil => rfl
  | append_singleton events e ih =>
    have hbefore : penaltyAfter events = 0 := by
      refine ih (fun earlier event later hsplit => ?_) fun penalty hmem =>
        hunraised penalty (List.mem_append_left _ hmem)
      exact h earlier event (later ++ [e]) (by rw [hsplit, List.append_assoc]; rfl)
    have hlast := h events e [] rfl
    rw [penaltyAfter_concat, hbefore]
    cases e with
    | evaluated => rfl
    | penaltyIncreased penalty =>
      exact absurd (List.mem_append_right _ (List.mem_singleton.mpr rfl)) (hunraised penalty)
    | radiusReduced radius penalty evals best => exact le_antisymm (hbefore ▸ hlast.2) hlast.1
    | finished => rfl

theorem Priced.penalty_eq_zero (h : Priced s)
    (hunraised : ∀ penalty, Event.penaltyIncreased penalty ∉ s.ledger.events) : s.penalty = 0 :=
  h.penalty.trans (penaltyAfter_eq_zero h.each hunraised)

theorem penaltyIncreased_mem_attempted
    {next : Sample K (Snapshot I O) m → Ledger K I O σ n → Phase K ε n × State K I O σ n m}
    (ha : Attempted q w x kind next out) (hnext : ∀ sample ledger, (next sample ledger).2.ledger = ledger)
    {penalty : K} (hmem : Event.penaltyIncreased penalty ∈ out.2.ledger.events) :
    Event.penaltyIncreased penalty ∈ w.ledger.events := by
  rcases ha.events hnext with hsame | ⟨evals, sample, hmore⟩
  · exact hsame ▸ hmem
  · rcases List.mem_append.mp (hmore ▸ hmem) with hmem | hmem
    · exact hmem
    · cases List.mem_singleton.mp hmem

/-- A selection raises the penalty only where it falls short for a step. -/
theorem penaltyIncreased_mem_iterated (ho : Iterated q s fuel out) {penalty : K}
    (hmem : Event.penaltyIncreased penalty ∈ out.2.ledger.events) :
    Event.penaltyIncreased penalty ∈ s.ledger.events ∨
      ∃ step, s.penalty < 1.5 * (predict s.surveyed s.surveyed.simplex.linearize step).leastPenalty := by
  cases ho with
  | inaccurate =>
    refine Or.inl ?_
    rwa [Ledger.events_add_inaccurate] at hmem
  | repaired _ _ ha => exact Or.inl (penaltyIncreased_mem_attempted ha (fun _ _ => rfl) hmem)
  | unresolved => exact Or.inl hmem
  | tooShort => exact Or.inl hmem
  | stepped _ _ hstepped =>
    cases hstepped with
    | halted hraise => exact Or.inr ⟨_, hraise⟩
    | overtaken hraise => exact Or.inr ⟨_, hraise⟩
    | tried hw ha =>
      cases hw with
      | kept =>
        exact Or.inl (penaltyIncreased_mem_attempted ha (fun _ _ => (judged_accept (ε := ε) ..).ledger) hmem)
      | raised hraise => exact Or.inr ⟨_, hraise⟩

/-! ## Vertices of the first simplex -/

structure Undercuts (q : Search K I O ε σ n m) (x : Vector K n) (s : State K I O σ n m) : Prop where
  first : ∀ e, evaluate q.model q.problem x = .ok e → s.simplex.poleSample.objective ≤ e.objective
  initial : ∀ evals p snapshot, Event.evaluated evals .initial p snapshot ∈ s.ledger.events →
    s.simplex.poleSample.objective ≤ p.objective

theorem Undercuts.later (h : Undercuts q x s)
    (hpole : u.simplex.poleSample.objective ≤ s.simplex.poleSample.objective)
    (hevents : ∀ evals p snapshot, Event.evaluated evals .initial p snapshot ∈ u.ledger.events →
      Event.evaluated evals .initial p snapshot ∈ s.ledger.events) : Undercuts q x u :=
  ⟨fun e he => hpole.trans (h.first e he),
    fun evals p snapshot hmem => hpole.trans (h.initial evals p snapshot (hevents evals p snapshot hmem))⟩

theorem objective_extend_le {S : Type} (s : Simplex K S n m) (sample : Sample K S m) :
    (s.extend sample).poleSample.objective ≤ s.poleSample.objective := by
  by_cases hle : s.objective .pole ≤ sample.objective
  · rw [Simplex.extend_of_le hle]
  · rw [Simplex.poleSample_extend hle]
    exact (not_le.mp hle).le

theorem Begun.undercuts (h : Begun q x memory s) : Undercuts q x s := by
  induction h with
  | @first first answer ledger hp =>
    obtain ⟨e, he, rfl⟩ := (probed hp).evaluation
    refine ⟨fun e' he' => ?_, fun evals p snapshot hmem => ?_⟩
    · cases he.symm.trans he'
      exact le_refl _
    · have hmem : Event.evaluated evals .initial p snapshot ∈ ledger.events := hmem
      rw [(probed hp).events] at hmem
      cases List.mem_singleton.mp hmem
      exact le_refl _
  | @extend s sample answer ledger _ _ hp ih =>
    refine ⟨fun e he => (objective_extend_le _ _).trans (ih.first e he), fun evals p snapshot hmem => ?_⟩
    have hmem : Event.evaluated evals .initial p snapshot ∈ ledger.events := hmem
    rw [(probed hp).events] at hmem
    rcases List.mem_append.mp hmem with hmem | hmem
    · exact (objective_extend_le _ _).trans (ih.initial evals p snapshot hmem)
    · cases List.mem_singleton.mp hmem
      exact objective_pole_extend_le _ _

end

/-! ## Runs without constraints -/

section
variable {K I O ε σ : Type} [EuclideanField K] {n : Nat} {q : Search K I O ε σ n 0} {s : State K I O σ n 0}
variable {x : Vector K n} {memory : σ} {r : Run K I O ε σ n 0} {fuel : Nat} {out : Phase K ε n × State K I O σ n 0}

theorem maxViolation_of_shownAt {l : Ledger K I O σ n} {i : Nat} {sample : Sample K (Snapshot I O) 0}
    (h : ShownAt q l i sample) : sample.maxViolation = 0 := by
  obtain ⟨_, _, _, -, e, -, rfl⟩ := h
  show greatestViolation e.constraints = 0
  rw [show e.constraints = #v[] from Vector.eq_empty]
  rfl

theorem leastPenalty_eq_zero {l : Ledger K I O σ n} (h : Attributed q l s.simplex) (step : Vector K n) :
    (predict s s.simplex.linearize step).leastPenalty = 0 := by
  obtain ⟨-, source, hsource⟩ := h
  have hpole : s.simplex.maxViolation .pole = 0 := maxViolation_of_shownAt (hsource.shown .pole _ rfl)
  have hdrop : (predict s s.simplex.linearize step).violationDrop = 0 := by
    show s.simplex.maxViolation .pole - s.simplex.linearize.violation step = 0
    rw [hpole]
    exact sub_self 0
  unfold Prediction.leastPenalty
  rw [hdrop, if_neg (lt_irrefl 0)]

structure Unpriced (q : Search K I O ε σ n 0) (x : Vector K n) (s : State K I O σ n 0) : Prop where
  unraised : ∀ penalty, Event.penaltyIncreased penalty ∉ s.ledger.events
  undercuts : Undercuts q x s

theorem Begun.unpriced (h : Begun q x memory s) : Unpriced q x s := by
  refine ⟨fun penalty hmem => ?_, h.undercuts⟩
  obtain ⟨_, _, _, hinitial⟩ := h.initialOnly _ hmem
  cases hinitial

theorem Unpriced.iterate (h : Unpriced q x s) (hpriced : Priced s) (howned : Owned q (.selectBest : Phase K ε n) s)
    (fuel : Nat) : Unpriced q x (q.iterate s fuel).2 := by
  have ho : Iterated q s fuel (q.iterate s fuel) := Search.iterated s fuel
  have hzero := hpriced.penalty_eq_zero h.unraised
  refine ⟨fun penalty hmem => ?_, h.undercuts.later ?_ fun _ _ _ hmem => initial_mem_iterated ho hmem⟩
  · rcases penaltyIncreased_mem_iterated ho hmem with hold | ⟨step, hraise⟩
    · exact h.unraised penalty hold
    · have hsurveyed : Attributed q s.ledger s.surveyed.simplex := howned.attributed.pivotTo (howned.full rfl) _
      rw [leastPenalty_eq_zero hsurveyed, mul_zero, hzero] at hraise
      exact lt_irrefl 0 hraise
  · have hmerit := merit_le_of_rank_le (q.rank_pole_advance_le .selectBest howned.full fuel)
    rw [hzero, zero_mul, zero_mul, add_zero, add_zero] at hmerit
    exact hmerit

theorem Unpriced.shrunk (h : Unpriced q x s) (ho : Shrunk q s out) : Unpriced q x out.2 := by
  have hshown : ∀ {answer ledger}, s.ledger.announce q.observer (.radiusReduced (q.reducedRadius s.radius)
      s.reducedPenalty s.ledger.evals s.simplex.best) = (answer, ledger) →
      Unpriced q x { s with radius := q.reducedRadius s.radius, penalty := s.reducedPenalty, ledger } := by
    intro answer ledger ha
    have hold : ∀ e ∈ ledger.events, e.isRadiusReduced = false → e ∈ s.ledger.events := by
      intro e he hkind
      rw [(Ledger.announced ha).events] at he
      rcases List.mem_append.mp he with he | he
      · exact he
      · rw [List.mem_singleton.mp he] at hkind
        cases hkind
    exact ⟨fun penalty hmem => h.unraised penalty (hold _ hmem rfl),
      h.undercuts.later (le_refl _) fun _ _ _ hmem => hold _ hmem rfl⟩
  cases ho with
  | rearmed => exact ⟨h.unraised, h.undercuts.first, h.undercuts.initial⟩
  | converged => exact h
  | halted _ _ ha => exact hshown ha
  | reduced _ _ ha => exact hshown ha

theorem unpriced_follow (h : q.start x memory = .ok r) (fuel count : Nat) :
    Unpriced q x (q.follow fuel r count).state := by
  have hstart : Unpriced q x r.state := by
    obtain ⟨s, hs, hstate, hevents⟩ := begun_start h
    obtain ⟨hunraised, hfirst, hinitial⟩ := hs.unpriced
    rw [← hevents] at hunraised hinitial
    rw [hstate]
    exact ⟨hunraised, hfirst, hinitial⟩
  have hpriced := priced_follow h fuel 0
  -- the invariants need each other: at a zero penalty the merit is the objective, and samples without violation
  -- leave nothing to raise the penalty for
  refine (follow_invariant (P := fun phase s => Owned q phase s ∧ Priced s ∧ Unpriced q x s) (fun s hs => ?_)
    (fun s hs => ?_) count ⟨owned_start h, hpriced, hstart⟩).2.2
  · have ho : Iterated q s fuel (q.iterate s fuel) := Search.iterated s fuel
    exact ⟨owned_iterated hs.1 ho, hs.2.1.iterated ho, hs.2.2.iterate hs.2.1 hs.1 fuel⟩
  · have ho : Shrunk q s (q.shrink s) := Search.shrunk s
    exact ⟨owned_shrunk hs.1 ho, hs.2.1.shrunk ho, hs.2.2.shrunk ho⟩

theorem Visited.unpriced (h : Visited q x memory s) : Unpriced q x s := by
  rcases h with h | ⟨r, fuel, count, hr, rfl⟩
  · exact h.unpriced
  · exact unpriced_follow hr fuel count

end

/-! ## A constraint that costs -/

theorem isFinite_one : Scalar.isFinite (1 : ℝ) = true := rfl

/-- The constraint is met at one, and to go there costs as much as it lacks at zero. The observer stops at the raise. -/
noncomputable def costly : Search ℝ (Vector ℝ 1) Unit Empty Unit 1 1 where
  model := ⟨fun _ => .ok ()⟩
  problem := ⟨.ok, fun u _ => .ok (u.get (.last 0)), fun u _ => .ok (.replicate 1 (u.get (.last 0) - 1))⟩
  config := ⟨1, 1 / 4, 100, rfl, by norm_num, isFinite_one, by norm_num⟩
  observer := .ofFunction fun e => if e.isPenaltyIncreased then some .stopEarly else none

noncomputable def costlySample (u : ℝ) : Sample ℝ (Snapshot (Vector ℝ 1) Unit) 1 where
  constraints := .replicate 1 (u - 1)
  objective := u
  maxViolation := greatestViolation (.replicate 1 (u - 1))
  snapshot := ⟨.replicate 1 u, ()⟩

noncomputable def costlySimplex : Simplex ℝ (Snapshot (Vector ℝ 1) Unit) 1 1 :=
  { Simplex.start (zeroVec 1) 1 (costlySample 0) with others := #[costlySample 1] }

noncomputable def costlyState (ledger : Ledger ℝ (Vector ℝ 1) Unit Unit 1) :
    State ℝ (Vector ℝ 1) Unit Unit 1 1 := ⟨ledger, costlySimplex, 1, 0, false, true⟩

theorem probe_costly (l : Ledger ℝ (Vector ℝ 1) Unit Unit 1) (u : ℝ) (kind : Probe) :
    ∃ l', costly.probe l #v[u] kind = (.ok (costlySample u, none), l') := by
  have heval : evaluate costly.model costly.problem #v[u] = .ok ⟨#v[u], u, .replicate 1 (u - 1), ⟨#v[u], ()⟩⟩ := rfl
  unfold probe
  rw [heval]
  dsimp only
  rw [if_pos (by simp [Evaluation.isFinite, Scalar.isFinite])]
  exact ⟨_, rfl⟩

theorem start_costly : ∃ l, costly.start #v[0] () = .ok ⟨.selectBest, costlyState l⟩ := by
  obtain ⟨first, hfirst⟩ := probe_costly (.start ()) 0 .initial
  obtain ⟨l, hsecond⟩ := probe_costly first 1 .initial
  have hnext : (costly.firstState #v[0] (costlySample 0) first).simplex.nextInitial = #v[1] := nextInitial_zero 1 _
  have hextend : (costly.firstState #v[0] (costlySample 0) first).simplex.extend (costlySample 1) =
      costlySimplex := (if_pos zero_le_one).trans rfl
  refine ⟨l, ?_⟩
  unfold start
  rw [show costly.config.validateFor 1 = .ok () from rfl]
  dsimp only
  rw [hfirst]
  dsimp only
  unfold build
  rw [hnext, show (costly.firstState #v[0] (costlySample 0) first).ledger = first from rfl, hsecond]
  dsimp only
  rw [hextend]
  rfl

theorem exact_costlySimplex : costlySimplex.Exact :=
  (Simplex.growing_start (zeroVec 1) one_ne_zero (costlySample 0)).exact

theorem dot_edge_costlySimplex (c : ℝ) (j : Fin 1) : (fun _ => c) ⬝ᵥ costlySimplex.edge (.other j) = c := by
  rw [Subsingleton.elim j 0]
  show (fun _ => c) ⬝ᵥ coords #v[(1 : ℝ)] = c
  rw [← Linearization.coords_singleton, Linearization.coords_one, mul_one]

theorem shortByOne_costlySimplex : costlySimplex.linearize.ShortByOne := by
  have hvalues : ∀ v, costlySimplex.constraint v 0 = -1 + (fun _ => 1) ⬝ᵥ costlySimplex.edge v := by
    intro v
    cases v with
    | pole =>
      show (0 : ℝ) - 1 = -1 + _ ⬝ᵥ 0
      rw [dotProduct_zero]
      norm_num
    | other j =>
      rw [dot_edge_costlySimplex, Subsingleton.elim j 0]
      show (1 : ℝ) - 1 = -1 + 1
      norm_num
  obtain ⟨hbound, hslope⟩ := (exact_costlySimplex.constraint_interpolates_iff 0).mp hvalues
  rw [← Linearization.coords_singleton] at hslope
  exact ⟨(coords_injective hslope).symm, (neg_injective hbound).symm⟩

theorem gradient_last_costlySimplex : costlySimplex.linearize.gradient 1 = #v[-1] := by
  have hvalues : ∀ v, costlySimplex.objective v = 0 + (fun _ => 1) ⬝ᵥ costlySimplex.edge v := by
    intro v
    cases v with
    | pole =>
      show (0 : ℝ) = 0 + _ ⬝ᵥ 0
      rw [dotProduct_zero, add_zero]
    | other j =>
      rw [dot_edge_costlySimplex, Subsingleton.elim j 0]
      exact (zero_add 1).symm
  obtain ⟨-, hslope⟩ := exact_costlySimplex.objective_interpolates_iff.mp hvalues
  apply coords_injective
  rw [Linearization.coords_singleton]
  exact (neg_eq_iff_eq_neg.mpr hslope).symm

theorem leastPenalty_costly (l : Ledger ℝ (Vector ℝ 1) Unit Unit 1) :
    (predict (costlyState l) costlySimplex.linearize #v[1]).leastPenalty = 1 := by
  have hdrop : (predict (costlyState l) costlySimplex.linearize #v[1]).violationDrop = 1 := by
    show greatestViolation #v[(0 : ℝ) - 1] - costlySimplex.linearize.violation #v[1] = 1
    rw [shortByOne_costlySimplex.violation]
    simp [greatestViolation, larger_eq_max]
  have hrise : (predict (costlyState l) costlySimplex.linearize #v[1]).objectiveRise = 1 := by
    show -dot (costlySimplex.linearize.gradient 1) #v[1] = 1
    rw [gradient_last_costlySimplex, dot_eq, Linearization.coords_one]
    norm_num
  unfold Prediction.leastPenalty
  rw [hdrop, hrise, if_pos one_pos, div_one]

/-- The only step of the run is weighed too dear, and the penalty is raised to twice what it needs. -/
theorem follow_costly : ∃ r e earlier, costly.start #v[0] () = .ok r ∧
    costly.follow 1 r 1 = ⟨.finish .stoppedByObserver, e⟩ ∧ e.penalty = 2 ∧
    e.ledger.events = earlier ++ [.penaltyIncreased 2] := by
  obtain ⟨l, hl⟩ := start_costly
  have hbest : costlySimplex.selectBest 0 = .pole := by
    refine selectBest_eq_pole fun h => ?_
    have hbetter : Better 0 (1 : ℝ) (greatestViolation #v[1 - 1]) 0 (greatestViolation #v[0 - 1]) := better_iff.mpr h
    unfold Better at hbetter
    norm_num at hbetter
  have hselected : (costlyState l).selected = costlyState l := State.selected_eq_self hbest
  have hsimplex : (costlyState l).surveyed.simplex = costlySimplex := congrArg State.simplex hselected
  have haccurate : ¬ accuracyBound < (costlyState l).selected.simplex.inverseError :=
    Exact.accurate ⟨exact_costlySimplex, one_pos⟩
  have hstep : (costlyState l).surveyed.simplex.linearize.solveWithin 1 1 = some ⟨#v[1], true⟩ := by
    rw [hsimplex]
    exact shortByOne_costlySimplex.solveWithin 0
  have hleast : (predict (costlyState l).surveyed (costlyState l).surveyed.simplex.linearize #v[1]).leastPenalty = 1 := by
    unfold predict
    rw [hsimplex]
    exact leastPenalty_costly l
  have hraise : (costlyState l).surveyed.penalty < 1.5 *
      (predict (costlyState l).surveyed (costlyState l).surveyed.simplex.linearize #v[1]).leastPenalty := by
    rw [hleast]
    show (0 : ℝ) < _
    norm_num
  have hiterate : costly.iterate (costlyState l) 1 = _ :=
    (iterate_eq_weighStep haccurate rfl hstep rfl).trans (weighStep_eq_stopped hraise rfl)
  rw [hleast, show (2.0 * 1 : ℝ) = 2 by norm_num] at hiterate
  exact ⟨_, _, l.events, hl, follow_selectBest hiterate 0, rfl, Ledger.events_announce l costly.observer _⟩

/-! ## Penalties and solutions -/

section
variable {K I O ε σ : Type} [EuclideanField K] {n m : Nat}

/-- In every state of a run the penalty is not negative and is the one announced last. Each raise is by more than a
third to above zero, and each reduction of the radius announces a penalty no higher than the one before. Without
constraints the penalty is always zero, and a solution is no higher than the vertices of the first simplex. -/
theorem penalty_announced (q : Search K I O ε σ n m) (x : Vector K n) (memory : σ) :
    (∀ s, Visited q x memory s →
      0 ≤ s.penalty ∧ s.penalty = penaltyAfter s.ledger.events ∧
      (∀ earlier penalty later, s.ledger.events = earlier ++ .penaltyIncreased penalty :: later →
        0 < penalty ∧ 4 / 3 * penaltyAfter earlier < penalty) ∧
      ∀ earlier radius penalty evals best later,
        s.ledger.events = earlier ++ .radiusReduced radius penalty evals best :: later →
        0 ≤ penalty ∧ penalty ≤ penaltyAfter earlier) ∧
    (m = 0 →
      (∀ s, Visited q x memory s → s.penalty = 0 ∧ ∀ penalty, Event.penaltyIncreased penalty ∉ s.ledger.events) ∧
      ∀ fuel o solution, q.minimizeWithin x memory fuel = some o → o.result = .ok solution →
        (∀ e, evaluate q.model q.problem x = .ok e → solution.point.objective ≤ e.objective) ∧
        (∀ evals p snapshot, Event.evaluated evals .initial p snapshot ∈ o.ledger.events →
          solution.point.objective ≤ p.objective) ∧
        ∀ penalty, Event.penaltyIncreased penalty ∉ o.ledger.events) := by
  refine ⟨fun s hs => ?_, ?_⟩
  · have hpriced := hs.priced
    exact ⟨hpriced.nonneg, hpriced.penalty, fun earlier _ later hsplit => hpriced.each earlier _ later hsplit,
      fun earlier _ _ _ _ later hsplit => hpriced.each earlier _ later hsplit⟩
  · rintro rfl
    refine ⟨fun s hs => ⟨hs.priced.penalty_eq_zero hs.unpriced.unraised, hs.unpriced.unraised⟩,
      fun fuel o solution ho hok => ?_⟩
    obtain ⟨r, s, hr, hs, hfinished⟩ := finished_of_minimizeWithin ho hok
    have hunpriced := unpriced_follow hr fuel fuel
    rw [hs] at hunpriced
    have hobjective : solution.point.objective = s.simplex.poleSample.objective := by
      rw [hfinished.point]
      rfl
    have hold : ∀ e ∈ o.ledger.events,
        e ≠ .finished solution.status solution.evals solution.point → e ∈ s.ledger.events := by
      intro e he hne
      rw [hfinished.events] at he
      rcases List.mem_append.mp he with he | he
      · exact he
      · exact absurd (List.mem_singleton.mp he) hne
    rw [hobjective]
    exact ⟨hunpriced.undercuts.first,
      fun evals p snapshot hmem => hunpriced.undercuts.initial evals p snapshot (hold _ hmem nofun),
      fun penalty hmem => hunpriced.unraised penalty (hold _ hmem nofun)⟩

end

/-- The costly constraint raises the penalty from zero; on the cubic, which has no constraint, the radius is reduced
and the penalty stays zero. -/
theorem penalty_announced_costly :
    (∃ s earlier, Visited costly #v[0] () s ∧ s.ledger.events = earlier ++ [.penaltyIncreased 2] ∧
      0 ≤ s.penalty ∧ s.penalty = 2 ∧ s.penalty = penaltyAfter s.ledger.events ∧
      (0 : ℝ) < 2 ∧ 4 / 3 * penaltyAfter earlier < 2) ∧
    ∃ s earlier radius penalty evals best later o solution e,
      Visited unwatched #v[0] () s ∧
      s.ledger.events = earlier ++ .radiusReduced radius penalty evals best :: later ∧
      s.penalty = penaltyAfter s.ledger.events ∧ 0 ≤ penalty ∧ penalty ≤ penaltyAfter earlier ∧ s.penalty = 0 ∧
      unwatched.minimizeWithin #v[0] () 4 = some o ∧ o.result = .ok solution ∧
      evaluate unwatched.model unwatched.problem #v[0] = .ok e ∧ solution.point.objective ≤ e.objective := by
  constructor
  · obtain ⟨r, e, earlier, hr, he, hpenalty, hevents⟩ := follow_costly
    have hvisited : Visited costly #v[0] () e := Or.inr ⟨r, 1, 1, hr, (congrArg Run.state he).symm⟩
    obtain ⟨hnonneg, hlast, hraised, -⟩ := (penalty_announced costly #v[0] ()).1 e hvisited
    obtain ⟨hpos, hthird⟩ := hraised earlier 2 [] hevents
    exact ⟨e, earlier, hvisited, hevents, hnonneg, hpenalty, hlast, hpos, hthird⟩
  obtain ⟨r, s, hr, hs, -⟩ := follow_cubic
  have ho := minimizeWithin_of_finish hr hs
  have hreduced : halvings s.ledger.events ≠ 0 := by
    intro hnone
    have hradius := (descended_follow hr 4 4).radius
    obtain ⟨-, hend⟩ := (spent_follow hr 4 4).2 (congrArg Run.phase hs)
    rw [hs] at hradius hend
    rw [hradius, ← List.nil_append s.ledger.events, radiusAfter_append hnone] at hend
    have htwo : (2 : ℝ) ≤ 1 := hend
    norm_num at htwo
  obtain ⟨earlier, radius, penalty, evals, best, later, hsplit⟩ := exists_reduction hreduced
  have hvisited : Visited unwatched #v[0] () s := Or.inr ⟨r, 4, 4, hr, (congrArg Run.state hs).symm⟩
  obtain ⟨hall, hnone⟩ := penalty_announced unwatched #v[0] ()
  obtain ⟨-, hpenalty, -, hlowered⟩ := hall s hvisited
  obtain ⟨hzero, hsolution⟩ := hnone rfl
  obtain ⟨hnonneg, hle⟩ := hlowered earlier radius penalty evals best later hsplit
  exact ⟨s, earlier, radius, penalty, evals, best, later, _, _, _, hvisited, hsplit, hpenalty, hnonneg, hle,
    (hzero s hvisited).1, ho, rfl, rfl, (hsolution 4 _ _ ho rfl).1 _ rfl⟩

end Search

end TrustSimplex
