import TrustSimplex.Proofs.Search.Failures
import TrustSimplex.Proofs.Search.Termination

/-!
# The radii of a run

Each reduction halves the radius or makes it the final one. A run reduces its radius, or converges, only after a
selection at that very radius found the simplex in shape and its step too short or its trial too poor: the flag
that says so is set by each selection and read before the next.
-/

namespace TrustSimplex

section
variable {K I O : Type} {n : Nat} {start : K} {earlier later : List (Event K I O n)}

def radiusAfter (start : K) (events : List (Event K I O n)) : K :=
  events.foldl (fun radius event => match event with
    | .evaluated .. => radius
    | .penaltyIncreased _ => radius
    | .radiusReduced next _ _ _ => next
    | .finished .. => radius) start

theorem not_isRadiusReduced_of_halvings (h : halvings later = 0) {event : Event K I O n} (hmem : event ∈ later) :
    event.isRadiusReduced = false :=
  Bool.eq_false_iff.mpr (List.countP_eq_zero.mp h event hmem)

theorem radiusAfter_append (h : halvings later = 0) :
    radiusAfter start (earlier ++ later) = radiusAfter start earlier := by
  induction later generalizing earlier with
  | nil => rw [List.append_nil]
  | cons event later ih =>
    have hevent : event.isRadiusReduced = false := not_isRadiusReduced_of_halvings h List.mem_cons_self
    have hlater : halvings later = 0 := by
      unfold halvings at h ⊢
      rw [List.countP_cons, hevent] at h
      exact h
    have hone : radiusAfter start (earlier ++ [event]) = radiusAfter start earlier := by
      unfold radiusAfter
      rw [List.foldl_append]
      cases event with
      | radiusReduced => cases hevent
      | evaluated => rfl
      | penaltyIncreased => rfl
      | finished => rfl
    rw [List.append_cons, ih hlater, hone]

theorem radiusAfter_concat_radiusReduced (radius penalty : K) (evals : Nat) (best : Point K n) :
    radiusAfter start (earlier ++ [.radiusReduced radius penalty evals best]) = radius := by
  unfold radiusAfter
  rw [List.foldl_append]
  rfl

def AtReductions (P : List (Event K I O n) → K → Prop) (events : List (Event K I O n)) : Prop :=
  AtEach (fun earlier event => ∀ radius penalty evals best, event = .radiusReduced radius penalty evals best →
    P earlier radius) events

variable {P : List (Event K I O n) → K → Prop}

theorem AtReductions.append (h : AtReductions P earlier) (hlater : halvings later = 0) :
    AtReductions P (earlier ++ later) := by
  induction later generalizing earlier with
  | nil => rwa [List.append_nil]
  | cons event later ih =>
    have hevent : event.isRadiusReduced = false := not_isRadiusReduced_of_halvings hlater List.mem_cons_self
    rw [List.append_cons]
    apply ih
    · apply AtEach.concat h
      rintro radius penalty evals best rfl
      cases hevent
    · unfold halvings at hlater ⊢
      rw [List.countP_cons, hevent] at hlater
      exact hlater

theorem atReductions_of_halvings (h : halvings later = 0) : AtReductions P later := by
  have hnil : AtReductions P [] := atEach_nil
  rw [← List.nil_append later]
  exact hnil.append h

theorem AtReductions.concat (h : AtReductions P earlier) {radius : K} (hP : P earlier radius) (penalty : K)
    (evals : Nat) (best : Point K n) : AtReductions P (earlier ++ [.radiusReduced radius penalty evals best]) := by
  apply AtEach.concat h
  intro next _ _ _ heq
  cases heq
  exact hP

end

namespace Search

section
variable {K I O ε σ : Type} [EuclideanField K] {n m : Nat} {q : Search K I O ε σ n m}
variable {s t u : State K I O σ n m} {x : Vector K n} {memory : σ} {r : Run K I O ε σ n m} {fuel count : Nat}

/-! ## Phases that reduce nothing -/

structure Steady (s u : State K I O σ n m) : Prop where
  radius : u.radius = s.radius
  shown : ∃ new, u.ledger.events = s.ledger.events ++ new ∧ halvings new = 0

omit [EuclideanField K] in
theorem Steady.of_events (hradius : u.radius = s.radius) (hevents : u.ledger.events = s.ledger.events) :
    Steady s u :=
  ⟨hradius, [], hevents.trans (List.append_nil _).symm, rfl⟩

omit [EuclideanField K] in
theorem Steady.trans (h : Steady s t) (h' : Steady t u) : Steady s u := by
  obtain ⟨hradius, new, hevents, hnew⟩ := h
  obtain ⟨hradius', new', hevents', hnew'⟩ := h'
  refine ⟨hradius'.trans hradius, new ++ new', ?_, ?_⟩
  · rw [hevents', hevents, List.append_assoc]
  · rw [halvings_append, hnew, hnew']

theorem steady_attempted {kind : Probe} {out : Phase K ε n × State K I O σ n m}
    {next : Sample K (Snapshot I O) m → Ledger K I O σ n → Phase K ε n × State K I O σ n m}
    (ho : Attempted q s x kind next out)
    (hnext : ∀ sample ledger, (next sample ledger).2.ledger = ledger ∧ (next sample ledger).2.radius = s.radius) :
    Steady s out.2 := by
  cases ho with
  | exhausted => exact .of_events rfl rfl
  | failed hp => exact .of_events rfl (events_of_probe_error hp)
  | stopped hp => exact ⟨rfl, _, (probed hp).events, rfl⟩
  | @evaluated sample ledger hp =>
    obtain ⟨hledger, hradius⟩ := hnext sample ledger
    exact ⟨hradius, _, (congrArg Ledger.events hledger).trans (probed hp).events, rfl⟩

theorem steady_weighed {p : Prediction K} {w : State K I O σ n m} (hw : Weighed q s.surveyed p w) :
    Steady s { w with repairArmed := false } := by
  cases hw with
  | kept => exact .of_events rfl rfl
  | raised _ hshown => exact ⟨rfl, _, (Ledger.announced hshown).events, rfl⟩

theorem steady_iterated {out : Phase K ε n × State K I O σ n m} (ho : Iterated q s fuel out) : Steady s out.2 := by
  cases ho with
  | inaccurate => exact .of_events rfl (Ledger.events_add_inaccurate ..)
  | @repaired j step _ _ _ ha =>
    have hmoved : Steady s { s.surveyed with simplex := s.surveyed.simplex.replace j step } := .of_events rfl rfl
    exact hmoved.trans (steady_attempted ha fun _ _ => ⟨rfl, rfl⟩)
  | unresolved => exact .of_events rfl rfl
  | tooShort => exact .of_events rfl rfl
  | stepped _ _ hstepped =>
    cases hstepped with
    | halted _ ha => exact ⟨rfl, _, (Ledger.announced ha).events, rfl⟩
    | overtaken _ ha => exact ⟨rfl, _, (Ledger.announced ha).events, rfl⟩
    | @tried w _ hw ha =>
      refine (steady_weighed hw).trans (steady_attempted ha fun sample ledger => ?_)
      obtain ⟨-, hledger, hradius, -⟩ := judged_accept (ε := ε) { w with repairArmed := false, ledger }
        s.surveyed.geometry _ _ sample
      exact ⟨hledger, hradius⟩

theorem start_unreduced (h : q.start x memory = .ok r) :
    r.state.radius = q.config.startRadius ∧ halvings r.state.ledger.events = 0 ∧ r.phase ≠ .shrinkRadius ∧
      r.phase ≠ .finish .converged := by
  let P : State K I O σ n m → Prop := fun s => s.radius = q.config.startRadius ∧ halvings s.ledger.events = 0
  have hfirst : ∀ {first answer ledger}, q.probe (.start memory) x .initial = (.ok (first, answer), ledger) →
      P (q.firstState x first ledger) := by
    intro first answer ledger hp
    refine ⟨rfl, ?_⟩
    show halvings ledger.events = 0
    rw [(probed hp).events]
    rfl
  have hextend : ∀ {s sample answer ledger}, P s →
      q.probe s.ledger s.simplex.nextInitial .initial = (.ok (sample, answer), ledger) →
      P { s with ledger, simplex := s.simplex.extend sample } := by
    rintro s sample answer ledger ⟨hradius, hnone⟩ hp
    refine ⟨hradius, ?_⟩
    show halvings ledger.events = 0
    rw [(probed hp).events, halvings_append, hnone]
    rfl
  have hstarted : Started q x memory P r := started hfirst (fun hs _ hp => hextend hs hp) h
  cases hstarted with
  | stopped hp => exact ⟨(hfirst hp).1, (hfirst hp).2, nofun, nofun⟩
  | built hbuilt =>
    cases hbuilt with
    | failed hs _ hp => exact ⟨hs.1, (congrArg halvings (events_of_probe_error hp)).trans hs.2, nofun, nofun⟩
    | stopped hs _ hp => exact ⟨(hextend hs hp).1, (hextend hs hp).2, nofun, nofun⟩
    | complete hs => exact ⟨hs.1, hs.2, nofun, nofun⟩

/-! ## The radii -/

structure Reduction (q : Search K I O ε σ n m) (earlier : List (Event K I O n)) (radius : K) : Prop where
  smaller : radius < radiusAfter q.config.startRadius earlier
  halved : radius = radiusAfter q.config.startRadius earlier / 2 ∨ radius = q.config.finalRadius
  least : q.config.finalRadius ≤ radius
  apart : radius ≠ q.config.finalRadius → 1.5 * q.config.finalRadius < radius

structure Descended (q : Search K I O ε σ n m) (s : State K I O σ n m) : Prop where
  radius : s.radius = radiusAfter q.config.startRadius s.ledger.events
  least : q.config.finalRadius ≤ s.radius
  each : AtReductions (Reduction q) s.ledger.events

theorem reducedRadius_spec (h : ¬ s.radius ≤ q.config.finalRadius) :
    q.reducedRadius s.radius < s.radius ∧
    (q.reducedRadius s.radius = s.radius / 2 ∨ q.reducedRadius s.radius = q.config.finalRadius) ∧
    q.config.finalRadius ≤ q.reducedRadius s.radius ∧
    (q.reducedRadius s.radius ≠ q.config.finalRadius → 1.5 * q.config.finalRadius < q.reducedRadius s.radius) := by
  have hlarge := not_le.mp h
  have hfinal := q.finalRadius_pos
  have hhalf : s.radius * 0.5 = s.radius / 2 := by
    norm_num
    ring
  unfold reducedRadius
  dsimp only
  rw [hhalf]
  by_cases hend : s.radius / 2 ≤ 1.5 * q.config.finalRadius
  · rw [if_pos hend]
    exact ⟨hlarge, Or.inr rfl, le_refl _, fun hne => absurd rfl hne⟩
  · rw [if_neg hend]
    have hlt := not_le.mp hend
    have hleast : q.config.finalRadius ≤ 1.5 * q.config.finalRadius := by linarith
    exact ⟨half_lt_self (hfinal.trans hlarge), Or.inl rfl, hleast.trans hlt.le, fun _ => hlt⟩

theorem Descended.steady (h : Descended q s) (hu : Steady s u) : Descended q u := by
  obtain ⟨hradius, new, hevents, hnew⟩ := hu
  refine ⟨?_, ?_, ?_⟩
  · rw [hradius, hevents, radiusAfter_append hnew]
    exact h.radius
  · rw [hradius]
    exact h.least
  · rw [hevents]
    exact h.each.append hnew

theorem Descended.reduced (h : Descended q s) (hend : ¬ s.radius ≤ q.config.finalRadius) {penalty : K} {evals : Nat}
    {best : Point K n} (hradius : u.radius = q.reducedRadius s.radius)
    (hevents : u.ledger.events = s.ledger.events ++ [.radiusReduced (q.reducedRadius s.radius) penalty evals best]) :
    Descended q u := by
  obtain ⟨hsmaller, hhalved, hleast, hapart⟩ := reducedRadius_spec hend
  refine ⟨?_, ?_, ?_⟩
  · rw [hradius, hevents, radiusAfter_concat_radiusReduced]
  · rw [hradius]
    exact hleast
  · rw [hevents]
    apply h.each.concat
    rw [h.radius] at hsmaller hhalved hleast hapart ⊢
    exact ⟨hsmaller, hhalved, hleast, hapart⟩

theorem Descended.shrunk {out : Phase K ε n × State K I O σ n m} (h : Descended q s) (ho : Shrunk q s out) :
    Descended q out.2 := by
  cases ho with
  | rearmed => exact h.steady (.of_events rfl rfl)
  | converged => exact h
  | halted _ hend ha => exact h.reduced hend rfl (Ledger.announced ha).events
  | reduced _ hend ha => exact h.reduced hend rfl (Ledger.announced ha).events

theorem descended_follow (h : q.start x memory = .ok r) (fuel count : Nat) :
    Descended q (q.follow fuel r count).state := by
  apply follow_invariant (P := fun _ s => Descended q s)
  · intro s hs
    exact hs.steady (steady_iterated (iterated s fuel))
  · intro s hs
    exact hs.shrunk (shrunk s)
  · obtain ⟨hradius, hnone, -⟩ := start_unreduced h
    refine ⟨?_, ?_, atReductions_of_halvings hnone⟩
    · rw [hradius, ← List.nil_append r.state.ledger.events, radiusAfter_append hnone]
      rfl
    · rw [hradius]
      exact (not_le.mp q.config.startRadius_greater).le

/-! ## What a reduction comes from -/

/-- The step from `t` was too short, or its trial was evaluated and found too poor, and the run is in `u`. -/
inductive Fruitless (q : Search K I O ε σ n m) (fuel : Nat) (t u : State K I O σ n m) : Prop
  | short {step : Step K n} (hstep : t.surveyed.simplex.linearize.solveWithin t.radius fuel = some step)
      (hpart : step.isFull = false) (hshort : Scalar.sqrt (normSq step.move) < t.radius / 2)
  | poor {step : Step K n} {w : State K I O σ n m} {sample : Sample K (Snapshot I O) m}
      (hstep : t.surveyed.simplex.linearize.solveWithin t.radius fuel = some step)
      (hw : Weighed q t.surveyed (predict t.surveyed t.surveyed.simplex.linearize step.move) w)
      (hp : q.probe w.ledger (w.simplex.offset step.move) .trial = (.ok (sample, none), u.ledger))
      (hpoor : (reductions w (predict t.surveyed t.surveyed.simplex.linearize step.move) sample).2 ≤ 0 ∨
        (reductions w (predict t.surveyed t.surveyed.simplex.linearize step.move) sample).2 <
          0.1 * (reductions w (predict t.surveyed t.surveyed.simplex.linearize step.move) sample).1) :
      Fruitless q fuel t u

/-- The selection from `t` found the simplex in shape at its radius and led to no better than `u`. -/
structure Spent (q : Search K I O ε σ n m) (fuel : Nat) (t u : State K I O σ n m) : Prop where
  radius : u.radius = t.radius
  heights : ∀ j, 0.25 * t.radius ≤ t.surveyed.geometry.heights.get j
  lengths : ∀ j, t.surveyed.geometry.lengths.get j ≤ 2.1 * t.radius
  fruitless : Fruitless q fuel t u

theorem sqrt_lt_half {radius : K} (hr : 0 < radius) {step : Step K n} (h : isTooShort radius step = true) :
    step.isFull = false ∧ Scalar.sqrt (normSq step.move) < radius / 2 := by
  unfold isTooShort at h
  rw [Bool.and_eq_true, Bool.not_eq_true', decide_eq_true_eq] at h
  obtain ⟨hpart, hshort⟩ := h
  refine ⟨hpart, ?_⟩
  have hroot := sqrt_mul_self (normSq_nonneg step.move)
  have hhalf : radius / 2 * (radius / 2) = 0.25 * radius * radius := by
    norm_num
    ring
  apply lt_of_mul_self_lt_mul_self₀ (half_pos hr).le
  rw [hroot, hhalf]
  exact hshort

theorem poor_of_accepted {g : Geometry K n} {step : Vector K n} {p : Prediction K} {sample : Sample K (Snapshot I O) m}
    {out : Phase K ε n × State K I O σ n m} (hexact : s.simplex.Exact) (hstep : coords step ≠ 0)
    (ho : Accepted s g step p sample out) (hout : out.1 = .shrinkRadius) :
    (reductions s p sample).2 ≤ 0 ∨ (reductions s p sample).2 < 0.1 * (reductions s p sample).1 := by
  cases ho with
  | dropped hj =>
    -- a trial that gains something always replaces a vertex of an exact simplex
    refine Or.inl (not_lt.mp fun hpos => ?_)
    obtain ⟨j, hsome⟩ := hexact.exists_vertexToReplace g hstep hpos
    cases hj.symm.trans hsome
  | gained => cases hout
  | stored _ hgain =>
    rw [not_and_or, not_lt, not_le] at hgain
    exact hgain

theorem fruitless_iterate (hexact : Exact t) (h : q.iterate t fuel = (.shrinkRadius, u)) :
    Fruitless q fuel t u ∧ u.radius = t.radius ∧ u.acceptable = t.surveyed.geometry.isAcceptable := by
  have ho : Iterated q t fuel (q.iterate t fuel) := iterated t fuel
  rw [h] at ho
  cases ho with
  | repaired _ _ ha => cases ha
  | tooShort hstep hshort =>
    obtain ⟨hpart, hlt⟩ := sqrt_lt_half hexact.2 hshort
    exact ⟨.short hstep hpart hlt, rfl, rfl⟩
  | @stepped step _ hstep hlong hstepped =>
    cases hstepped with
    | @tried w _ hw ha =>
      have hsame : w.simplex = t.surveyed.simplex ∧ w.radius = t.radius ∧
          w.acceptable = t.surveyed.geometry.isAcceptable := by
        cases hw with
        | kept => exact ⟨rfl, rfl, rfl⟩
        | raised => exact ⟨rfl, rfl, rfl⟩
      obtain ⟨hsimplex, hradius, hacceptable⟩ := hsame
      generalize hout : ((.shrinkRadius, u) : Phase K ε n × State K I O σ n m) = out at ha
      cases ha with
      | exhausted => cases hout
      | failed => cases hout
      | stopped => cases hout
      | @evaluated sample ledger hp =>
        have haccepted := accepted (ε := ε) { w with repairArmed := false, ledger } t.surveyed.geometry step.move
          (predict t.surveyed t.surveyed.simplex.linearize step.move) sample
        rw [← hout] at haccepted
        have hjudged := haccepted.judged
        have hledger : u.ledger = ledger := hjudged.ledger
        have hsimplexExact : w.simplex.Exact := hsimplex ▸ hexact.selected.1
        refine ⟨.poor hstep hw (hledger ▸ hp) ?_, hjudged.radius.trans hradius, hjudged.acceptable.trans hacceptable⟩
        exact poor_of_accepted (s := { w with repairArmed := false, ledger }) hsimplexExact
          (coords_ne_zero_of_long hexact.2 hstep hlong) haccepted rfl

theorem spent_iterate (hexact : Exact t) (h : q.iterate t fuel = (.shrinkRadius, u)) (hsound : u.acceptable = true) :
    Spent q fuel t u := by
  obtain ⟨hfruitless, hradius, hflag⟩ := fruitless_iterate hexact h
  rw [hsound] at hflag
  have hshape := hflag.symm
  unfold Geometry.isAcceptable at hshape
  rw [Bool.and_eq_true, all_eq_true_iff_get, all_eq_true_iff_get] at hshape
  obtain ⟨hheights, hlengths⟩ := hshape
  exact ⟨hradius, fun j => of_decide_eq_true (hheights j), fun j => of_decide_eq_true (hlengths j), hfruitless⟩

def SpentAfter (q : Search K I O ε σ n m) (r : Run K I O ε σ n m) (fuel : Nat) (earlier : List (Event K I O n)) :
    Prop :=
  ∃ k t u, q.follow fuel r k = ⟨.selectBest, t⟩ ∧ q.follow fuel r (k + 1) = ⟨.shrinkRadius, u⟩ ∧
    u.ledger.events = earlier ∧ u.radius = radiusAfter q.config.startRadius earlier ∧ Spent q fuel t u

theorem follow_succ_last (q : Search K I O ε σ n m) (fuel : Nat) (r : Run K I O ε σ n m) (count : Nat) :
    q.follow fuel r (count + 1) =
      if (q.follow fuel r count).phase.isActive then q.advance (q.follow fuel r count) fuel
      else q.follow fuel r count := by
  rw [q.follow_add]
  rfl

theorem exists_iterate (h : q.start x memory = .ok r) (hu : q.follow fuel r count = ⟨.shrinkRadius, u⟩) :
    ∃ k t, count = k + 1 ∧ q.follow fuel r k = ⟨.selectBest, t⟩ ∧ q.iterate t fuel = (.shrinkRadius, u) := by
  cases count with
  | zero =>
    obtain ⟨-, -, hphase, -⟩ := start_unreduced h
    have hr : r = ⟨.shrinkRadius, u⟩ := hu
    rw [hr] at hphase
    exact absurd rfl hphase
  | succ k =>
    rw [follow_succ_last] at hu
    generalize hk : q.follow fuel r k = last at hu
    obtain ⟨phase, t⟩ := last
    cases phase with
    | selectBest =>
      refine ⟨k, t, rfl, hk, ?_⟩
      have hu : (⟨(q.iterate t fuel).1, (q.iterate t fuel).2⟩ : Run K I O ε σ n m) = ⟨.shrinkRadius, u⟩ := hu
      injection hu with hphase hstate
      rw [← hphase, ← hstate]
    | shrinkRadius =>
      have hu : (⟨(q.shrink t).1, (q.shrink t).2⟩ : Run K I O ε σ n m) = ⟨.shrinkRadius, u⟩ := hu
      have ho : Shrunk q t (q.shrink t) := shrunk t
      generalize q.shrink t = out at ho hu
      cases ho <;> cases hu
    | finish => cases hu
    | failed => cases hu
    | unresolved => cases hu

theorem spentAfter (h : q.start x memory = .ok r) (hu : q.follow fuel r count = ⟨.shrinkRadius, u⟩)
    (hsound : u.acceptable = true) : SpentAfter q r fuel u.ledger.events := by
  obtain ⟨k, t, rfl, ht, hiterate⟩ := exists_iterate h hu
  have hexact := (reached_follow h fuel k).1.exact
  rw [ht] at hexact
  -- the selection came to no reduction, so its radius is still the one announced last
  have hradius := (descended_follow h fuel (k + 1)).radius
  rw [hu] at hradius
  exact ⟨k, t, u, ht, hu, rfl, hradius, spent_iterate hexact hiterate hsound⟩

theorem not_converged_iterated {out : Phase K ε n × State K I O σ n m} (ho : Iterated q s fuel out) :
    out.1 ≠ .finish .converged := by
  cases ho with
  | inaccurate => exact nofun
  | repaired _ _ ha => cases ha <;> exact nofun
  | unresolved => exact nofun
  | tooShort => exact nofun
  | stepped _ _ hstepped =>
    cases hstepped with
    | halted => exact nofun
    | overtaken => exact nofun
    | tried _ ha =>
      cases ha with
      | exhausted => exact nofun
      | failed => exact nofun
      | stopped => exact nofun
      | @evaluated sample ledger =>
        generalize hout : accept _ _ _ _ sample = out
        have haccepted := hout ▸ accepted _ _ _ _ sample
        cases haccepted <;> exact nofun

/-- Before each reduction, and before the run converged, a selection gained nothing. -/
theorem spent_follow (h : q.start x memory = .ok r) (fuel count : Nat) :
    AtReductions (fun earlier _ => SpentAfter q r fuel earlier) (q.follow fuel r count).state.ledger.events ∧
    ((q.follow fuel r count).phase = .finish .converged →
      SpentAfter q r fuel (q.follow fuel r count).state.ledger.events ∧
        (q.follow fuel r count).state.radius ≤ q.config.finalRadius) := by
  induction count with
  | zero =>
    obtain ⟨-, hnone, -, hphase⟩ := start_unreduced h
    exact ⟨atReductions_of_halvings hnone, fun hconverged => absurd hconverged hphase⟩
  | succ count ih =>
    rw [follow_succ_last]
    generalize hlast : q.follow fuel r count = last at ih ⊢
    obtain ⟨phase, s⟩ := last
    cases phase with
    | selectBest =>
      have ho : Iterated q s fuel (q.iterate s fuel) := iterated s fuel
      obtain ⟨-, new, hevents, hnew⟩ := steady_iterated ho
      refine ⟨?_, fun hconverged => absurd hconverged (not_converged_iterated ho)⟩
      show AtReductions _ (q.iterate s fuel).2.ledger.events
      rw [hevents]
      exact ih.1.append hnew
    | shrinkRadius =>
      -- past the guard the flag is set, and only the selection just before can have set it
      have hspent : s.acceptable = true → SpentAfter q r fuel s.ledger.events := spentAfter h hlast
      have ho : Shrunk q s (q.shrink s) := shrunk s
      show AtReductions _ (q.shrink s).2.ledger.events ∧ ((q.shrink s).1 = _ → SpentAfter q r fuel
        (q.shrink s).2.ledger.events ∧ (q.shrink s).2.radius ≤ _)
      generalize q.shrink s = out at ho ⊢
      cases ho with
      | rearmed => exact ⟨ih.1, nofun⟩
      | converged hsound hend => exact ⟨ih.1, fun _ => ⟨hspent hsound, hend⟩⟩
      | halted hsound _ ha =>
        refine ⟨?_, nofun⟩
        show AtReductions _ (Ledger.events _)
        rw [(Ledger.announced ha).events]
        exact ih.1.concat (hspent hsound) _ _ _
      | reduced hsound _ ha =>
        refine ⟨?_, nofun⟩
        show AtReductions _ (Ledger.events _)
        rw [(Ledger.announced ha).events]
        exact ih.1.concat (hspent hsound) _ _ _
    | finish => exact ih
    | failed => exact ih
    | unresolved => exact ih

theorem two_pow_lt (h : Measured q s) :
    2 ^ (halvings s.ledger.events - 1) < q.config.startRadius / q.config.finalRadius := by
  rw [lt_div_iff₀ q.finalRadius_pos, mul_comm]
  by_contra hnot
  have hle := h.bounded _ (not_lt.mp hnot)
  have hnone : halvings s.ledger.events = 0 := by omega
  rw [hnone, pow_zero, mul_one] at hnot
  exact hnot (not_le.mp q.config.startRadius_greater)

/-- The radius starts at the start radius. Each reduction halves it or makes it the final one, which no radius falls
below and all others stay well above, and so it is not reduced more often than the halvings between the two. A run
that converges is at the final radius. Before each reduction, and before the run converged, the last selection found
the simplex in shape at the radius of the time and its step too short or its trial too poor. -/
theorem radius_descends (q : Search K I O ε σ n m) (h : q.start x memory = .ok r) (fuel : Nat) :
    r.state.radius = q.config.startRadius ∧
    (∀ count s, (q.follow fuel r count).state = s →
      s.radius = radiusAfter q.config.startRadius s.ledger.events ∧ q.config.finalRadius ≤ s.radius ∧
      (∀ earlier radius penalty evals best later,
        s.ledger.events = earlier ++ .radiusReduced radius penalty evals best :: later →
        (radius < radiusAfter q.config.startRadius earlier ∧
          (radius = radiusAfter q.config.startRadius earlier / 2 ∨ radius = q.config.finalRadius) ∧
          q.config.finalRadius ≤ radius ∧
          (radius ≠ q.config.finalRadius → 1.5 * q.config.finalRadius < radius)) ∧
        ∃ k t u, q.follow fuel r k = ⟨.selectBest, t⟩ ∧ q.follow fuel r (k + 1) = ⟨.shrinkRadius, u⟩ ∧
          u.ledger.events = earlier ∧ u.radius = radiusAfter q.config.startRadius earlier ∧ Spent q fuel t u) ∧
      2 ^ (halvings s.ledger.events - 1) < q.config.startRadius / q.config.finalRadius) ∧
    ∀ o solution, q.minimizeWithin x memory fuel = some o → o.result = .ok solution → solution.status = .converged →
      solution.radius = q.config.finalRadius ∧
      ∃ k t u, q.follow fuel r k = ⟨.selectBest, t⟩ ∧ q.follow fuel r (k + 1) = ⟨.shrinkRadius, u⟩ ∧
        o.ledger.events = u.ledger.events ++ [.finished .converged solution.evals solution.point] ∧
        u.radius = solution.radius ∧ Spent q fuel t u := by
  obtain ⟨hstart, -⟩ := start_unreduced h
  refine ⟨hstart, fun count s hs => ?_, fun o solution ho hok hstatus => ?_⟩
  · subst hs
    have hdescended := descended_follow h fuel count
    refine ⟨hdescended.radius, hdescended.least, fun earlier radius penalty evals best later hsplit => ?_,
      two_pow_lt (measured_follow h fuel count)⟩
    have hreduction := hdescended.each earlier _ later hsplit radius penalty evals best rfl
    exact ⟨⟨hreduction.smaller, hreduction.halved, hreduction.least, hreduction.apart⟩,
      (spent_follow h fuel count).1 earlier _ later hsplit radius penalty evals best rfl⟩
  · obtain ⟨r', e, hr', he, hfinish⟩ := finish_eq_of_minimizeWithin ho hok
    cases h.symm.trans hr'
    rw [hstatus] at he hfinish
    obtain ⟨hspent, hend⟩ := (spent_follow h fuel fuel).2 (congrArg Run.phase he)
    have hdescended := descended_follow h fuel fuel
    rw [he] at hspent hend hdescended
    generalize o.ledger = l at hfinish ⊢
    cases hfinish
    obtain ⟨k, t, u, ht, hu, hevents, hradius, hspent⟩ := hspent
    refine ⟨le_antisymm hend hdescended.least, k, t, u, ht, hu, ?_, hradius.trans hdescended.radius.symm, hspent⟩
    rw [hevents]
    exact Ledger.events_announce ..

end

theorem exists_reduction {K I O : Type} {n : Nat} {events : List (Event K I O n)} (h : halvings events ≠ 0) :
    ∃ earlier radius penalty evals best later,
      events = earlier ++ .radiusReduced radius penalty evals best :: later := by
  obtain ⟨event, hmem, hevent⟩ := List.countP_pos_iff.mp (Nat.pos_of_ne_zero h)
  obtain ⟨earlier, later, hsplit⟩ := List.append_of_mem hmem
  cases event with
  | radiusReduced radius penalty evals best => exact ⟨earlier, radius, penalty, evals, best, later, hsplit⟩
  | evaluated => cases hevent
  | penaltyIncreased => cases hevent
  | finished => cases hevent

/-- The run on the cubic reduces its radius from two to one and converges there. -/
theorem radius_descends_cubic : ∃ r o solution earlier radius, unwatched.start #v[0] () = .ok r ∧
    unwatched.minimizeWithin #v[0] () 4 = some o ∧ o.result = .ok solution ∧ solution.status = .converged ∧
    r.state.radius = 2 ∧ solution.radius = 1 ∧ radius < radiusAfter 2 earlier ∧
    (∃ k t u, unwatched.follow 4 r k = ⟨.selectBest, t⟩ ∧ unwatched.follow 4 r (k + 1) = ⟨.shrinkRadius, u⟩ ∧
      u.ledger.events = earlier ∧ Spent unwatched 4 t u) ∧
    ∃ k t u, unwatched.follow 4 r k = ⟨.selectBest, t⟩ ∧ unwatched.follow 4 r (k + 1) = ⟨.shrinkRadius, u⟩ ∧
      o.ledger.events = u.ledger.events ++ [.finished .converged solution.evals solution.point] ∧
      Spent unwatched 4 t u := by
  obtain ⟨r, e, hr, he, -⟩ := follow_cubic
  have ho := minimizeWithin_of_finish hr he
  obtain ⟨hstart, hall, hconverged⟩ := radius_descends unwatched hr 4
  obtain ⟨hradius, -, hreductions, -⟩ := hall 4 e (congrArg Run.state he)
  obtain ⟨hfinal, k', t', u', ht', hu', hevents, -, hspent⟩ := hconverged _ _ ho rfl rfl
  have hend : e.radius = 1 := hfinal
  have hreduced : halvings e.ledger.events ≠ 0 := by
    intro hnone
    rw [← List.nil_append e.ledger.events, radiusAfter_append hnone, hend] at hradius
    have htwo : (1 : ℝ) = 2 := hradius
    norm_num at htwo
  obtain ⟨earlier, radius, penalty, evals, best, later, hsplit⟩ := exists_reduction hreduced
  obtain ⟨⟨hsmaller, -⟩, k, t, u, ht, hu, hearlier, -, hgained⟩ :=
    hreductions earlier radius penalty evals best later hsplit
  exact ⟨r, _, _, earlier, radius, hr, ho, rfl, rfl, hstart, hfinal, hsmaller, ⟨k, t, u, ht, hu, hearlier, hgained⟩,
    k', t', u', ht', hu', hevents, hspent⟩

end Search

end TrustSimplex
