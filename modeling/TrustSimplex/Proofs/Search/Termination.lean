import TrustSimplex.Proofs.Search.Progress
import TrustSimplex.Proofs.Simplex.Penalty

/-!
# Runs end

The budget bounds the evaluations, and a radius that is halved comes to the final one. Between two of these
events a run takes few phases, so it ends if every step of the linear models is found.
-/

namespace TrustSimplex

section
variable {α I O : Type} {n : Nat}

def halvings (events : List (Event α I O n)) : Nat := events.countP Event.isRadiusReduced

theorem halvings_append (earlier later : List (Event α I O n)) :
    halvings (earlier ++ later) = halvings earlier + halvings later :=
  List.countP_append

theorem evaluations_append (earlier later : List (Event α I O n)) :
    evaluations (earlier ++ later) = evaluations earlier + evaluations later :=
  List.countP_append

end

namespace Search

section
variable {K I O ε σ : Type} [EuclideanField K] {n m : Nat} {q : Search K I O ε σ n m} {s u : State K I O σ n m}
variable {new : List (Event K I O n)} {x : Vector K n} {memory : σ} {r : Run K I O ε σ n m}

/-! ## How often the radius is reduced -/

structure Measured (q : Search K I O ε σ n m) (s : State K I O σ n m) : Prop where
  penalty : 0 ≤ s.penalty
  radius : s.radius ≤ q.config.finalRadius ∨ s.radius * 2 ^ halvings s.ledger.events ≤ q.config.startRadius
  bounded : ∀ bound, q.config.startRadius ≤ q.config.finalRadius * 2 ^ bound → halvings s.ledger.events ≤ bound

theorem Measured.later (h : Measured q s) (hpenalty : 0 ≤ u.penalty) (hradius : u.radius = s.radius)
    (hevents : u.ledger.events = s.ledger.events ++ new) (hnew : halvings new = 0) : Measured q u := by
  have hsame : halvings u.ledger.events = halvings s.ledger.events := by
    rw [hevents, halvings_append, hnew, Nat.add_zero]
  refine ⟨hpenalty, ?_, ?_⟩
  · rw [hradius, hsame]
    exact h.radius
  · rw [hsame]
    exact h.bounded

theorem Measured.attempted {kind : Probe}
    {next : Sample K (Snapshot I O) m → Ledger K I O σ n → Phase K ε n × State K I O σ n m}
    {out : Phase K ε n × State K I O σ n m} (h : Measured q s) (ho : Attempted q s x kind next out)
    (hnext : ∀ sample ledger, (next sample ledger).2.ledger = ledger ∧
      (next sample ledger).2.radius = s.radius ∧ (next sample ledger).2.penalty = s.penalty) :
    Measured q out.2 := by
  cases ho with
  | exhausted => exact h
  | failed hp => exact h.later h.penalty rfl ((events_of_probe_error hp).trans (List.append_nil _).symm) rfl
  | stopped hp => exact h.later h.penalty rfl (probed hp).events rfl
  | @evaluated sample ledger hp =>
    obtain ⟨hledger, hradius, hpenalty⟩ := hnext sample ledger
    exact h.later (hpenalty.symm ▸ h.penalty) hradius ((congrArg Ledger.events hledger).trans (probed hp).events) rfl

theorem Measured.iterated {fuel : Nat} {out : Phase K ε n × State K I O σ n m} (h : Measured q s)
    (ho : Iterated q s fuel out) : Measured q out.2 := by
  have hselected : Measured q s.surveyed := ⟨h.penalty, h.radius, h.bounded⟩
  have hraised : ∀ {p : Prediction K}, s.penalty < 1.5 * p.leastPenalty → 0 ≤ 2.0 * p.leastPenalty :=
    fun hraise => h.penalty.trans (lt_raised h.penalty hraise).le
  cases ho with
  | inaccurate =>
    exact h.later h.penalty rfl ((Ledger.events_add_inaccurate _ _ _).trans (List.append_nil _).symm) rfl
  | @repaired j step _ _ _ ha =>
    have hmoved : Measured q { s.surveyed with simplex := s.surveyed.simplex.replace j step } :=
      ⟨h.penalty, h.radius, h.bounded⟩
    exact hmoved.attempted ha fun _ _ => ⟨rfl, rfl, rfl⟩
  | unresolved => exact hselected
  | tooShort => exact ⟨h.penalty, h.radius, h.bounded⟩
  | stepped _ _ hstepped =>
    cases hstepped with
    | halted hraise ha => exact h.later (hraised hraise) rfl (Ledger.announced ha).events rfl
    | overtaken hraise ha => exact h.later (hraised hraise) rfl (Ledger.announced ha).events rfl
    | @tried w _ hw ha =>
      have hweighed : Measured q w := by
        cases hw with
        | kept => exact hselected
        | raised hraise hshown => exact h.later (hraised hraise) rfl (Ledger.announced hshown).events rfl
      have hunarmed : Measured q { w with repairArmed := false } :=
        ⟨hweighed.penalty, hweighed.radius, hweighed.bounded⟩
      refine hunarmed.attempted ha fun sample ledger => ?_
      obtain ⟨-, hledger, hradius, hpenalty, -⟩ := judged_accept (ε := ε) { w with repairArmed := false, ledger }
        s.surveyed.geometry _ _ sample
      exact ⟨hledger, hradius, hpenalty⟩

/-- A radius above the final one has been halved at each reduction, so one more is within every bound. -/
theorem Measured.reduced (h : Measured q s) (hend : ¬ s.radius ≤ q.config.finalRadius)
    (hradius : u.radius = q.reducedRadius s.radius) (hpenalty : u.penalty = s.reducedPenalty)
    (hevents : halvings u.ledger.events = halvings s.ledger.events + 1) : Measured q u := by
  have hlarge := h.radius.resolve_left hend
  refine ⟨?_, ?_, fun bound hbound => ?_⟩
  · rw [hpenalty]
    unfold State.reducedPenalty
    split_ifs
    · exact s.simplex.rescaledPenalty_nonneg h.penalty
    · exact h.penalty
  · rw [hradius, hevents]
    unfold reducedRadius
    dsimp only
    split_ifs
    · exact Or.inl (le_refl _)
    · refine Or.inr (le_of_eq_of_le ?_ hlarge)
      rw [pow_succ]
      ring
  · rw [hevents]
    have hpos : (0 : K) < 2 ^ halvings s.ledger.events := pow_pos two_pos _
    have hlt : q.config.finalRadius * 2 ^ halvings s.ledger.events < q.config.finalRadius * 2 ^ bound :=
      (mul_lt_mul_of_pos_right (not_le.mp hend) hpos).trans_le (hlarge.trans hbound)
    exact (pow_lt_pow_iff_right₀ one_lt_two).mp (lt_of_mul_lt_mul_left hlt q.finalRadius_pos.le)

theorem Measured.shrunk {out : Phase K ε n × State K I O σ n m} (h : Measured q s) (ho : Shrunk q s out) :
    Measured q out.2 := by
  have hshown : ∀ {answer ledger}, s.ledger.announce q.observer (.radiusReduced (q.reducedRadius s.radius)
      s.reducedPenalty s.ledger.evals s.simplex.best) = (answer, ledger) →
        halvings ledger.events = halvings s.ledger.events + 1 := by
    intro answer ledger ha
    rw [(Ledger.announced ha).events, halvings_append]
    rfl
  cases ho with
  | rearmed => exact ⟨h.penalty, h.radius, h.bounded⟩
  | converged => exact h
  | halted _ hend ha => exact h.reduced hend rfl rfl (hshown ha)
  | reduced _ hend ha => exact h.reduced hend rfl rfl (hshown ha)

theorem measured_start (h : q.start x memory = .ok r) : Measured q r.state := by
  have hfirst : ∀ {first answer ledger}, q.probe (.start memory) x .initial = (.ok (first, answer), ledger) →
      Measured q (q.firstState x first ledger) := by
    intro first answer ledger hp
    have hnone : halvings ledger.events = 0 := by
      rw [(probed hp).events]
      rfl
    have hradius : q.config.startRadius * 2 ^ halvings ledger.events ≤ q.config.startRadius := by
      rw [hnone, pow_zero, mul_one]
    exact ⟨le_refl 0, Or.inr hradius, fun bound _ => hnone.trans_le (Nat.zero_le bound)⟩
  have hstarted : Started q x memory (Measured q) r :=
    started hfirst (fun h _ hp => h.later h.penalty rfl (probed hp).events rfl) h
  cases hstarted with
  | stopped hp => exact hfirst hp
  | built hbuilt =>
    cases hbuilt with
    | failed hs _ hp => exact hs.later hs.penalty rfl ((events_of_probe_error hp).trans (List.append_nil _).symm) rfl
    | stopped hs _ hp => exact hs.later hs.penalty rfl (probed hp).events rfl
    | complete hs => exact hs

theorem measured_follow (h : q.start x memory = .ok r) (fuel count : Nat) :
    Measured q (q.follow fuel r count).state :=
  follow_invariant (P := fun _ s => Measured q s) (fun s hs => hs.iterated (Search.iterated s fuel))
    (fun s hs => hs.shrunk (Search.shrunk s)) count (measured_start h)

/-! ## The end of a run -/

theorem resolved_start (h : q.start x memory = .ok r) : r.phase ≠ .unresolved := by
  have hstarted : Started q x memory (fun _ => True) r := started (fun _ => trivial) (fun _ _ _ => trivial) h
  cases hstarted with
  | stopped => exact nofun
  | built hbuilt => cases hbuilt <;> exact nofun

theorem ready_follow (h : q.start x memory = .ok r) {fuel count : Nat}
    (hactive : (q.follow fuel r count).phase.isActive = true) : Ready (q.follow fuel r count).state := by
  have htracked := tracked_follow h fuel count
  have hexact := (reached_follow h fuel count).1.exact
  have hmeasured := measured_follow h fuel count
  generalize q.follow fuel r count = t at hactive htracked hexact hmeasured
  obtain ⟨phase, s⟩ := t
  cases phase with
  | selectBest => exact ⟨htracked.full, hexact.2, hmeasured.penalty⟩
  | shrinkRadius => exact ⟨htracked.1.full, hexact.2, hmeasured.penalty⟩
  | finish => cases hactive
  | failed => cases hactive
  | unresolved => cases hactive

theorem attempts_le (h : q.start x memory = .ok r) (fuel count : Nat) :
    (q.follow fuel r count).state.ledger.attempts.length ≤ q.config.maxEvals := by
  have htraced := traced_follow h fuel count
  generalize q.follow fuel r count = t at htraced
  obtain ⟨phase, s⟩ := t
  cases phase with
  | selectBest => exact htraced.accounted.attempts_le
  | shrinkRadius => exact htraced.accounted.attempts_le
  | finish => exact htraced.1.attempts_le
  | failed => exact htraced
  | unresolved => exact htraced

theorem evaluations_le (h : q.start x memory = .ok r) {fuel count : Nat}
    (hactive : (q.follow fuel r count).phase.isActive = true) :
    evaluations (q.follow fuel r count).state.ledger.events ≤ q.config.maxEvals := by
  have htraced := traced_follow h fuel count
  generalize q.follow fuel r count = t at hactive htraced
  obtain ⟨phase, s⟩ := t
  have hrunning : Running q memory s.ledger := by cases phase <;> first | exact htraced | cases hactive
  exact hrunning.accounted.evals ▸ hrunning.accounted.budget

/-- What is left of the budget and of the reductions falls with every progress. -/
theorem exists_over {bound : Nat} (hbound : q.config.startRadius ≤ q.config.finalRadius * 2 ^ bound)
    (hr : q.start x memory = .ok r) (hresolves : Resolves q r) {left fuel count : Nat}
    (hresolved : (q.follow fuel r count).phase ≠ .unresolved)
    (hleft : q.config.maxEvals + bound - (evaluations (q.follow fuel r count).state.ledger.events +
      halvings (q.follow fuel r count).state.ledger.events) = left) :
    ∃ fuel count, (q.follow fuel r count).phase.isActive = false ∧ (q.follow fuel r count).phase ≠ .unresolved := by
  induction left using Nat.strong_induction_on generalizing fuel count with
  | _ left ih =>
    cases hactive : (q.follow fuel r count).phase.isActive with
    | false => exact ⟨fuel, count, hactive, hresolved⟩
    | true =>
      obtain ⟨more, steps, -, hprogress⟩ :=
        settles hactive (ready_follow hr hactive) (hresolves.follow hresolved)
      -- the phases to the next progress are a part of one run with passes enough for both
      have hsame := q.follow_follow hresolved hprogress.resolved
      rw [← hsame] at hprogress
      obtain ⟨hresolved, new, hnew, -, hshown⟩ := hprogress
      cases hlater : (q.follow (max fuel more) r (count + steps)).phase.isActive with
      | false => exact ⟨_, _, hlater, hresolved⟩
      | true =>
        refine ih _ ?_ hresolved rfl
        have hevaluations := evaluations_le hr hlater
        have hhalvings := (measured_follow hr (max fuel more) (count + steps)).bounded bound hbound
        have hpositive : 0 < evaluations new + halvings new := by
          obtain ⟨e, he, hkind | hkind⟩ := hshown hlater
          · exact Nat.add_pos_left (List.countP_pos_iff.mpr ⟨e, he, hkind⟩) _
          · exact Nat.add_pos_right _ (List.countP_pos_iff.mpr ⟨e, he, hkind⟩)
        rw [hnew, evaluations_append] at hevaluations
        rw [hnew, halvings_append] at hhalvings
        rw [hnew, evaluations_append, halvings_append]
        omega

theorem exists_halvingBound [Archimedean K] (q : Search K I O ε σ n m) :
    ∃ bound, q.config.startRadius ≤ q.config.finalRadius * 2 ^ bound := by
  obtain ⟨bound, hbound⟩ := pow_unbounded_of_one_lt (q.config.startRadius / q.config.finalRadius)
    (one_lt_two : (1 : K) < 2)
  rw [div_lt_iff₀ q.finalRadius_pos, mul_comm] at hbound
  exact ⟨bound, hbound.le⟩

/-- A run ends if every step of its linear models is found. From every state on the way it makes progress
within `n + 3` phases, in which the penalty is raised at most `n + 1` times, it attempts no more than its
budget, and its radius is reduced only so often. -/
theorem minimizeWithin_terminates [Archimedean K] (q : Search K I O ε σ n m) (x : Vector K n) (memory : σ)
    (hresolves : ∀ r, q.start x memory = .ok r → Resolves q r) :
    (∃ fuel o, q.minimizeWithin x memory fuel = some o) ∧
    ∀ r, q.start x memory = .ok r →
      (∀ fuel count, (q.follow fuel r count).phase.isActive = true →
        Settles q (n + 3) (n + 1) (q.follow fuel r count)) ∧
      (∀ fuel count, (q.follow fuel r count).state.ledger.attempts.length ≤ q.config.maxEvals) ∧
      ∃ bound, ∀ fuel count, halvings (q.follow fuel r count).state.ledger.events ≤ bound := by
  obtain ⟨bound, hbound⟩ := q.exists_halvingBound
  refine ⟨?_, fun r hr => ⟨fun fuel count hactive => ?_, attempts_le hr, bound, fun fuel count =>
    (measured_follow hr fuel count).bounded bound hbound⟩⟩
  · cases hstart : q.start x memory with
    | error o =>
      refine ⟨0, o, ?_⟩
      unfold minimizeWithin
      rw [hstart]
    | ok r =>
      have hfirst : (q.follow 0 r 0).phase ≠ .unresolved := resolved_start hstart
      obtain ⟨fuel, count, hover, hresolved⟩ := exists_over hbound hstart (hresolves r hstart) hfirst rfl
      obtain ⟨o, ho⟩ := q.exists_outcome hover hresolved
      refine ⟨max fuel count, o, ?_⟩
      unfold minimizeWithin
      rw [hstart]
      exact q.outcome?_follow_of_le (le_max_left _ _) (le_max_right _ _) ho
  · refine settles hactive (ready_follow hr hactive) ((hresolves r hr).follow fun hp => ?_)
    rw [hp] at hactive
    cases hactive

end

/-- The run on the cubic tries two steps and ends at the final radius. -/
theorem minimizeWithin_terminates_cubic :
    (∀ r, unwatched.start #v[0] () = .ok r → Resolves unwatched r) ∧
    (∃ fuel o, unwatched.minimizeWithin #v[0] () fuel = some o) ∧
    ∀ r, unwatched.start #v[0] () = .ok r →
      (∀ fuel count, (unwatched.follow fuel r count).phase.isActive = true →
        Settles unwatched 4 2 (unwatched.follow fuel r count)) ∧
      (∀ fuel count, (unwatched.follow fuel r count).state.ledger.attempts.length ≤ 100) ∧
      ∃ bound, ∀ fuel count, halvings (unwatched.follow fuel r count).state.ledger.events ≤ bound := by
  have hresolves : ∀ r, unwatched.start #v[0] () = .ok r → Resolves unwatched r := by
    intro r hr
    obtain ⟨r', e, hr', he, -⟩ := follow_cubic
    cases hr.symm.trans hr'
    have hend : (unwatched.follow 4 r 4).phase = .finish .converged := congrArg Run.phase he
    refine resolves_of_over hr (?_ : (unwatched.follow 4 r 4).phase ≠ .unresolved) ?_
    · rw [hend]
      exact nofun
    · rw [hend]
      rfl
  exact ⟨hresolves, minimizeWithin_terminates unwatched #v[0] () hresolves⟩

end Search

end TrustSimplex
