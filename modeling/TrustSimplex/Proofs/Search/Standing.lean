import TrustSimplex.Proofs.Search.Penalty

/-!
# The standing of the pole

Whenever a repair or a trial is evaluated, the pole that it is measured from is a best vertex under the penalty
of that moment: the selection made it so, and a penalty that was raised since has put no other vertex before it.
As long as the penalty is not announced anew the pole never gets worse.
-/

namespace TrustSimplex

section
variable {K : Type} [EuclideanField K] {penalty f v g w : K}

def NoWorse (penalty f v g w : K) : Prop :=
  f + penalty * v ≤ g + penalty * w ∧ (penalty = 0 → f = g → v ≤ w)

theorem noWorse_of_rank_le (h : rank penalty f v ≤ rank penalty g w) : NoWorse penalty f v g w := by
  refine ⟨Search.merit_le_of_rank_le h, fun hzero hsame => ?_⟩
  have hnot : ¬ Better penalty g w f v := fun hbetter => (better_iff.mp hbetter).not_ge h
  refine not_lt.mp fun hlt => hnot (Or.inr ⟨?_, hzero, hlt⟩)
  rw [hzero, hsame, zero_mul, zero_mul]

end

namespace Search

section
variable {K I O ε σ : Type} [EuclideanField K] {n m : Nat} {q : Search K I O ε σ n m}
variable {s w : State K I O σ n m} {x step : Vector K n} {memory : σ} {r : Run K I O ε σ n m} {fuel : Nat}
variable {kind : Probe}

/-! ## The pole of a prepared state -/

def PoleLeads (s : State K I O σ n m) : Prop :=
  ∀ v, NoWorse s.penalty (s.simplex.objective .pole) (s.simplex.maxViolation .pole) (s.simplex.objective v)
    (s.simplex.maxViolation v)

theorem Weighed.rank_pole_le {p : Prediction K} (h : Weighed q s p w)
    (hbest : ∀ v, s.simplex.rank s.penalty .pole ≤ s.simplex.rank s.penalty v) (v : Vertex n) :
    w.simplex.rank w.penalty .pole ≤ w.simplex.rank w.penalty v := by
  cases h with
  | kept => exact hbest v
  | raised _ _ hunbeaten =>
    refine not_lt.mp fun hlt => ?_
    rw [Simplex.poleIsBeaten_iff.mpr ⟨v, hlt⟩] at hunbeaten
    cases hunbeaten

theorem Readied.poleLeads (h : Readied q s fuel kind step w) (hfull : s.simplex.others.size = n) : PoleLeads w := by
  have hselected : ∀ v, s.surveyed.simplex.rank s.surveyed.penalty .pole ≤
      s.surveyed.simplex.rank s.surveyed.penalty v :=
    Simplex.rank_pole_pivotTo_selectBest_le hfull s.penalty
  intro v
  apply noWorse_of_rank_le
  cases h with
  | repair => exact hselected v
  | trial _ _ hw => exact hw.rank_pole_le hselected v

/-! ## The pole along a run -/

theorem events_advance (q : Search K I O ε σ n m) (r : Run K I O ε σ n m) (fuel : Nat) :
    ∃ new, (q.advance r fuel).state.ledger.events = r.state.ledger.events ++ new := by
  obtain ⟨phase, s⟩ := r
  cases phase with
  | selectBest =>
    obtain ⟨-, new, hnew, -⟩ := steady_iterated (q := q) (iterated s fuel)
    exact ⟨new, hnew⟩
  | shrinkRadius =>
    have ho : Shrunk q s (q.shrink s) := shrunk s
    show ∃ new, (q.shrink s).2.ledger.events = s.ledger.events ++ new
    generalize q.shrink s = out at ho ⊢
    cases ho with
    | rearmed => exact ⟨[], (List.append_nil _).symm⟩
    | converged => exact ⟨[], (List.append_nil _).symm⟩
    | halted _ _ ha => exact ⟨_, (Ledger.announced ha).events⟩
    | reduced _ _ ha => exact ⟨_, (Ledger.announced ha).events⟩
  | finish => exact ⟨[], (List.append_nil _).symm⟩
  | failed => exact ⟨[], (List.append_nil _).symm⟩
  | unresolved => exact ⟨[], (List.append_nil _).symm⟩

theorem events_follow (q : Search K I O ε σ n m) (fuel : Nat) (count : Nat) (r : Run K I O ε σ n m) :
    ∃ new, (q.follow fuel r count).state.ledger.events = r.state.ledger.events ++ new := by
  induction count with
  | zero => exact ⟨[], (List.append_nil _).symm⟩
  | succ count ih =>
    obtain ⟨new, hnew⟩ := ih
    rw [follow_succ_last]
    split_ifs
    · obtain ⟨last, hlast⟩ := q.events_advance (q.follow fuel r count) fuel
      exact ⟨new ++ last, by rw [hlast, hnew, List.append_assoc]⟩
    · exact ⟨new, hnew⟩

theorem penalty_follow_eq (h : q.start x memory = .ok r) {i j : Nat} {new : List (Event K I O n)}
    (hnew : (q.follow fuel r j).state.ledger.events = (q.follow fuel r i).state.ledger.events ++ new)
    (hnone : ∀ e ∈ new, e.penalty? = none) :
    (q.follow fuel r j).state.penalty = (q.follow fuel r i).state.penalty := by
  rw [(priced_follow h fuel j).penalty, (priced_follow h fuel i).penalty, hnew, penaltyAfter_append hnone]

theorem rank_pole_follow_le (h : q.start x memory = .ok r) {i count : Nat} {new : List (Event K I O n)}
    (hnew : (q.follow fuel r (i + count)).state.ledger.events = (q.follow fuel r i).state.ledger.events ++ new)
    (hnone : ∀ e ∈ new, e.penalty? = none) :
    (q.follow fuel r (i + count)).state.simplex.rank (q.follow fuel r i).state.penalty .pole ≤
      (q.follow fuel r i).state.simplex.rank (q.follow fuel r i).state.penalty .pole := by
  -- each phase is one step of the induction; the new events split into those before its last phase and the rest
  induction count generalizing new with
  | zero => exact le_refl _
  | succ count ih =>
    obtain ⟨before, hbefore⟩ := q.events_follow fuel count (q.follow fuel r i)
    rw [← q.follow_add] at hbefore
    have hstep := q.follow_succ_last fuel r (i + count)
    have hfull := (owned_follow h fuel (i + count)).full
    rw [← Nat.add_assoc] at hnew ⊢
    obtain ⟨last, hlast⟩ : ∃ last, (q.follow fuel r (i + count + 1)).state.ledger.events =
        (q.follow fuel r (i + count)).state.ledger.events ++ last := by
      obtain ⟨last, hlast⟩ := q.events_follow fuel 1 (q.follow fuel r (i + count))
      rw [← q.follow_add] at hlast
      exact ⟨last, hlast⟩
    have hsplit : new = before ++ last := by
      rw [hlast, hbefore, List.append_assoc] at hnew
      exact (List.append_cancel_left hnew).symm
    have hearlier : ∀ e ∈ before, e.penalty? = none := fun e he =>
      hnone e (hsplit ▸ List.mem_append_left last he)
    refine le_trans ?_ (ih hbefore hearlier)
    have hsame : (q.follow fuel r (i + count)).state.penalty = (q.follow fuel r i).state.penalty :=
      penalty_follow_eq h hbefore hearlier
    rw [hstep, ← hsame]
    split_ifs
    · exact q.rank_pole_advance_le _ hfull fuel
    · exact le_refl _

/-! ## Whole runs -/

/-- Every evaluation that a selection makes, if any, is made in a state that it has prepared, and in all of these
the pole is a best vertex; so it is at each repair and each trial that was shown, under the penalty announced last.
Between two states of a run with no new penalty and no reduction of the radius the pole has not become worse. -/
theorem pole_leads (q : Search K I O ε σ n m) (h : q.start x memory = .ok r) (fuel : Nat) :
    (∀ k t, q.follow fuel r k = ⟨.selectBest, t⟩ →
      ((q.iterate t fuel).2.ledger.attempts = t.ledger.attempts ∨ ∃ kind step w, Readied q t fuel kind step w ∧
        (q.iterate t fuel).2.ledger.attempts = t.ledger.attempts ++ [w.simplex.offset step]) ∧
      ∀ kind step w, Readied q t fuel kind step w → PoleLeads w) ∧
    (∀ count earlier evals kind p snapshot later,
      (q.follow fuel r count).state.ledger.events = earlier ++ .evaluated evals kind p snapshot :: later →
      kind ≠ .initial →
      ∃ k t step w, q.follow fuel r k = ⟨.selectBest, t⟩ ∧ Readied q t fuel kind step w ∧
        w.ledger.events = earlier ∧ p.x = w.simplex.offset step ∧ w.penalty = penaltyAfter earlier ∧ PoleLeads w) ∧
    ∀ i j new, i ≤ j → (q.follow fuel r j).state.ledger.events = (q.follow fuel r i).state.ledger.events ++ new →
      (∀ e ∈ new, e.isPenaltyIncreased = false ∧ e.isRadiusReduced = false) →
      (q.follow fuel r j).state.penalty = (q.follow fuel r i).state.penalty ∧
      NoWorse (q.follow fuel r i).state.penalty
        ((q.follow fuel r j).state.simplex.objective .pole) ((q.follow fuel r j).state.simplex.maxViolation .pole)
        ((q.follow fuel r i).state.simplex.objective .pole) ((q.follow fuel r i).state.simplex.maxViolation .pole) := by
  have hleads : ∀ {k t kind step w}, q.follow fuel r k = ⟨.selectBest, t⟩ → Readied q t fuel kind step w →
      PoleLeads w := by
    intro k t kind step w hk hw
    have hfull := (owned_follow h fuel k).full
    rw [hk] at hfull
    exact hw.poleLeads (hfull rfl)
  refine ⟨fun k t hk => ⟨attempts_iterate t fuel, fun kind step w hw => hleads hk hw⟩, ?_, ?_⟩
  · intro count earlier evals kind p snapshot later hsplit hkind
    obtain ⟨k, t, step, w, hk, hw, hearlier, hx⟩ :=
      madeBy_follow h fuel count earlier _ later hsplit evals kind p snapshot rfl hkind
    have hpriced := priced_follow h fuel k
    rw [hk] at hpriced
    exact ⟨k, t, step, w, hk, hw, hearlier, hx, hearlier ▸ (hpriced.readied hw).penalty, hleads hk hw⟩
  · intro i j new hij hnew hnone
    have hquiet : ∀ e ∈ new, e.penalty? = none := fun e he => Event.penalty?_eq_none (hnone e he).1 (hnone e he).2
    obtain ⟨count, rfl⟩ := Nat.exists_eq_add_of_le hij
    exact ⟨penalty_follow_eq h hnew hquiet, noWorse_of_rank_le (rank_pole_follow_le h hnew hquiet)⟩

end

/-- The run that is stopped at its last trial, before and after it. -/
theorem follow_targeted_trial : ∃ r ledger ledger', targeted.start #v[0] () = .ok r ∧
    targeted.follow 4 r 2 = ⟨.selectBest, cubicState 1 ledger⟩ ∧
    targeted.follow 4 r 3 = ⟨.finish .stoppedByObserver, cubicState 1 ledger'⟩ ∧
    ledger'.events = ledger.events ++ [cubicEvent ledger'.evals (-1) .trial] := by
  obtain ⟨r, ledger, hr, hevals, hfollow⟩ := follow_cubic_two passesNonnegative_atTarget
  have hprobe := probe_cubic_step atTarget 1 ledger
  rw [atTarget_trial] at hprobe
  have hbudget : targeted.hasBudget ledger = true := decide_eq_true (by rw [hevals]; decide)
  have hiterate : targeted.iterate (cubicState 1 ledger) 4 = _ :=
    (iterate_cubic_eq_tryStep atTarget (le_refl 1) one_le_two ledger 3).trans (tryStep_eq_stopped hbudget hprobe)
  exact ⟨r, ledger, _, hr, hfollow 0, (hfollow 1).trans (follow_selectBest hiterate 0),
    (probed (probe_cubic atTarget ledger (-1) .trial)).events⟩

theorem pole_leads_targeted : ∃ r t u w step evals p snapshot, targeted.start #v[0] () = .ok r ∧
    targeted.follow 4 r 2 = ⟨.selectBest, t⟩ ∧ targeted.follow 4 r 3 = ⟨.finish .stoppedByObserver, u⟩ ∧
    u.ledger.events = t.ledger.events ++ [.evaluated evals .trial p snapshot] ∧
    (∃ k t', targeted.follow 4 r k = ⟨.selectBest, t'⟩ ∧ Readied targeted t' 4 .trial step w) ∧
    p.x = w.simplex.offset step ∧ PoleLeads w ∧
    NoWorse t.penalty (u.simplex.objective .pole) (u.simplex.maxViolation .pole) (t.simplex.objective .pole)
      (t.simplex.maxViolation .pole) := by
  obtain ⟨r, ledger, ledger', hr, ht, hu, hevents⟩ := follow_targeted_trial
  obtain ⟨hreadied, hshown, hkept⟩ := pole_leads targeted hr 4
  have hsplit : (targeted.follow 4 r 3).state.ledger.events =
      ledger.events ++ [cubicEvent ledger'.evals (-1) .trial] := by
    rw [hu]
    exact hevents
  have hnew : (targeted.follow 4 r 3).state.ledger.events =
      (targeted.follow 4 r 2).state.ledger.events ++ [cubicEvent ledger'.evals (-1) .trial] := by
    rw [hsplit, ht]
    rfl
  obtain ⟨k, t', step, w, hk, hw, -, hx, -, -⟩ := hshown 3 _ _ _ _ _ [] hsplit nofun
  have hle := (hkept 2 3 _ (by decide) hnew fun e he => by rw [List.mem_singleton.mp he]; exact ⟨rfl, rfl⟩).2
  rw [ht, hu] at hle
  exact ⟨r, _, _, w, step, _, _, _, hr, ht, hu, hevents, ⟨k, t', hk, hw⟩, hx, (hreadied k t' hk).2 _ _ _ hw, hle⟩

end Search

end TrustSimplex
