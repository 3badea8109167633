import TrustSimplex.Proofs.Search.Trace
import TrustSimplex.Proofs.Simplex.Backtracking
import TrustSimplex.Proofs.Simplex.Repair

/-!
# The wait for the next evaluation

A selection can end without an evaluation, for a step that is too short or for a penalty that makes another
vertex the best, and a reduction of the radius may do no more than arm a repair. Each new penalty lowers the
violation of the pole, so it changes at most `n` times, and an armed repair is made at the next selection. From
one evaluation or smaller radius to the next a run takes at most `n + 3` phases.
-/

namespace TrustSimplex

section
variable {α I O : Type} {n : Nat}

def Event.isPenaltyIncreased : Event α I O n → Bool
  | evaluated .. => false
  | penaltyIncreased _ => true
  | radiusReduced .. => false
  | finished .. => false

def Event.isRadiusReduced : Event α I O n → Bool
  | evaluated .. => false
  | penaltyIncreased _ => false
  | radiusReduced .. => true
  | finished .. => false

def raises (events : List (Event α I O n)) : Nat := events.countP Event.isPenaltyIncreased

theorem raises_append (earlier later : List (Event α I O n)) :
    raises (earlier ++ later) = raises earlier + raises later :=
  List.countP_append

end

namespace Search

section
variable {K I O ε σ : Type} [EuclideanField K] {n m : Nat} {q : Search K I O ε σ n m} {s : State K I O σ n m}
variable {t u : Run K I O ε σ n m} {new : List (Event K I O n)} {steps limit : Nat}

/-! ## Progress -/

/-- From `t` to `u` an evaluation or a smaller radius was shown, or the run is over in `u`; the penalty was
raised no more often than `limit`. -/
structure Progressed (t u : Run K I O ε σ n m) (limit : Nat) : Prop where
  resolved : u.phase ≠ .unresolved
  shown : ∃ new, u.state.ledger.events = t.state.ledger.events ++ new ∧ raises new ≤ limit ∧
    (u.phase.isActive = true → ∃ e ∈ new, e.isEvaluated = true ∨ e.isRadiusReduced = true)

def Settles (q : Search K I O ε σ n m) (steps limit : Nat) (t : Run K I O ε σ n m) : Prop :=
  ∃ fuel, ∃ count ≤ steps, Progressed t (q.follow fuel t count) limit

/-- Every step that the run asks of its linear models is found within some passes. -/
def Resolves (q : Search K I O ε σ n m) (t : Run K I O ε σ n m) : Prop :=
  ∀ fuel count s, q.follow fuel t count = ⟨.selectBest, s⟩ → s.vertexInRepair? = none →
    ∃ more step, s.surveyed.simplex.linearize.solveWithin s.radius more = some step

theorem Resolves.follow (h : Resolves q t) {fuel count : Nat}
    (hresolved : (q.follow fuel t count).phase ≠ .unresolved) : Resolves q (q.follow fuel t count) := by
  intro more further s hs
  have hfurther : (q.follow more (q.follow fuel t count) further).phase ≠ .unresolved := by
    rw [hs]
    exact nofun
  rw [← q.follow_follow hresolved hfurther] at hs
  exact h _ _ s hs

theorem Resolves.advance (h : Resolves q t) (ht : t.phase.isActive = true) {fuel : Nat}
    (hu : q.advance t fuel = u) (hresolved : u.phase ≠ .unresolved) : Resolves q u := by
  have hfollow : q.follow fuel t 1 = u := (q.follow_succ ht fuel 0).trans hu
  exact hfollow ▸ h.follow (hfollow ▸ hresolved)

theorem Settles.mono {steps' limit' : Nat} (h : Settles q steps limit t) (hsteps : steps ≤ steps')
    (hlimit : limit ≤ limit') : Settles q steps' limit' t := by
  obtain ⟨fuel, count, hcount, hresolved, new, hnew, hraises, hshown⟩ := h
  exact ⟨fuel, count, hcount.trans hsteps, hresolved, new, hnew, hraises.trans hlimit, hshown⟩

theorem Settles.of_advance (ht : t.phase.isActive = true) {fuel : Nat} (hu : q.advance t fuel = u)
    (h : Progressed t u limit) : Settles q 1 limit t := by
  refine ⟨fuel, 1, le_refl 1, ?_⟩
  rw [q.follow_succ ht, hu]
  exact h

theorem Settles.later {wait bound : Nat} (h : Settles q wait bound u) (ht : t.phase.isActive = true) {fuel : Nat}
    (hu : q.advance t fuel = u) (hresolved : u.phase ≠ .unresolved)
    (hnew : u.state.ledger.events = t.state.ledger.events ++ new) :
    Settles q (wait + 1) (raises new + bound) t := by
  have hfollow : q.follow fuel t 1 = u := (q.follow_succ ht fuel 0).trans hu
  subst hfollow
  obtain ⟨more, count, hcount, hprogress⟩ := h
  refine ⟨max fuel more, 1 + count, by omega, ?_⟩
  rw [q.follow_follow hresolved hprogress.resolved]
  obtain ⟨hresolved, later, hlater, hraises, hshown⟩ := hprogress
  refine ⟨hresolved, new ++ later, ?_, ?_, fun hactive => ?_⟩
  · rw [hlater, hnew, List.append_assoc]
  · rw [raises_append]
    exact Nat.add_le_add_left hraises _
  · obtain ⟨e, he, hkind⟩ := hshown hactive
    exact ⟨e, List.mem_append_right _ he, hkind⟩

/-! ## What a phase shows -/

theorem solveWithin_of_unresolved {fuel : Nat} {out : Phase K ε n × State K I O σ n m} (ho : Iterated q s fuel out)
    (h : out.1 = .unresolved) : s.vertexInRepair? = none ∧
      s.surveyed.simplex.linearize.solveWithin s.radius fuel = none := by
  cases ho with
  | inaccurate => cases h
  | repaired _ _ ha => cases ha <;> cases h
  | unresolved hstep hsound => exact ⟨hsound, hstep⟩
  | tooShort => cases h
  | stepped _ _ hstepped =>
    cases hstepped with
    | halted => cases h
    | overtaken => cases h
    | tried _ ha =>
      cases ha with
      | exhausted => cases h
      | failed => cases h
      | stopped => cases h
      | evaluated => exact absurd h (judged_accept _ _ _ _ _).resolved

theorem Resolves.exists_iterate (h : Resolves q ⟨.selectBest, s⟩) : ∃ fuel, (q.iterate s fuel).1 ≠ .unresolved := by
  cases hrepair : s.vertexInRepair? with
  | none =>
    obtain ⟨fuel, step, hstep⟩ := h 0 0 s rfl hrepair
    refine ⟨fuel, fun hunresolved => ?_⟩
    have hnone := (solveWithin_of_unresolved (iterated s fuel) hunresolved).2
    rw [hstep] at hnone
    cases hnone
  | some j =>
    refine ⟨0, fun hunresolved => ?_⟩
    have hnone := (solveWithin_of_unresolved (iterated s 0) hunresolved).1
    rw [hrepair] at hnone
    cases hnone

theorem resolves_of_over {x : Vector K n} {memory : σ} (ht : q.start x memory = .ok t) {fuel count : Nat}
    (hresolved : (q.follow fuel t count).phase ≠ .unresolved)
    (hover : (q.follow fuel t count).phase.isActive = false) : Resolves q t := by
  -- the run that ends is resolved before and after its end, so more passes change nothing of it
  have hall : ∀ i, (q.follow fuel t i).phase ≠ .unresolved := by
    intro i
    rcases le_total i count with hi | hi
    · rw [← Nat.add_sub_cancel' hi, q.follow_add] at hresolved
      exact q.resolved_of_follow hresolved
    · rw [← Nat.add_sub_cancel' hi, q.follow_add, q.follow_of_inactive fuel hover]
      exact hresolved
  intro more i s hs hsound
  have hsame : q.follow more t i = q.follow fuel t i :=
    (q.follow_of_le (le_max_right fuel more) (by rw [hs]; exact nofun)).symm.trans
      (q.follow_of_le (le_max_left fuel more) (hall i))
  have hexact := (reached_follow ht more i).1.exact
  have hnext := hall (i + 1)
  rw [q.follow_add, ← hsame, hs] at hnext
  rw [hs] at hexact
  have ho : Iterated q s fuel (q.iterate s fuel) := iterated s fuel
  have hnext : (q.iterate s fuel).1 ≠ .unresolved := hnext
  generalize q.iterate s fuel = out at ho hnext
  cases ho with
  | inaccurate herror => exact absurd herror hexact.accurate
  | repaired hj => cases hsound.symm.trans hj
  | unresolved => exact absurd rfl hnext
  | tooShort hstep => exact ⟨fuel, _, hstep⟩
  | stepped hstep => exact ⟨fuel, _, hstep⟩

theorem Attempted.progressed {x : Vector K n} {kind : Probe}
    {next : Sample K (Snapshot I O) m → Ledger K I O σ n → Phase K ε n × State K I O σ n m}
    {out : Phase K ε n × State K I O σ n m} (ho : Attempted q s x kind next out)
    (hnew : s.ledger.events = t.state.ledger.events ++ new) (hlimit : raises new ≤ limit)
    (hnext : ∀ sample ledger, (next sample ledger).1 ≠ .unresolved ∧ (next sample ledger).2.ledger = ledger) :
    Progressed t ⟨out.1, out.2⟩ limit := by
  have hprobed : ∀ {sample answer ledger}, q.probe s.ledger x kind = (.ok (sample, answer), ledger) →
      ∃ more, ledger.events = t.state.ledger.events ++ more ∧ raises more ≤ limit ∧
        ∃ e ∈ more, e.isEvaluated = true ∨ e.isRadiusReduced = true := by
    intro sample answer ledger hp
    refine ⟨new ++ [evaluatedAt ledger.evals kind x sample], ?_, ?_, _, List.mem_concat_self, Or.inl rfl⟩
    · rw [(probed hp).events, hnew, List.append_assoc]
    · rw [raises_append]
      exact hlimit
  cases ho with
  | exhausted => exact ⟨nofun, new, hnew, hlimit, nofun⟩
  | failed hp =>
    exact ⟨nofun, new, (events_of_probe_error hp).trans hnew, hlimit, nofun⟩
  | stopped hp =>
    obtain ⟨more, hmore, hraises, -⟩ := hprobed hp
    exact ⟨nofun, more, hmore, hraises, nofun⟩
  | @evaluated sample ledger hp =>
    obtain ⟨more, hmore, hraises, hshown⟩ := hprobed hp
    obtain ⟨hresolved, hledger⟩ := hnext sample ledger
    exact ⟨hresolved, more, (congrArg Ledger.events hledger).trans hmore, hraises, fun _ => hshown⟩

structure Ready (s : State K I O σ n m) : Prop where
  full : s.simplex.others.size = n
  radius : 0 < s.radius
  penalty : 0 ≤ s.penalty

/-- How a selection ends: with progress, for a step that is too short, or for a higher penalty under which
the pole is beaten. Where a repair is armed the last two need a simplex of good shape. -/
inductive Waited (s : State K I O σ n m) : Phase K ε n × State K I O σ n m → Prop
  | progressed {out : Phase K ε n × State K I O σ n m} (h : Progressed ⟨.selectBest, s⟩ ⟨out.1, out.2⟩ 1) :
      Waited s out
  | tooShort (hsound : s.repairArmed = true → s.surveyed.acceptable = true) :
      Waited s (.shrinkRadius, { s.surveyed with repairArmed := false })
  | overtaken {penalty : K} {ledger : Ledger K I O σ n} (hpenalty : s.penalty < penalty)
      (hevents : ledger.events = s.ledger.events ++ [.penaltyIncreased penalty])
      (hbeaten : s.surveyed.simplex.poleIsBeaten penalty = true)
      (hsound : s.repairArmed = true → s.surveyed.acceptable = true) :
      Waited s (.selectBest, { s.surveyed with penalty, ledger })

theorem lt_raised {p : Prediction K} (hpenalty : 0 ≤ s.penalty) (hraise : s.penalty < 1.5 * p.leastPenalty) :
    s.penalty < 2.0 * p.leastPenalty := by
  have hpos := hpenalty.trans_lt hraise
  norm_num at hraise hpos ⊢
  linarith

theorem Ready.sound (h : Ready s) (hsound : s.vertexInRepair? = none)
    (harmed : s.repairArmed = true) : s.surveyed.acceptable = true := by
  unfold State.vertexInRepair? at hsound
  rw [if_pos harmed] at hsound
  by_contra hpoor
  obtain ⟨j, hj⟩ := Geometry.exists_vertexToRepair (g := s.surveyed.geometry) h.radius (Bool.eq_false_iff.mpr hpoor)
  cases hsound.symm.trans hj

theorem waited {fuel : Nat} {out : Phase K ε n × State K I O σ n m} (h : Ready s) (ho : Iterated q s fuel out)
    (hresolved : out.1 ≠ .unresolved) : Waited s out := by
  cases ho with
  | inaccurate => exact .progressed ⟨nofun, [], by simp, Nat.zero_le 1, nofun⟩
  | repaired _ _ ha =>
    exact .progressed (ha.progressed (List.append_nil _).symm (Nat.zero_le 1) fun _ _ => ⟨nofun, rfl⟩)
  | unresolved => exact absurd rfl hresolved
  | tooShort _ _ hsound => exact .tooShort (h.sound hsound)
  | stepped _ _ hstepped hsound =>
    cases hstepped with
    | halted _ ha => exact .progressed ⟨nofun, _, (Ledger.announced ha).events, le_refl 1, nofun⟩
    | overtaken hraise ha hbeaten =>
      exact .overtaken (lt_raised h.penalty hraise) (Ledger.announced ha).events hbeaten (h.sound hsound)
    | @tried w _ hw ha =>
      have hready : ∃ new, w.ledger.events = s.ledger.events ++ new ∧ raises new ≤ 1 := by
        cases hw with
        | kept => exact ⟨[], (List.append_nil _).symm, Nat.zero_le 1⟩
        | raised _ hshown => exact ⟨_, (Ledger.announced hshown).events, le_refl 1⟩
      obtain ⟨new, hnew, hlimit⟩ := hready
      refine .progressed (ha.progressed hnew hlimit fun sample ledger => ?_)
      obtain ⟨hresolved, hledger, -⟩ := judged_accept (ε := ε) { w with repairArmed := false, ledger }
        s.surveyed.geometry _ _ sample
      exact ⟨hresolved, hledger⟩

/-! ## Passes of the pole -/

def backtracks (s : State K I O σ n m) : Nat := (s.simplex.below (s.simplex.selectBest s.penalty)).card

theorem Ready.surveyed (h : Ready s) : Ready s.surveyed :=
  ⟨(s.simplex.size_others_pivotTo _).trans h.full, h.radius, h.penalty⟩

theorem Ready.rank_pole_le (h : Ready s) (v : Vertex n) :
    s.surveyed.simplex.rank s.penalty .pole ≤ s.surveyed.simplex.rank s.penalty v :=
  Simplex.rank_pole_pivotTo_selectBest_le h.full s.penalty v

theorem Ready.backtracks_lt (h : Ready s) {penalty : K} (hpenalty : s.penalty < penalty)
    (hbeaten : s.surveyed.simplex.poleIsBeaten penalty = true) (ledger : Ledger K I O σ n) :
    backtracks { s.surveyed with penalty, ledger } < backtracks s := by
  -- the best vertex under the new penalty is violated less, and the turn to the old one keeps the number
  have hlower := Simplex.maxViolation_lt_of_raised h.rank_pole_le h.penalty hpenalty hbeaten
  refine (Simplex.card_below_lt hlower).trans_eq ?_
  exact Simplex.card_below_pivotTo h.full _

theorem exists_waited (h : Ready s) (hresolves : Resolves q ⟨.selectBest, s⟩) :
    ∃ fuel out, q.advance ⟨.selectBest, s⟩ fuel = ⟨out.1, out.2⟩ ∧ out.1 ≠ .unresolved ∧ Waited s out := by
  obtain ⟨fuel, hfuel⟩ := hresolves.exists_iterate
  exact ⟨fuel, q.iterate s fuel, rfl, hfuel, waited h (iterated s fuel) hfuel⟩

theorem settles_sound (hsound : s.acceptable = true) : Settles q 1 0 ⟨.shrinkRadius, s⟩ := by
  have hadvance : q.advance ⟨.shrinkRadius, s⟩ 0 = ⟨(q.shrink s).1, (q.shrink s).2⟩ := rfl
  refine Settles.of_advance rfl hadvance ?_
  have ho : Shrunk q s (q.shrink s) := shrunk s
  generalize q.shrink s = out at ho ⊢
  cases ho with
  | rearmed hpoor => cases hpoor.symm.trans hsound
  | converged => exact ⟨nofun, [], (List.append_nil _).symm, le_refl 0, nofun⟩
  | halted _ _ ha => exact ⟨nofun, _, (Ledger.announced ha).events, le_refl 0, nofun⟩
  | reduced _ _ ha =>
    exact ⟨nofun, _, (Ledger.announced ha).events, le_refl 0,
      fun _ => ⟨_, List.mem_singleton_self _, Or.inr rfl⟩⟩

theorem settles_rearmed {wait bound : Nat} (hpoor : s.acceptable = false)
    (hresolves : Resolves q ⟨.shrinkRadius, s⟩)
    (h : Resolves q ⟨.selectBest, { s with repairArmed := true }⟩ →
      Settles q wait bound ⟨.selectBest, { s with repairArmed := true }⟩) :
    Settles q (wait + 1) bound ⟨.shrinkRadius, s⟩ := by
  have hshrink : q.shrink s = (.selectBest, { s with repairArmed := true }) := by
    unfold shrink
    rw [hpoor]
    rfl
  have hadvance : q.advance ⟨.shrinkRadius, s⟩ 0 = ⟨.selectBest, { s with repairArmed := true }⟩ := by
    unfold advance
    rw [hshrink]
  have hlater := (h (hresolves.advance rfl hadvance nofun)).later rfl hadvance nofun (List.append_nil _).symm
  exact hlater.mono (le_refl _) (by simp [raises])

/-- A repair that is armed for a simplex of poor shape is made at once. -/
theorem settles_poor (h : Ready s) (harmed : s.repairArmed = true) (hpoor : s.surveyed.acceptable = false)
    (hresolves : Resolves q ⟨.selectBest, s⟩) : Settles q 1 1 ⟨.selectBest, s⟩ := by
  obtain ⟨fuel, out, hadvance, -, hw⟩ := exists_waited h hresolves
  cases hw with
  | progressed hp => exact .of_advance rfl hadvance hp
  | tooShort hsound => cases hpoor.symm.trans (hsound harmed)
  | overtaken _ _ _ hsound => cases hpoor.symm.trans (hsound harmed)

theorem Ready.acceptable_surveyed (h : Ready s) (repairArmed : Bool) :
    State.acceptable (State.surveyed { s.surveyed with repairArmed }) = s.surveyed.acceptable := by
  -- nothing beats the pole that was selected, so it is selected again
  have hsame : s.surveyed.simplex.selectBest s.penalty = .pole := Simplex.selectBest_eq_pole h.rank_pole_le
  show ((s.surveyed.simplex.pivotTo (s.surveyed.simplex.selectBest s.penalty)).geometry s.radius).isAcceptable = _
  rw [hsame]
  rfl

theorem settles_tooShort (h : Ready s) (hsound : s.repairArmed = true → s.surveyed.acceptable = true)
    (hresolves : Resolves q ⟨.shrinkRadius, { s.surveyed with repairArmed := false }⟩) :
    Settles q (if s.repairArmed then 1 else 2) 1 ⟨.shrinkRadius, { s.surveyed with repairArmed := false }⟩ := by
  cases hshape : s.surveyed.acceptable with
  | true =>
    refine (settles_sound (s := { s.surveyed with repairArmed := false }) hshape).mono ?_ (Nat.zero_le 1)
    split_ifs <;> omega
  | false =>
    -- the reduction arms a repair, which is made at the next selection
    have hunarmed : s.repairArmed = false :=
      Bool.eq_false_iff.mpr fun harmed => Bool.false_ne_true (hshape.symm.trans (hsound harmed))
    have hready : Ready { s.surveyed with repairArmed := true } := ⟨h.surveyed.full, h.radius, h.penalty⟩
    rw [hunarmed]
    exact settles_rearmed (s := { s.surveyed with repairArmed := false }) hshape hresolves
      (settles_poor hready rfl ((h.acceptable_surveyed true).trans hshape))

/-- After a selection progress takes two phases, or three if no repair is armed yet, and one more for each
vertex that is violated less. -/
theorem settles_selectBest {b : Nat} (h : Ready s) (hb : backtracks s = b)
    (hresolves : Resolves q ⟨.selectBest, s⟩) :
    Settles q (b + if s.repairArmed then 2 else 3) (b + 1) ⟨.selectBest, s⟩ := by
  -- only a higher penalty leads to another selection, and the pole there has fewer vertices below it
  induction b using Nat.strong_induction_on generalizing s with
  | _ b ih =>
    obtain ⟨fuel, out, hadvance, hresolved, hw⟩ := exists_waited h hresolves
    have hnext := hresolves.advance rfl hadvance hresolved
    cases hw with
    | progressed hp => exact (Settles.of_advance rfl hadvance hp).mono (by split_ifs <;> omega) (by omega)
    | tooShort hsound =>
      have hshort := (settles_tooShort h hsound hnext).later rfl hadvance nofun (List.append_nil _).symm
      exact hshort.mono (by split_ifs <;> omega) (Nat.le_add_left 1 b)
    | @overtaken penalty ledger hpenalty hevents hbeaten =>
      have hlt := hb ▸ h.backtracks_lt hpenalty hbeaten ledger
      have hready : Ready { s.surveyed with penalty, ledger } :=
        ⟨h.surveyed.full, h.radius, h.penalty.trans hpenalty.le⟩
      have hback := (ih _ hlt hready rfl hnext).later rfl hadvance nofun hevents
      refine hback.mono ?_ ?_
      · show backtracks _ + (if s.repairArmed = true then 2 else 3) + 1 ≤ _
        omega
      · show 1 + (backtracks _ + 1) ≤ _
        omega

/-- Whatever phase comes next, progress takes at most `n + 3` phases and raises the penalty at most `n + 1`
times. -/
theorem settles (hactive : t.phase.isActive = true) (h : Ready t.state) (hresolves : Resolves q t) :
    Settles q (n + 3) (n + 1) t := by
  obtain ⟨phase, s⟩ := t
  have hselect : ∀ {s}, Ready s → Resolves q ⟨.selectBest, s⟩ →
      Settles q (n + if s.repairArmed then 2 else 3) (n + 1) ⟨.selectBest, s⟩ := by
    intro s h hresolves
    have hle : backtracks s ≤ n := Simplex.card_below_le _ _
    exact (settles_selectBest h rfl hresolves).mono (Nat.add_le_add_right hle _) (Nat.add_le_add_right hle _)
  cases phase with
  | selectBest => exact (hselect h hresolves).mono (by split_ifs <;> omega) (le_refl _)
  | shrinkRadius =>
    cases hshape : s.acceptable with
    | true => exact (settles_sound hshape).mono (by omega) (Nat.zero_le _)
    | false => exact settles_rearmed hshape hresolves (hselect ⟨h.full, h.radius, h.penalty⟩)
  | finish => cases hactive
  | failed => cases hactive
  | unresolved => cases hactive

end

end Search

end TrustSimplex
