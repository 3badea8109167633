import TrustSimplex.Proofs.Search.Standing
import TrustSimplex.Proofs.Simplex.Linearization

/-!
# What a trial promises

A step of the linear models is never more violated than the pole, and one that gains nothing there has no worse
objective. The penalty is high enough for the rest: wherever a trial is evaluated, the merit that is predicted for
it is no higher than that of the pole, and lower if the objective is predicted to change.
-/

namespace TrustSimplex

section
variable {K : Type} [EuclideanField K] {n m : Nat} {L : Linearization K n m} {radius : K}

/-! ## Steps and standing still -/

/-- A step that balances a violation no lower than at the pole has no worse objective than the pole. -/
theorem Draft.Sound.objective_nonneg {d : Draft K n m} (hs : d.Sound L)
    (hviolation : L.violation (zeroVec n) ≤ d.violation) : 0 ≤ L.slope (Fin.last m) ⬝ᵥ coords d.step := by
  by_contra hlt
  have hlt := not_le.mp hlt
  have hfall : ∀ k < d.active.size, d.active.normal L k ⬝ᵥ coords d.step ≤ 0 := by
    intro k hk
    by_cases hobj : d.active.constraintAt k = Fin.last m
    · rw [ActiveSet.normal, hobj]
      exact hlt.le
    · have hrise := hs.rise hk hobj (zeroVec n)
      rw [coords_zeroVec, zero_sub, dotProduct_neg] at hrise
      linarith
  -- a step that falls along all the gradients that it is made of is none
  have hself : coords d.step ⬝ᵥ coords d.step ≤ 0 := by
    have hsum := congrArg (· ⬝ᵥ coords d.step) hs.balanced.sum
    refine hsum.trans_le ?_
    rw [sum_dotProduct]
    refine Finset.sum_nonpos fun k hk => ?_
    rw [smul_dotProduct]
    exact mul_nonpos_of_nonneg_of_nonpos (hs.balanced.nonneg k) (hfall k (Finset.mem_range.mp hk))
  have hzero := dotProduct_self_eq_zero.mp (le_antisymm hself (self_dotProduct_nonneg _))
  rw [hzero, dotProduct_zero] at hlt
  exact lt_irrefl 0 hlt

namespace Linearization

theorem violation_move_le_zeroVec (hr : 0 < radius) {fuel : Nat} {s : Step K n}
    (hs : L.solveWithin radius fuel = some s) : L.violation s.move ≤ L.violation (zeroVec n) := by
  obtain ⟨e, hsound, hstep, hle, -, -⟩ := L.solveWithin_spec hr hs
  rw [← hstep]
  exact hsound.violation_le.trans (hle.trans L.violation_firstDraft_le)

theorem objective_move_nonneg (hr : 0 < radius) {fuel : Nat} {s : Step K n}
    (hs : L.solveWithin radius fuel = some s) (hsame : L.violation s.move = L.violation (zeroVec n)) :
    0 ≤ dot (L.gradient (Fin.last m)) s.move := by
  obtain ⟨e, hsound, hstep, -, -, -⟩ := L.solveWithin_spec hr hs
  have hviolation : L.violation (zeroVec n) ≤ e.violation := by
    rw [← hsame, ← hstep]
    exact hsound.violation_le
  rw [dot_eq, ← hstep]
  exact hsound.objective_nonneg hviolation

end Linearization

/-! ## The violation of the pole -/

theorem greatestViolation_le_iff (constraints : Vector K m) (c : K) :
    greatestViolation constraints ≤ c ↔ 0 ≤ c ∧ ∀ k, -constraints.get k ≤ c := by
  have hscan : ∀ (values : List K) (worst : K), values.foldl (fun worst v => larger worst (-v)) worst ≤ c ↔
      worst ≤ c ∧ ∀ v ∈ values, -v ≤ c := by
    intro values
    induction values with
    | nil => simp
    | cons v values ih =>
      intro worst
      rw [List.foldl_cons, ih, larger_eq_max, max_le_iff, List.forall_mem_cons, and_assoc]
  unfold greatestViolation
  rw [← Vector.foldl_toList, hscan]
  refine and_congr_right fun _ => ⟨fun h k => h _ ?_, fun h v hv => ?_⟩
  · exact Vector.mem_toList_iff.mpr (Vector.getElem_mem k.isLt)
  · obtain ⟨i, hi, rfl⟩ := Vector.mem_iff_getElem.mp (Vector.mem_toList_iff.mp hv)
    exact h ⟨i, hi⟩

theorem Simplex.violation_linearize_zeroVec {S : Type} (s : Simplex K S n m) :
    s.linearize.violation (zeroVec n) = greatestViolation s.poleSample.constraints := by
  have hresidual : ∀ k : Fin m,
      s.linearize.residual k.castSucc (zeroVec n) = -s.poleSample.constraints.get k := by
    intro k
    rw [Linearization.residual_zeroVec, Simplex.bound_linearize, Simplex.value_castSucc]
    rfl
  refine eq_of_forall_ge_iff fun c => ?_
  rw [Linearization.violation_le_iff, greatestViolation_le_iff]
  simp only [hresidual]

end

namespace Search

section
variable {K I O ε σ : Type} [EuclideanField K] {n m : Nat} {q : Search K I O ε σ n m}
variable {s w : State K I O σ n m} {x step : Vector K n} {memory : σ} {r : Run K I O ε σ n m} {fuel : Nat}
variable {p : Prediction K}

theorem violation_pole_of_attributed (h : Attributed q s.ledger s.simplex) :
    s.simplex.linearize.violation (zeroVec n) = s.simplex.maxViolation .pole := by
  obtain ⟨-, source, hsource⟩ := h
  obtain ⟨_, _, _, -, e, -, hsample⟩ := hsource.shown .pole s.simplex.poleSample rfl
  rw [s.simplex.violation_linearize_zeroVec, Simplex.maxViolation_of_sample? (r := s.simplex.poleSample) rfl,
    hsample]
  rfl

/-! ## Predictions -/

structure Prediction.Promising (p : Prediction K) (penalty : K) : Prop where
  violationDrop_nonneg : 0 ≤ p.violationDrop
  outweighed : 0 < p.violationDrop → 1.5 * p.objectiveRise ≤ penalty * p.violationDrop
  objectiveRise_nonpos : p.violationDrop = 0 → p.objectiveRise ≤ 0
  merit_nonneg : 0 ≤ penalty * p.violationDrop - p.objectiveRise
  merit_pos : p.objectiveRise ≠ 0 → 0 < penalty * p.violationDrop - p.objectiveRise

theorem Prediction.promising {penalty : K} (hpenalty : 0 ≤ penalty) (hdrop : 0 ≤ p.violationDrop)
    (hlevel : p.violationDrop = 0 → p.objectiveRise ≤ 0)
    (hprice : 0 < p.violationDrop → 1.5 * p.objectiveRise ≤ penalty * p.violationDrop) :
    p.Promising penalty := by
  have hpaid := mul_nonneg hpenalty hdrop
  have hmerit : p.objectiveRise ≤ 0 ∨ 1.5 * p.objectiveRise ≤ penalty * p.violationDrop :=
    hdrop.eq_or_lt.imp (fun hzero => hlevel hzero.symm) hprice
  norm_num at hmerit
  refine ⟨hdrop, hprice, hlevel, ?_, fun hrise => ?_⟩
  · rcases hmerit with hfall | hoffset
    · linarith
    · linarith
  · rcases lt_or_gt_of_ne hrise with hfall | hgain
    · linarith
    · have hoffset := hmerit.resolve_left hgain.not_ge
      linarith

/-- The penalty of a step that is tried makes up for what the step loses in the objective. -/
theorem Weighed.outweighed (h : Weighed q s p w) (hpenalty : 0 ≤ s.penalty) (hdrop : 0 < p.violationDrop) :
    1.5 * p.objectiveRise ≤ w.penalty * p.violationDrop := by
  have hleast : p.leastPenalty * p.violationDrop = p.objectiveRise := by
    unfold Prediction.leastPenalty
    rw [if_pos hdrop, div_mul_cancel₀ _ hdrop.ne']
  have hprice : 1.5 * p.leastPenalty ≤ w.penalty := by
    cases h with
    | kept hhigh => exact not_lt.mp hhigh
    | raised hlow =>
      have hpos := hpenalty.trans_lt (lt_raised hpenalty hlow)
      show 1.5 * p.leastPenalty ≤ 2.0 * p.leastPenalty
      norm_num at hpos ⊢
      linarith
  calc 1.5 * p.objectiveRise = 1.5 * p.leastPenalty * p.violationDrop := by rw [mul_assoc, hleast]
    _ ≤ w.penalty * p.violationDrop := mul_le_mul_of_nonneg_right hprice hdrop.le

theorem predict_congr (hsame : w.simplex = s.simplex) (L : Linearization K n m) (step : Vector K n) :
    predict w L step = predict s L step := by
  unfold predict
  rw [hsame]

/-- The step that a selection tries is promising to the models of the state in which it is evaluated. -/
theorem Readied.promising (h : Readied q s fuel .trial step w) (hradius : 0 < s.radius) (hpriced : Priced s)
    (hsurveyed : Attributed q s.ledger s.surveyed.simplex) :
    (predict w w.simplex.linearize step).Promising w.penalty := by
  have hpole := violation_pole_of_attributed (s := s.surveyed) hsurveyed
  have hready := hpriced.readied h
  cases h with
  | @trial move w hstep hlong hw =>
    have hsame : w.simplex = s.surveyed.simplex := hw.simplex
    show (predict w w.simplex.linearize move.move).Promising w.penalty
    rw [predict_congr hsame, hsame]
    have hdrop : (predict s.surveyed s.surveyed.simplex.linearize move.move).violationDrop =
        s.surveyed.simplex.linearize.violation (zeroVec n) - s.surveyed.simplex.linearize.violation move.move := by
      rw [hpole]
      rfl
    refine Prediction.promising hready.nonneg ?_ (fun hlevel => ?_) (hw.outweighed hpriced.nonneg)
    · rw [hdrop, sub_nonneg]
      exact Linearization.violation_move_le_zeroVec hradius hstep
    · rw [hdrop, sub_eq_zero] at hlevel
      exact neg_nonpos.mpr (Linearization.objective_move_nonneg hradius hstep hlevel.symm)

theorem Prediction.Promising.reductions_nonneg (h : p.Promising s.penalty) (sample : Sample K (Snapshot I O) m) :
    0 ≤ (reductions s p sample).1 := by
  unfold reductions
  dsimp only
  split_ifs
  · exact h.violationDrop_nonneg
  · exact h.merit_nonneg

/-! ## The trials of a run -/

/-- Each time a run evaluates a trial, the predicted violation is no greater than that of the pole, the penalty
makes at least one and a half times up for a loss in the objective, there is none where the violation stays, and so
the merit is not predicted to rise; it is predicted to fall if the objective is to change. -/
theorem trials_promising (q : Search K I O ε σ n m) (h : q.start x memory = .ok r) (fuel : Nat) :
    (∀ k t, q.follow fuel r k = ⟨.selectBest, t⟩ →
      ((q.iterate t fuel).2.ledger.attempts = t.ledger.attempts ∨ ∃ kind step w, Readied q t fuel kind step w ∧
        (q.iterate t fuel).2.ledger.attempts = t.ledger.attempts ++ [w.simplex.offset step]) ∧
      ∀ step w, Readied q t fuel .trial step w →
        (predict w w.simplex.linearize step).Promising w.penalty ∧
        ∀ sample, 0 ≤ (reductions w (predict w w.simplex.linearize step) sample).1) ∧
    ∀ count earlier evals p snapshot later,
      (q.follow fuel r count).state.ledger.events = earlier ++ .evaluated evals .trial p snapshot :: later →
      ∃ k t step w, q.follow fuel r k = ⟨.selectBest, t⟩ ∧ Readied q t fuel .trial step w ∧
        w.ledger.events = earlier ∧ p.x = w.simplex.offset step ∧
        (predict w w.simplex.linearize step).Promising w.penalty := by
  have hpromising : ∀ {k t step w}, q.follow fuel r k = ⟨.selectBest, t⟩ → Readied q t fuel .trial step w →
      (predict w w.simplex.linearize step).Promising w.penalty := by
    intro k t step w hk hw
    have hexact := (reached_follow h fuel k).1.exact
    have hpriced := priced_follow h fuel k
    have howned := owned_follow h fuel k
    rw [hk] at hexact hpriced howned
    exact hw.promising hexact.2 hpriced (howned.attributed.pivotTo (howned.full rfl) _)
  refine ⟨fun k t hk => ⟨attempts_iterate t fuel, fun step w hw => ?_⟩, ?_⟩
  · exact ⟨hpromising hk hw, (hpromising hk hw).reductions_nonneg⟩
  · intro count earlier evals p snapshot later hsplit
    obtain ⟨k, t, step, w, hk, hw, hearlier, hx⟩ :=
      madeBy_follow h fuel count earlier _ later hsplit evals .trial p snapshot rfl nofun
    exact ⟨k, t, step, w, hk, hw, hearlier, hx, hpromising hk hw⟩

end

theorem trials_promising_targeted : ∃ r earlier evals p snapshot k t step w, targeted.start #v[0] () = .ok r ∧
    (targeted.follow 4 r 3).state.ledger.events = earlier ++ [.evaluated evals .trial p snapshot] ∧
    targeted.follow 4 r k = ⟨.selectBest, t⟩ ∧ Readied targeted t 4 .trial step w ∧
    p.x = w.simplex.offset step ∧ (predict w w.simplex.linearize step).Promising w.penalty ∧
    ∀ sample, 0 ≤ (reductions w (predict w w.simplex.linearize step) sample).1 := by
  obtain ⟨r, ledger, ledger', hr, -, hu, hevents⟩ := follow_targeted_trial
  have hsplit : (targeted.follow 4 r 3).state.ledger.events =
      ledger.events ++ [cubicEvent ledger'.evals (-1) .trial] := by
    rw [hu]
    exact hevents
  obtain ⟨hreadied, hshown⟩ := trials_promising targeted hr 4
  obtain ⟨k, t, step, w, hk, hw, -, hx, hpromising⟩ := hshown 3 _ _ _ _ [] hsplit
  exact ⟨r, _, _, _, _, k, t, step, w, hr, hsplit, hk, hw, hx, hpromising, ((hreadied k t hk).2 step w hw).2⟩

end Search

end TrustSimplex
