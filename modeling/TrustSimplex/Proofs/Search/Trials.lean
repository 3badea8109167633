import TrustSimplex.Proofs.Rescaling
import TrustSimplex.Proofs.Search.Standing
import TrustSimplex.Proofs.TrustRegion.Overshoot

/-!
# How far a trial is from the pole

A step that is tried is full or at least half as long as the radius, and the short cuts of its length take it out of
the ball by no more than a known factor. In exact arithmetic the point that is evaluated is as far from the pole as
the step is long.
-/

namespace TrustSimplex

namespace Search

section
variable {K I O ε σ : Type} [EuclideanField K] {n m : Nat} {q : Search K I O ε σ n m}
variable {s w : State K I O σ n m} {x step : Vector K n} {memory : σ} {r : Run K I O ε σ n m} {fuel : Nat}
variable {kind : Probe}

structure InTrialRange (s : State K I O σ n m) (y : Vector K n) : Prop where
  half_le : s.radius / 2 ≤ Scalar.sqrt (distSq y s.simplex.pole)
  le : Scalar.sqrt (distSq y s.simplex.pole) ≤ s.radius * Scalar.sqrt (1 + (n + 2) / 10 ^ 12 : K)

theorem distSq_offset {S : Type} (t : Simplex K S n m) (step : Vector K n) :
    distSq (t.offset step) t.pole = normSq step := by
  unfold Simplex.offset
  rw [distSq_eq, coords_addVec, add_sub_cancel_left, normSq_eq]

theorem Readied.inTrialRange (h : Readied q s fuel .trial step w) (hr : 0 < s.radius) :
    InTrialRange w (w.simplex.offset step) := by
  have hradius := h.steady.radius
  cases h with
  | @trial move w hstep hlong hw =>
    have hnonneg := normSq_nonneg move.move
    constructor
    · rw [distSq_offset, hradius]
      apply le_sqrt hnonneg
      have hlower := le_normSq_of_long hr hstep hlong
      norm_num at hlower
      linarith
    · have hupper := Linearization.solveWithin_inReach hr hstep
      have hfactor : (0 : K) ≤ 1 + (n + 2) / 10 ^ 12 := by positivity
      rw [distSq_offset, hradius, ← sqrt_mul hr.le hfactor]
      apply le_sqrt (mul_nonneg (mul_self_nonneg _) hfactor)
      rw [sqrt_mul_self hnonneg]
      exact hupper

end

/-- No step of linear models exceeds the radius by more than the short cuts of its length allow, and a full one is no
shorter than the radius. So a trial is evaluated no nearer to the pole than half the radius and hardly farther than
the radius, in every selection of a run that makes one; and each trial that a run shows was evaluated so, at the
radius announced last. -/
theorem trials_in_range (K : Type) [EuclideanField K] (n m : Nat) :
    (∀ (L : Linearization K n m) (radius : K), 0 < radius → ∀ fuel s, L.solveWithin radius fuel = some s →
      normSq s.move ≤ radius * radius * (1 + (n + 2) / 10 ^ 12) ∧
      (s.isFull = true → radius ≤ Scalar.sqrt (normSq s.move))) ∧
    ∀ (I O ε σ : Type) (q : Search K I O ε σ n m) (x : Vector K n) (memory : σ) (r : Run K I O ε σ n m),
      q.start x memory = .ok r → ∀ fuel,
      (∀ k t, q.follow fuel r k = ⟨.selectBest, t⟩ →
        ((q.iterate t fuel).2.ledger.attempts = t.ledger.attempts ∨ ∃ kind step w, Readied q t fuel kind step w ∧
          (q.iterate t fuel).2.ledger.attempts = t.ledger.attempts ++ [w.simplex.offset step]) ∧
        ∀ step w, Readied q t fuel .trial step w → InTrialRange w (w.simplex.offset step)) ∧
      ∀ count earlier evals p snapshot later,
        (q.follow fuel r count).state.ledger.events = earlier ++ .evaluated evals .trial p snapshot :: later →
        ∃ k t step w, q.follow fuel r k = ⟨.selectBest, t⟩ ∧ Readied q t fuel .trial step w ∧
          w.ledger.events = earlier ∧ p.x = w.simplex.offset step ∧
          w.radius = radiusAfter q.config.startRadius earlier ∧ InTrialRange w p.x := by
  refine ⟨fun L radius hr fuel s hs =>
    ⟨Linearization.solveWithin_inReach hr hs, Linearization.radius_le_of_isFull hr hs⟩, ?_⟩
  intro I O ε σ q x memory r h fuel
  have hrange : ∀ {k t step w}, q.follow fuel r k = ⟨.selectBest, t⟩ → Readied q t fuel .trial step w →
      InTrialRange w (w.simplex.offset step) := by
    intro k t step w hk hw
    have hexact := (reached_follow h fuel k).1.exact
    rw [hk] at hexact
    exact hw.inTrialRange hexact.2
  refine ⟨fun k t hk => ⟨attempts_iterate t fuel, fun step w => hrange hk⟩, ?_⟩
  intro count earlier evals p snapshot later hsplit
  obtain ⟨k, t, step, w, hk, hw, hearlier, hx⟩ :=
    madeBy_follow h fuel count earlier _ later hsplit evals .trial p snapshot rfl nofun
  have hdescended := descended_follow h fuel k
  rw [hk] at hdescended
  refine ⟨k, t, step, w, hk, hw, hearlier, hx, ?_, ?_⟩
  · rw [← hearlier]
    exact (hdescended.steady hw.steady).radius
  · rw [hx]
    exact hrange hk hw

theorem trials_in_range_targeted : Linearization.reach.solveWithin 1 1 = some ⟨#v[1], true⟩ ∧
    normSq (#v[1] : Vector ℝ 1) ≤ 1 + 3 / 10 ^ 12 ∧ 1 ≤ Scalar.sqrt (normSq (#v[1] : Vector ℝ 1)) ∧
    ∃ r earlier evals p snapshot k t step w, targeted.start #v[0] () = .ok r ∧
      (targeted.follow 4 r 3).state.ledger.events = earlier ++ [.evaluated evals .trial p snapshot] ∧
      targeted.follow 4 r k = ⟨.selectBest, t⟩ ∧ Readied targeted t 4 .trial step w ∧
      p.x = w.simplex.offset step ∧ InTrialRange w p.x := by
  obtain ⟨hupper, hfull⟩ :=
    (trials_in_range ℝ 1 1).1 Linearization.reach 1 one_pos 1 _ Linearization.solveWithin_reach
  refine ⟨Linearization.solveWithin_reach, hupper.trans_eq (by norm_num), hfull rfl, ?_⟩
  obtain ⟨r, ledger, ledger', hr, -, hu, hevents⟩ := follow_targeted_trial
  have hsplit : (targeted.follow 4 r 3).state.ledger.events =
      ledger.events ++ [cubicEvent ledger'.evals (-1) .trial] := by
    rw [hu]
    exact hevents
  obtain ⟨k, t, step, w, hk, hw, -, hx, -, hrange⟩ :=
    ((trials_in_range ℝ 1 0).2 _ _ _ _ targeted _ _ r hr 4).2 3 _ _ _ _ [] hsplit
  exact ⟨r, _, _, _, _, k, t, step, w, hr, hsplit, hk, hw, hx, hrange⟩

end Search

end TrustSimplex
