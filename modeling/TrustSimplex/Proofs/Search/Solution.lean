import TrustSimplex.Proofs.Search.Pole

/-!
# The solution of a run

The solution is the best vertex of the last simplex exactly if no vertex has overtaken the pole, and a run
can converge while one has.
-/

namespace TrustSimplex

section
variable {K I O ε σ : Type} [EuclideanField K] {n m : Nat}

/-- No vertex of the simplex has a smaller merit than the solution, and at a zero penalty none of equal
objective a smaller violation. -/
def Solution.IsBestOf (solution : Solution K I O n) (s : Simplex K (Snapshot I O) n m) (penalty : K) : Prop :=
  ∀ v r, s.sample? v = some r →
    ¬ r.objective + penalty * r.maxViolation <
      solution.point.objective + penalty * solution.point.maxViolation ∧
    (penalty = 0 → r.objective = solution.point.objective → ¬ r.maxViolation < solution.point.maxViolation)

namespace Search

theorem isBestOf_finish_iff {q : Search K I O ε σ n m} {s : State K I O σ n m} {status : Status} :
    (q.finish s status).1.IsBestOf s.simplex s.penalty ↔ PoleBest s := by
  refine forall_congr' fun v => forall_congr' fun r => forall_congr' fun _ => ?_
  have hobjective : (q.finish s status).1.point.objective = s.simplex.poleSample.objective := rfl
  have hviolation : (q.finish s status).1.point.maxViolation = s.simplex.poleSample.maxViolation := rfl
  rw [hobjective, hviolation]
  unfold Better
  rw [not_or]
  refine and_congr_right fun _ => ⟨?_, ?_⟩
  · rintro h ⟨heq, hzero, hlt⟩
    rw [hzero, zero_mul, zero_mul, add_zero, add_zero] at heq
    exact h hzero heq hlt
  · rintro h hzero heq hlt
    exact h ⟨by rw [hzero, heq, zero_mul, zero_mul], hzero, hlt⟩

end Search

end

namespace Search

/-! ## The best vertex -/

section
variable {K I O ε σ : Type} [EuclideanField K] {n m : Nat}

/-- Every solution is the pole of the state in which the run ended, and it is the best vertex there exactly if
no other vertex has overtaken it. -/
theorem isBestOf_iff_not_overtaken {q : Search K I O ε σ n m} {x : Vector K n} {memory : σ} {fuel : Nat}
    {o : Outcome K I O ε σ n} {solution : Solution K I O n} (h : q.minimizeWithin x memory fuel = some o)
    (hok : o.result = .ok solution) :
    ∃ r e, q.start x memory = .ok r ∧ q.follow fuel r fuel = ⟨.finish solution.status, e⟩ ∧
      (solution.IsBestOf e.simplex e.penalty ↔ ¬ Overtaken e solution.status) := by
  obtain ⟨r, e, hr, he, hsolution⟩ := finish_of_minimizeWithin h hok
  have htracked := tracked_follow hr fuel fuel
  rw [he] at htracked
  refine ⟨r, e, hr, he, ?_⟩
  rw [hsolution, isBestOf_finish_iff]
  exact htracked

end

theorem isBestOf_iff_not_overtaken_cubic : ∃ o solution, unwatched.minimizeWithin #v[0] () 4 = some o ∧
    o.result = .ok solution ∧ ∃ r e, unwatched.start #v[0] () = .ok r ∧
      unwatched.follow 4 r 4 = ⟨.finish solution.status, e⟩ ∧
      (solution.IsBestOf e.simplex e.penalty ↔ ¬ Overtaken e solution.status) := by
  obtain ⟨r, e, hr, he, -⟩ := follow_cubic
  have ho := minimizeWithin_of_finish hr he
  exact ⟨_, _, ho, rfl, isBestOf_iff_not_overtaken ho rfl⟩

/-- The run on the cubic converges, and at the other vertex the cubic is lower than at the solution. -/
theorem not_isBestOf_cubic : ∃ o solution r e, unwatched.minimizeWithin #v[0] () 4 = some o ∧
    o.result = .ok solution ∧ solution.status = .converged ∧ unwatched.start #v[0] () = .ok r ∧
    unwatched.follow 4 r 4 = ⟨.finish solution.status, e⟩ ∧ ¬ solution.IsBestOf e.simplex e.penalty := by
  obtain ⟨r, e, hr, he, hpenalty, hsimplex⟩ := follow_cubic
  refine ⟨_, _, r, e, minimizeWithin_of_finish hr he, rfl, rfl, hr, he, fun hbest => ?_⟩
  have hpole : e.simplex.poleSample = cubicSample 0 := by rw [hsimplex]; rfl
  have hother : e.simplex.sample? (.other 0) = some (cubicSample (-1)) := by rw [hsimplex]; rfl
  have hnot := isBestOf_finish_iff.mp hbest (.other 0) _ hother
  rw [hpole, hpenalty] at hnot
  refine hnot (Or.inl ?_)
  show cubic (-1) + 0 * 0 < cubic 0 + 0 * 0
  unfold cubic
  norm_num

end Search

end TrustSimplex
