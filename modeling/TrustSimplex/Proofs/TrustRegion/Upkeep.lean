import TrustSimplex.Proofs.TrustRegion.Faultless
import TrustSimplex.Proofs.TrustRegion.Optimality

/-!
# Upkeep of the factorization

Over exact scalars every pass that a search comes to is valid. So its active gradients are triangular in an orthogonal
basis, nothing that it divides by is zero, a constraint that can take the place of another does enter, and a constraint
that is refused leaves the factorization to the second stage.
-/

namespace TrustSimplex

def nonzeroDivisors (K : Type) [EuclideanField K] : Checks K := ⟨fun x => x != 0, fun _ => true⟩

section
variable {K : Type} [EuclideanField K] {n m : Nat} {L : Linearization K n m} {radius : K} {stage : Stage}
  {p : Pass K n m} {d : Draft K n m}

/-! ## Valid passes -/

theorem Linearization.Reaches.valid (hr : 0 < radius) (h : L.Reaches radius stage p) : p.Valid L stage := by
  induction h with
  | violated hmost => exact valid_firstPass hmost
  | satisfied => exact valid_openOptimality L.settled_firstDraft
  | next _ hrun ih =>
    have hran := ih.run radius
    rw [hrun] at hran
    cases hran with
    | next hq _ => exact hq
  | settled _ hrun _ ih => exact valid_openOptimality (ih.run_feasibility hr hrun).1

namespace Pass

theorem Valid.changed (h : p.Valid L stage) (hchange : p.change L stage = (true, d)) :
    Draft.Changed L stage p.draft d := by
  rcases h.change with ⟨e, he, hchanged⟩ | ⟨-, e, he, -⟩
  · cases he.symm.trans hchange
    exact hchanged
  · cases he.symm.trans hchange

theorem Valid.refused (h : p.Valid L stage) (hchange : p.change L stage = (false, d)) :
    Draft.Refused L p.draft d p.position := by
  rcases h.change with ⟨e, he, -⟩ | ⟨-, e, he, hrefused⟩
  · cases he.symm.trans hchange
  · cases he.symm.trans hchange
    exact hrefused

theorem Valid.divisor_pos (h : p.Valid L stage) {x : K} (ht : p.Tested L radius stage .divisor x) : 0 < x := by
  cases ht with
  | moved hchange ht =>
    cases ht with
    | @part _ _ _ k _ _ hneg =>
      have hmult := (h.changed hchange).sound.balanced.nonneg k
      linarith

theorem Valid.accepts_nonzeroDivisors (h : p.Valid L stage) (fault : Fault) (x : K) (ht : p.Tested L radius stage fault x) :
    (nonzeroDivisors K).accepts fault x = true := by
  cases fault with
  | divisor => simpa [Checks.accepts, nonzeroDivisors] using (h.divisor_pos ht).ne'
  | clamp => rfl
  | position => rfl
  | count => rfl

theorem Valid.factored_of_refused (h : p.Valid L .feasibility) (hchange : p.change L .feasibility = (false, d)) :
    (Linearization.openOptimality d).draft.active.Factored L := by
  rcases h.turn with ⟨⟨hapart, -⟩, -⟩ | ⟨hstage, -⟩
  · have hsettled : Settled L d := .of_refused hapart (h.refused hchange)
    exact (Linearization.valid_openOptimality hsettled).sound.balanced.factored
  · cases hstage

end Pass

/-! ## The factorization is kept -/

/-- At the top of every pass the active gradients are triangular in an orthogonal basis with nothing zero on the diagonal,
and the objective stays last once it has entered. No divisor of a pass is zero, an entrant for which another can leave has
a component of its own, and a refusal in the first stage leaves the second one a factorization. -/
theorem factorization_kept (hr : 0 < radius) (h : L.Reaches radius stage p) :
    p.draft.active.Factored L ∧
      (∀ q, stage = .optimality → p.run L radius stage = .next q → q.draft.active.ObjectiveLast) ∧
      Checked.run (nonzeroDivisors K) L radius stage p = .ok (p.run L radius stage) ∧
      (∀ q ratio, (p.draft.active.alignBasis (L.gradient (p.draft.active.constraintAt p.position))).2 = none →
        (p.draft.active.dependenceAt L p.position).leaving = some (q, ratio) →
          p.draft.active.ownComponent L p.position q ratio ≠ 0 ∧ (p.draft.active.enter L p.position).1 = true) ∧
      ∀ d, stage = .feasibility → p.change L stage = (false, d) →
        d.active.Factored L ∧ (Linearization.openOptimality d).draft.active.Factored L := by
  have hvalid := h.valid hr
  have hfactored := hvalid.sound.balanced.factored
  have hd : Divisors (nonzeroDivisors K).divisor := divisors_nonzero
  refine ⟨hfactored, ?_, Checked.run_eq hd h.placed (h.divisible hd) hvalid.accepts_nonzeroDivisors, ?_, ?_⟩
  · intro q hstage hrun
    subst hstage
    rcases (h.next hrun).placed.stands with ⟨hnone, -⟩ | ⟨-, hlast, -⟩
    · exact absurd hnone (Pass.progress_of_next hrun).2
    · exact hlast
  · intro q ratio halign hleaving
    have hown := hfactored.ownComponent_ne halign hleaving
    refine ⟨hown, ?_⟩
    rw [ActiveSet.enter_of_leaving halign hleaving, nonzero?_eq_some_iff.mpr ⟨rfl, hown⟩]
    rfl
  · intro d hstage hchange
    subst hstage
    exact ⟨(hvalid.refused hchange).sound.balanced.factored, hvalid.factored_of_refused hchange⟩

end

namespace Linearization

/-- The second pass of the tie is about a gradient that depends on the active one. -/
theorem reaches_tied : tie.Reaches 1 .feasibility ⟨tied 16 #v[0, 1, 2, 3, 4, 5], 1, some ⟨1, 0, 3⟩⟩ := by
  have hmost : tie.mostViolated.1 = some 0 := by rw [mostViolated_tie]
  exact (Reaches.violated hmost).next run_firstPass_tie

theorem factorization_kept_tie : (tied 16 #v[0, 1, 2, 3, 4, 5]).active.Factored tie ∧
    Checked.run (nonzeroDivisors ℝ) tie 1 .feasibility ⟨tied 16 #v[0, 1, 2, 3, 4, 5], 1, some ⟨1, 0, 3⟩⟩ =
        .ok (.next ⟨tied 8 #v[1, 0, 2, 3, 4, 5], 2, some ⟨1, 1, 3⟩⟩) ∧
      (tied 16 #v[0, 1, 2, 3, 4, 5]).active.ownComponent tie 1 0 0 ≠ 0 := by
  have hgrad : tie.gradient 1 = #v[8] := by rw [gradient_tie]; simp [tieSlopes]
  have hleaving : ((tied 16 #v[0, 1, 2, 3, 4, 5]).active.dependenceAt tie 1).leaving = some (0, 0) := by
    simp [tied, ActiveSet.dependenceAt, ActiveSet.dependence, ActiveSet.alignBasis, descending, ActiveSet.constraintAt,
      ActiveSet.splitOff, Vector.getD, hgrad, ColMatrix.col, guardedDot_eq, coords_one, nonzero?, ActiveSet.diagonalAt,
      ActiveSet.multiplier, ActiveSet.Dependence.isLeast]
  obtain ⟨hfactored, -, hchecked, hown, -⟩ := factorization_kept one_pos reaches_tied
  exact ⟨hfactored, hchecked.trans (congrArg Except.ok run_secondPass_tie), (hown 0 0 rfl hleaving).1⟩

end Linearization

end TrustSimplex
