import TrustSimplex.Proofs.Double
import TrustSimplex.Proofs.Search.Phases

/-!
# The accuracy check on doubles

A selection checks how far the product of the inverse and the edges is from the identity. On doubles it stops exactly
for an entry beyond the bound. The greatest entry is found by a running maximum that passes over what is no number, so
an inverse that has become useless goes unnoticed as long as its product has no entry that can be told to be wrong.
-/

namespace TrustSimplex

namespace Simplex

section
variable {α S : Type} [Scalar α] {n m : Nat}

def deviation (s : Simplex α S n m) (i j : Fin n) : α :=
  dot (s.inverse.row i) (s.edges.col j) - if i = j then 1 else 0

end

section
variable {S : Type} {n m : Nat}

theorem lt_inverseError_iff (s : Simplex Float S n m) {c : Float} (hc : ¬ c < 0) :
    c < s.inverseError ↔ ∃ i j, c < (s.deviation i j).abs := by
  have hrow : ∀ (error : Float) (i : Fin n), error.isNaN = false →
      (Fin.foldl n (fun error j => larger error (s.deviation i j).abs) error).isNaN = false ∧
        (c < Fin.foldl n (fun error j => larger error (s.deviation i j).abs) error ↔
          c < error ∨ ∃ j, c < (s.deviation i j).abs) := fun _ i =>
    Double.lt_foldl_iff fun _ j hnumber => ⟨Double.isNaN_larger hnumber, Double.lt_larger_iff hnumber⟩
  have hzero : (0 : Float).isNaN = false := by decide +kernel
  exact ((Double.lt_foldl_iff hrow hzero).2).trans (or_iff_right hc)

end

end Simplex

namespace Search

/-! ## Past the check -/

section
variable {α I O ε σ : Type} [Scalar α] {n m : Nat} {q : Search α I O ε σ n m} {s : State α I O σ n m} {fuel : Nat}

theorem accept_isActive (u : State α I O σ n m) (g : Geometry α n) (step : Vector α n) (p : Prediction α)
    (r : Sample α (Snapshot I O) m) :
    (accept u g step p r : Phase α ε n × State α I O σ n m).1.isActive = true := by
  have ho : Accepted u g step p r (accept u g step p r : Phase α ε n × State α I O σ n m) := accepted ..
  generalize accept u g step p r = out at ho ⊢
  cases ho <;> rfl

theorem Iterated.inaccurate_of_finish {out : Phase α ε n × State α I O σ n m} (ho : Iterated q s fuel out)
    (hfinish : out.1 = .finish .roundingErrors) : accuracyBound < s.selected.simplex.inverseError := by
  cases ho with
  | inaccurate h => exact h
  | repaired _ _ ha => cases ha <;> cases hfinish
  | unresolved => cases hfinish
  | tooShort => cases hfinish
  | stepped _ _ hstepped =>
    cases hstepped with
    | halted => cases hfinish
    | overtaken => cases hfinish
    | @tried w _ _ ha =>
      cases ha with
      | exhausted => cases hfinish
      | failed => cases hfinish
      | stopped => cases hfinish
      | evaluated =>
        have hactive := congrArg Phase.isActive hfinish
        rw [accept_isActive] at hactive
        cases hactive

theorem finish_roundingErrors_iff : (q.iterate s fuel).1 = .finish .roundingErrors ↔
    accuracyBound < s.selected.simplex.inverseError := by
  refine ⟨(iterated s fuel).inaccurate_of_finish, fun herror => ?_⟩
  rw [iterate_eq, if_pos herror]

end

/-! ## What the check finds -/

section
variable {I O ε σ : Type} {n m : Nat} {s : State Float I O σ n m}

theorem not_accuracyBound_lt_zero : ¬ (accuracyBound : Float) < 0 := by decide +kernel

/-- The check on doubles finds an entry beyond the bound, and no other reason to end the run. -/
theorem accurate_iff : ¬ accuracyBound < s.selected.simplex.inverseError ↔
    ∀ i j, (s.selected.simplex.deviation i j).abs ≤ accuracyBound ∨
      (s.selected.simplex.deviation i j).isNaN = true := by
  have hbound : (accuracyBound : Float).isNaN = false := by decide +kernel
  rw [Simplex.lt_inverseError_iff _ not_accuracyBound_lt_zero]
  simp only [not_exists, Double.not_lt_iff hbound, Double.isNaN_abs]

/-- On doubles a selection goes on to a repair or a step exactly if each entry of `inverse * edges - 1` is within the
bound or no number. So it goes on only with entries within the bound exactly if one is beyond it, and then it does not
go on, or all of them are numbers. -/
theorem goes_on_iff (q : Search Float I O ε σ n m) (s : State Float I O σ n m) (fuel : Nat) :
    (q.iterate s fuel =
      if ∀ i j, (s.selected.simplex.deviation i j).abs ≤ accuracyBound ∨
          (s.selected.simplex.deviation i j).isNaN = true then
        match s.vertexInRepair? with
        | some j => q.repair s.surveyed s.surveyed.geometry j s.surveyed.simplex.linearize
        | none => q.findStep s.surveyed s.surveyed.geometry s.surveyed.simplex.linearize fuel
      else (.finish .roundingErrors, { s.selected with
        ledger := s.ledger.add (.inaccurate s.selected.simplex.inverseError s.ledger.evals) })) ∧
    ((q.iterate s fuel).1 ≠ .finish .roundingErrors ↔
      ∀ i j, (s.selected.simplex.deviation i j).abs ≤ accuracyBound ∨
        (s.selected.simplex.deviation i j).isNaN = true) ∧
    (((q.iterate s fuel).1 ≠ .finish .roundingErrors →
        ∀ i j, (s.selected.simplex.deviation i j).abs ≤ accuracyBound) ↔
      (∃ i j, accuracyBound < (s.selected.simplex.deviation i j).abs) ∨
        ∀ i j, (s.selected.simplex.deviation i j).isNaN = false) := by
  have hgoes : (q.iterate s fuel).1 ≠ .finish .roundingErrors ↔ _ :=
    (not_congr finish_roundingErrors_iff).trans accurate_iff
  refine ⟨?_, hgoes, fun hclaim => ?_, ?_⟩
  · by_cases hpass : ∀ i j, (s.selected.simplex.deviation i j).abs ≤ accuracyBound ∨
        (s.selected.simplex.deviation i j).isNaN = true
    · rw [if_pos hpass]
      exact (iterate_eq ..).trans (if_neg (accurate_iff.mpr hpass))
    · rw [if_neg hpass]
      exact (iterate_eq ..).trans (if_pos (not_not.mp (mt accurate_iff.mp hpass)))
  · by_cases hfinish : (q.iterate s fuel).1 = .finish .roundingErrors
    · exact Or.inl ((s.selected.simplex.lt_inverseError_iff not_accuracyBound_lt_zero).mp
        (finish_roundingErrors_iff.mp hfinish))
    · refine Or.inr fun i j => ?_
      rw [← Double.isNaN_abs]
      exact (Double.le_iff.mp (hclaim hfinish i j)).1
  · rintro (⟨i, j, hbeyond⟩ | hnumbers) hpass i' j'
    · exact absurd ((s.selected.simplex.lt_inverseError_iff not_accuracyBound_lt_zero).mpr ⟨i, j, hbeyond⟩)
        (accurate_iff.mpr (hgoes.mp hpass))
    · have hnumber := hnumbers i' j'
      exact (hgoes.mp hpass i' j').resolve_right (by rw [hnumber]; exact Bool.false_ne_true)

end

/-! ## A level objective at a radius that overflows -/

/-- The first radius is so great that its square is no finite double. -/
def level : Search Float Unit Unit Empty Unit 1 0 where
  model := ⟨fun _ => .ok ()⟩
  problem := ⟨fun _ => .ok (), fun _ _ => .ok 0, fun _ _ => .ok #v[]⟩
  config := ⟨1e200, 1, 6, by decide +kernel, by decide +kernel, by decide +kernel, by decide +kernel⟩
  observer := .silent

def passesUnnoticed (r : Run Float Unit Unit Empty Unit 1 0) (i j : Fin 1) : Bool :=
  match r.phase, (level.iterate r.state 4).1 with
  | .selectBest, .shrinkRadius => (r.state.selected.simplex.deviation i j).isNaN
  | _, _ => false

theorem passesUnnoticed_iff (r : Run Float Unit Unit Empty Unit 1 0) (i j : Fin 1) : passesUnnoticed r i j = true ↔
    r.phase = .selectBest ∧ (level.iterate r.state 4).1 = .shrinkRadius ∧
      (r.state.selected.simplex.deviation i j).isNaN = true := by
  unfold passesUnnoticed
  cases r.phase <;> cases (level.iterate r.state 4).1 <;> simp

/-- The repair moves the vertex to infinity and leaves an inverse of zero. Their product is no number, and the run
goes on. -/
theorem level_goes_on : ∃ r t, level.start #v[0] () = .ok r ∧ level.follow 4 r 3 = ⟨.selectBest, t⟩ ∧
    (t.selected.simplex.deviation 0 0).isNaN = true ∧
    ¬ (t.selected.simplex.deviation 0 0).abs ≤ accuracyBound ∧
    (level.iterate t 4).1 = .shrinkRadius ∧ (level.iterate t 4).1 ≠ .finish .roundingErrors := by
  have hrun : (level.start #v[0] ()).toOption.any (fun r => passesUnnoticed (level.follow 4 r 3) 0 0) = true := by
    decide +kernel
  generalize level.start #v[0] () = started at hrun ⊢
  cases started with
  | error => cases hrun
  | ok r =>
    obtain ⟨hphase, hnext, hnan⟩ := (passesUnnoticed_iff _ 0 0).mp hrun
    refine ⟨r, (level.follow 4 r 3).state, rfl, ?_, hnan, fun hle => ?_, hnext, ?_⟩
    · rw [← hphase]
    · rw [← Double.isNaN_abs, (Double.le_iff.mp hle).1] at hnan
      cases hnan
    · rw [hnext]
      exact nofun

end Search

end TrustSimplex
