import Mathlib.Data.Rat.Sqrt
import TrustSimplex.Proofs.Simplex.Inverse
import TrustSimplex.Proofs.Simplex.Selection

/-!
# Turning to the selected vertex

In every totally ordered exact arithmetic, with or without roots, the selected vertex is the first of the best, the
two tests for a better vertex agree, and a pole that was selected is selected again. To turn is to exchange two
vertices: turning twice to the same one changes nothing, for its row of the inverse and that of the pole, which is the
negative sum of all rows, change places.
-/

namespace TrustSimplex

/-! ## Ordered scalars -/

/-- A totally ordered ring whose operations the scalars have. Of roots and quotients nothing is asked. -/
class OrderedScalar (K : Type) extends Scalar K, Ring K, LinearOrder K, LawfulBEq K

/-- Rational arithmetic is exact, although most roots are missing and `Rat.sqrt` rounds them. -/
instance : OrderedScalar ℚ where
  toOfScientific := inferInstance
  toBEq := instBEqOfDecidableEq
  abs x := |x|
  sqrt := Rat.sqrt
  isFinite _ := true
  decideLT := inferInstance
  decideLE := inferInstance
  toRing := inferInstance
  toLinearOrder := inferInstance
  eq_of_beq := by simp
  rfl := by simp

attribute [ext] Simplex

namespace Simplex

/-! ## Samples that change places twice -/

section
variable {α S : Type} [Scalar α] {n m : Nat}

theorem poleSample_pivot_pivot (s : Simplex α S n m) (j : Fin n) :
    ((s.pivot j).pivot j).poleSample = s.poleSample := by
  show (s.others.setIfInBounds j s.poleSample).getD j (s.others.getD j s.poleSample) = s.poleSample
  by_cases hj : j < s.others.size
  · simp [Array.getD, hj]
  · simp [Array.getD, hj]

theorem others_pivot_pivot (s : Simplex α S n m) (j : Fin n) :
    ((s.pivot j).pivot j).others = s.others := by
  show (s.others.setIfInBounds j s.poleSample).setIfInBounds j (s.others.getD j s.poleSample) = s.others
  rw [Array.setIfInBounds_setIfInBounds]
  by_cases hj : j < s.others.size
  · rw [Array.setIfInBounds_def, dif_pos hj, Array.getD, dif_pos hj]
    exact Array.set_getElem_self hj
  · exact Array.setIfInBounds_eq_of_size_le (not_lt.mp hj)

end

section
variable {K S : Type} [OrderedScalar K] {n m : Nat} {penalty : K}

/-! ## What vertices are compared by -/

theorem compares_merit (s : Simplex K S n m) (h : penalty ≠ 0) : s.Compares penalty (s.merit penalty) := by
  intro v w
  rw [beats_eq_true_iff, or_iff_left fun hviolation => h hviolation.2.1]

theorem compares_values (s : Simplex K S n m) :
    s.Compares 0 fun v => toLex (s.objective v, s.maxViolation v) := by
  intro v w
  have hmerit : ∀ u, s.merit 0 u = s.objective u := fun u => by rw [merit, zero_mul, add_zero]
  rw [beats_eq_true_iff, hmerit, hmerit, Prod.Lex.toLex_lt_toLex, eq_self_iff_true, true_and]

theorem exists_compares (s : Simplex K S n m) (penalty : K) :
    ∃ key : Vertex n → K ×ₗ K, s.Compares penalty key := by
  by_cases h : penalty = 0
  · exact h ▸ ⟨_, s.compares_values⟩
  · refine ⟨fun v => toLex (s.merit penalty v, 0), fun v w => (s.compares_merit h v w).trans ?_⟩
    rw [Prod.Lex.toLex_lt_toLex, or_iff_left fun hmerit => lt_irrefl _ hmerit.2]

/-! ## Turning twice -/

/-- With the negative of their sum in the place of one of them, the rows sum to the negative of that one. -/
theorem neg_sum_update {G : Type} [AddCommGroup G] (row : Fin n → G) (j : Fin n) :
    -∑ l, Function.update row j (-∑ k, row k) l = row j := by
  rw [Finset.sum_update_of_mem (Finset.mem_univ j), Finset.sdiff_singleton_eq_erase,
    Finset.sum_erase_eq_sub (Finset.mem_univ j)]
  abel

theorem pole_pivot_pivot (s : Simplex K S n m) (j : Fin n) : ((s.pivot j).pivot j).pole = s.pole := by
  ext i hi
  have hback := s.entry_edges_pivot j ⟨i, hi⟩ j
  rw [if_pos rfl, zero_sub, ColMatrix.entry_eq_getElem _ _ hi, ColMatrix.entry_eq_getElem _ _ hi] at hback
  show (addVec (addVec s.pole (s.edges.col j)) ((s.pivot j).edges.col j))[i] = s.pole[i]
  rw [getElem_addVec, getElem_addVec, hback, add_neg_cancel_right]

theorem edges_pivot_pivot (s : Simplex K S n m) (j : Fin n) : ((s.pivot j).pivot j).edges = s.edges := by
  refine ColMatrix.ext_entry fun i c => ?_
  rw [entry_edges_pivot, entry_edges_pivot, entry_edges_pivot, if_pos rfl]
  by_cases hc : c = j
  · rw [if_pos hc, hc]
    abel
  · rw [if_neg hc, if_neg hc]
    abel

theorem inverse_pivot_pivot (s : Simplex K S n m) (j : Fin n) :
    ((s.pivot j).pivot j).inverse = s.inverse := by
  refine ColMatrix.ext_entry fun i c => ?_
  by_cases hi : i = j
  · have hrows : (fun l : Fin n => (s.pivot j).inverse.entry l c) =
        Function.update (fun l : Fin n => s.inverse.entry l c) j (-∑ l : Fin n, s.inverse.entry l c) := by
      funext l
      rw [entry_inverse_pivot, foldl_sub_eq_sum, zero_sub, Function.update_apply]
    rw [entry_inverse_pivot, if_pos hi, foldl_sub_eq_sum, zero_sub, hrows, neg_sum_update, hi]
  · rw [entry_inverse_pivot, if_neg hi, entry_inverse_pivot, if_neg hi]

theorem pivotTo_pivotTo (s : Simplex K S n m) (v : Vertex n) : (s.pivotTo v).pivotTo v = s := by
  cases v with
  | pole => rfl
  | other j =>
    ext1
    · exact s.pole_pivot_pivot j
    · exact s.edges_pivot_pivot j
    · exact s.inverse_pivot_pivot j
    · exact s.poleSample_pivot_pivot j
    · exact s.others_pivot_pivot j

/-- The selected vertex is the first of those with the least merit, or at a zero penalty with the least pair of
objective and violation; the pole is beaten exactly if another vertex is selected; turned to the selected vertex, if
that was evaluated, a simplex selects its pole; and turning twice to a vertex restores the positions, the samples and
the inverse, be it exact or not. -/
theorem selection_settled (s : Simplex K S n m) (penalty : K) :
    (penalty ≠ 0 → s.selectBest penalty ∈ (Vertex.inOrder n).argmin (s.merit penalty)) ∧
    (penalty = 0 → s.selectBest penalty ∈
      (Vertex.inOrder n).argmin fun v => toLex (s.objective v, s.maxViolation v)) ∧
    (s.poleIsBeaten penalty = true ↔ s.selectBest penalty ≠ .pole) ∧
    ((s.sample? (s.selectBest penalty)).isSome →
      (s.pivotTo (s.selectBest penalty)).selectBest penalty = .pole) ∧
    ∀ v, (s.pivotTo v).pivotTo v = s := by
  obtain ⟨key, hkey⟩ := s.exists_compares penalty
  refine ⟨fun h => (s.compares_merit h).selectBest_mem_argmin, ?_, hkey.poleIsBeaten_iff_selectBest_ne,
    hkey.selectBest_pivotTo_selectBest, s.pivotTo_pivotTo⟩
  rintro rfl
  exact s.compares_values.selectBest_mem_argmin

end

def tied : Simplex ℚ Nat 2 1 where
  pole := #v[0, 0]
  edges := .identity 2 2
  inverse := .identity 2 (1 / 2)
  poleSample := ⟨#v[-1], 1, 1, 0⟩
  others := #[⟨#v[0], 1, 0, 1⟩, ⟨#v[1], 1, 0, 2⟩]

theorem selectBest_tied : tied.selectBest 0 = .other 0 := by decide +kernel

theorem selection_settled_tied : (1 : ℚ) ≠ 0 ∧ tied.selectBest 1 ∈ (Vertex.inOrder 2).argmin (tied.merit 1) ∧
    Vertex.other 0 ∈ (Vertex.inOrder 2).argmin (fun v => toLex (tied.objective v, tied.maxViolation v)) ∧
    tied.poleIsBeaten 0 = true ∧ (tied.sample? (.other 0)).isSome ∧
    (tied.pivotTo (.other 0)).selectBest 0 = .pole ∧ (tied.pivotTo (.other 0)).pole = #v[2, 0] ∧
    (tied.pivotTo (.other 0)).pivotTo (.other 0) = tied := by
  obtain ⟨-, hfirst, hbeaten, hselected, htwice⟩ := selection_settled tied 0
  rw [selectBest_tied] at hfirst hbeaten hselected
  exact ⟨one_ne_zero, (selection_settled tied 1).1 one_ne_zero, hfirst rfl, hbeaten.mpr nofun, rfl,
    hselected rfl, by decide +kernel, htwice _⟩

end Simplex

end TrustSimplex
