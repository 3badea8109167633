import TrustSimplex.Proofs.Simplex.Position
import TrustSimplex.Proofs.TrustRegion.Factorization

/-!
# What the linear models say

While the inverse is exact, the model of a constraint is the only affine function that takes its values at all
vertices, and so is the model of the objective, whose gradient is kept turned around. A repair asks the models on
which side of the face a vertex is better off.
-/

namespace TrustSimplex

section
variable {K S : Type} [EuclideanField K] {n m : Nat}

namespace Simplex

variable {s : Simplex K S n m}

/-! ## The models of a simplex -/

theorem value_castSucc (s : Simplex K S n m) (v : Vertex n) (k : Fin m) :
    s.value v k.castSucc = s.constraint v k :=
  dif_pos k.isLt

theorem value_last (s : Simplex K S n m) (v : Vertex n) : s.value v (Fin.last m) = s.objective v :=
  dif_neg (lt_irrefl m)

def rises (s : Simplex K S n m) (c : Fin (m + 1)) : Vector K n :=
  Vector.ofFn fun j => s.value (.other j) c - s.value .pole c

theorem bound_linearize (s : Simplex K S n m) (c : Fin (m + 1)) : s.linearize.bounds.get c = -s.value .pole c := by
  rw [get_eq_coords]
  exact congrFun (coords_ofFn _) c

theorem gradient_linearize (s : Simplex K S n m) (c : Fin (m + 1)) : s.linearize.gradient c =
    Vector.ofFn fun i : Fin n =>
      if c = Fin.last m then -dot (s.rises c) (s.inverse.col i) else dot (s.rises c) (s.inverse.col i) := by
  have hrises : s.rises c = Vector.ofFn fun j => s.value (.other j) c + s.linearize.bounds.get c := by
    unfold rises
    simp only [bound_linearize, sub_eq_add_neg]
  rw [hrises]
  unfold Linearization.gradient ColMatrix.col
  rw [getD_eq, dif_pos c.isLt]
  exact Vector.getElem_ofFn c.isLt

def incline (s : Simplex K S n m) (c : Fin (m + 1)) : Fin n → K :=
  ∑ j : Fin n, coords (s.rises c) j • coords (s.inverse.row j)

theorem dot_rises_col (s : Simplex K S n m) (c : Fin (m + 1)) (i : Fin n) :
    dot (s.rises c) (s.inverse.col i) = s.incline c i := by
  rw [dot_eq, incline, Finset.sum_apply]
  refine Finset.sum_congr rfl fun j _ => ?_
  rw [Pi.smul_apply, smul_eq_mul, coords_col, coords_row]

theorem slope_linearize_castSucc (s : Simplex K S n m) (k : Fin m) :
    s.linearize.slope k.castSucc = s.incline k.castSucc := by
  funext i
  rw [Linearization.slope, gradient_linearize, coords_ofFn, if_neg (Fin.castSucc_lt_last k).ne, dot_rises_col]

theorem slope_linearize_last (s : Simplex K S n m) :
    s.linearize.slope (Fin.last m) = -s.incline (Fin.last m) := by
  funext i
  rw [Linearization.slope, gradient_linearize, coords_ofFn, if_pos rfl, dot_rises_col, Pi.neg_apply]

/-! ## Interpolation -/

theorem Exact.eq_of_dot_edges (h : s.Exact) {g g' : Fin n → K}
    (hsame : ∀ j : Fin n, g ⬝ᵥ coords (s.edges.col j) = g' ⬝ᵥ coords (s.edges.col j)) : g = g' := by
  -- the difference is a combination of edges, and orthogonal to each of them
  have hself : (g - g') ⬝ᵥ (g - g') = 0 := by
    nth_rewrite 1 [h.eq_sum_edges (g - g')]
    rw [sum_dotProduct]
    refine Finset.sum_eq_zero fun i _ => ?_
    rw [smul_dotProduct, dotProduct_comm (coords (s.edges.col i)), sub_dotProduct, hsame, sub_self, smul_zero]
  exact sub_eq_zero.mp (dotProduct_self_eq_zero.mp hself)

theorem Exact.incline_dot_edge (h : s.Exact) (c : Fin (m + 1)) (j : Fin n) :
    s.incline c ⬝ᵥ coords (s.edges.col j) = s.value (.other j) c - s.value .pole c := by
  have hdual := exact_iff.mp h
  rw [incline, sum_dotProduct]
  simp only [smul_dotProduct, hdual, smul_eq_mul, mul_ite, mul_one, mul_zero, Finset.sum_ite_eq', Finset.mem_univ,
    if_true]
  unfold rises
  rw [coords_ofFn]

/-- An affine function takes a value at every vertex exactly if it starts from that of the pole and rises with
the incline. -/
theorem Exact.interpolates_iff (h : s.Exact) (c : Fin (m + 1)) {base : K} {slope : Fin n → K} :
    (∀ v, s.value v c = base + slope ⬝ᵥ s.edge v) ↔ base = s.value .pole c ∧ slope = s.incline c := by
  constructor
  · intro hv
    have hbase : s.value .pole c = base := (hv .pole).trans (by rw [edge, dotProduct_zero, add_zero])
    refine ⟨hbase.symm, h.eq_of_dot_edges fun j => ?_⟩
    rw [h.incline_dot_edge, hv (.other j), hbase, add_sub_cancel_left]
    rfl
  · rintro ⟨rfl, rfl⟩ v
    cases v with
    | pole => rw [edge, dotProduct_zero, add_zero]
    | other j => rw [edge, h.incline_dot_edge, add_sub_cancel]

theorem Exact.constraint_interpolates_iff (h : s.Exact) (k : Fin m) {base : K} {slope : Fin n → K} :
    (∀ v, s.constraint v k = base + slope ⬝ᵥ s.edge v) ↔
      base = -s.linearize.bounds.get k.castSucc ∧ slope = s.linearize.slope k.castSucc := by
  rw [bound_linearize, neg_neg, slope_linearize_castSucc, ← h.interpolates_iff]
  simp only [value_castSucc]

theorem Exact.objective_interpolates_iff (h : s.Exact) {base : K} {slope : Fin n → K} :
    (∀ v, s.objective v = base + slope ⬝ᵥ s.edge v) ↔
      base = -s.linearize.bounds.get (Fin.last m) ∧ slope = -s.linearize.slope (Fin.last m) := by
  rw [bound_linearize, neg_neg, slope_linearize_last, neg_neg, ← h.interpolates_iff]
  simp only [value_last]

/-! ## Predictions -/

def predictedViolation (s : Simplex K S n m) (L : Linearization K n m) (d : Vector K n) : K :=
  Finset.univ.fold max 0 fun k : Fin m => -s.constraint .pole k - L.slope k.castSucc ⬝ᵥ coords d

def predictedMerit (s : Simplex K S n m) (L : Linearization K n m) (penalty : K) (d : Vector K n) : K :=
  s.objective .pole - L.slope (Fin.last m) ⬝ᵥ coords d + penalty * s.predictedViolation L d

theorem violationBothWays_eq (s : Simplex K S n m) (L : Linearization K n m) (d : Vector K n) :
    s.violationBothWays L d = (s.predictedViolation L d, s.predictedViolation L (d.map (- ·))) := by
  have hscans := foldl_prod (fun ahead k => larger ahead (-dot (L.gradient k.castSucc) d - s.constraint .pole k))
    (fun back k => larger back (dot (L.gradient k.castSucc) d - s.constraint .pole k)) 0 0
  rw [foldl_larger_eq_fold, foldl_larger_eq_fold] at hscans
  refine hscans.trans ?_
  unfold predictedViolation
  simp only [coords_map_neg, dotProduct_neg, ← dot_eq, Linearization.slope, neg_sub_comm, sub_neg_eq_add,
    neg_add_eq_sub]

theorem predictedMerit_back_lt_iff (s : Simplex K S n m) (L : Linearization K n m) (penalty : K) (d : Vector K n) :
    s.predictedMerit L penalty (d.map (- ·)) < s.predictedMerit L penalty d ↔
      dot (L.gradient (Fin.last m)) d + dot (L.gradient (Fin.last m)) d <
        penalty * (s.predictedViolation L d - s.predictedViolation L (d.map (- ·))) := by
  unfold predictedMerit
  rw [coords_map_neg, dotProduct_neg, dot_eq, ← Linearization.slope]
  constructor
  · intro h
    linarith
  · intro h
    linarith

theorem repairStep_eq (s : Simplex K S n m) (g : Geometry K n) (j : Fin n) (L : Linearization K n m) (penalty : K) :
    let ahead := scaleVec (0.5 * g.radius * g.heights.get j) (s.inverse.row j)
    s.repairStep g j L penalty =
      if s.predictedMerit L penalty (ahead.map (- ·)) < s.predictedMerit L penalty ahead then ahead.map (- ·)
      else ahead := by
  intro ahead
  unfold repairStep
  dsimp only
  rw [violationBothWays_eq]
  simp only [predictedMerit_back_lt_iff]
  rfl

/-- Of the two steps that move a vertex straight over its face a repair takes the one that the models predict the
lower merit for, and the first of them if they are even. -/
theorem repairStep_favored (s : Simplex K S n m) (g : Geometry K n) (j : Fin n) (L : Linearization K n m)
    (penalty : K) :
    let ahead := scaleVec (0.5 * g.radius * g.heights.get j) (s.inverse.row j)
    let back := ahead.map (- ·)
    let step := s.repairStep g j L penalty
    step = (if s.predictedMerit L penalty back < s.predictedMerit L penalty ahead then back else ahead) ∧
      s.predictedMerit L penalty step ≤ s.predictedMerit L penalty ahead ∧
      s.predictedMerit L penalty step ≤ s.predictedMerit L penalty back := by
  intro ahead back step
  have hstep : step = if s.predictedMerit L penalty back < s.predictedMerit L penalty ahead then back else ahead :=
    s.repairStep_eq g j L penalty
  refine ⟨hstep, ?_⟩
  rw [hstep]
  split_ifs with h
  · exact ⟨h.le, le_refl _⟩
  · exact ⟨le_refl _, not_lt.mp h⟩

end Simplex

end

end TrustSimplex
