import Mathlib.LinearAlgebra.AffineSpace.AffineSubspace.Basic
import TrustSimplex.Proofs.Rescaling
import TrustSimplex.Proofs.Simplex.Position
import TrustSimplex.Proofs.Simplex.Repair

/-!
# Faces of a simplex

The face opposite a vertex is the affine span of all the others, the pole among them. While the inverse is exact its
row for the vertex is the normal of that face, and what the method calls the height of a vertex is its distance from
it.
-/

namespace TrustSimplex

section
variable {K S : Type} [EuclideanField K] {n m : Nat}

def IsDistance (y : Vector K n) (A : AffineSubspace K (Fin n → K)) (δ : K) : Prop :=
  IsLeast {r | ∃ p : Vector K n, coords p ∈ A ∧ r = Scalar.sqrt (distSq y p)} δ

theorem abs_dotProduct_le (u v : Fin n → K) : |u ⬝ᵥ v| ≤ Scalar.sqrt (u ⬝ᵥ u) * Scalar.sqrt (v ⬝ᵥ v) := by
  have hu := self_dotProduct_nonneg u
  have hv := self_dotProduct_nonneg v
  refine abs_le_of_sq_le_sq ?_ (mul_nonneg (sqrt_nonneg hu) (sqrt_nonneg hv))
  rw [mul_pow, sq (Scalar.sqrt (u ⬝ᵥ u)), sq (Scalar.sqrt (v ⬝ᵥ v)), sqrt_mul_self hu, sqrt_mul_self hv]
  have hcauchy := Finset.sum_mul_sq_le_sq_mul_sq Finset.univ u v
  simp only [sq] at hcauchy ⊢
  exact hcauchy

namespace Simplex

variable {s : Simplex K S n m} {j : Fin n}

def face (s : Simplex K S n m) (j : Fin n) : AffineSubspace K (Fin n → K) :=
  affineSpan K ((fun v => coords (s.position v)) '' {v | v ≠ .other j})

theorem coords_pole_mem_face (s : Simplex K S n m) (j : Fin n) : coords s.pole ∈ s.face j :=
  mem_affineSpan K ⟨.pole, nofun, rfl⟩

theorem Exact.mem_face_iff (h : s.Exact) {p : Fin n → K} :
    p ∈ s.face j ↔ coords (s.inverse.row j) ⬝ᵥ (p - coords s.pole) = 0 := by
  have hdual := exact_iff.mp h
  have hpole : coords s.pole ∈ (fun v => coords (s.position v)) '' {v | v ≠ .other j} := ⟨.pole, nofun, rfl⟩
  rw [← AffineSubspace.vsub_right_mem_direction_iff_mem (s.coords_pole_mem_face j), vsub_eq_sub]
  unfold face
  rw [direction_affineSpan, vectorSpan_eq_span_vsub_set_right K hpole]
  have hedge : ∀ v, coords (s.position v) -ᵥ coords s.pole = s.edge v := by
    intro v
    rw [coords_position, vsub_eq_sub, add_sub_cancel_left]
  generalize p - coords s.pole = d
  constructor
  · intro hspan
    induction hspan using Submodule.span_induction with
    | mem x hx =>
      obtain ⟨_, ⟨v, hv, rfl⟩, rfl⟩ := hx
      dsimp only
      rw [hedge]
      cases v with
      | pole => exact dotProduct_zero _
      | other i => exact (hdual j i).trans (if_neg fun e => hv (congrArg Vertex.other e.symm))
    | zero => exact dotProduct_zero _
    | add x y _ _ hx hy => rw [dotProduct_add, hx, hy, add_zero]
    | smul c x _ hx => rw [dotProduct_smul, hx, smul_zero]
  · intro hzero
    rw [h.eq_sum_edges d]
    refine Submodule.sum_mem _ fun i _ => ?_
    by_cases hij : i = j
    · rw [hij, hzero, zero_smul]
      exact Submodule.zero_mem _
    · refine Submodule.smul_mem _ _ (Submodule.subset_span ?_)
      exact ⟨_, ⟨.other i, fun e => hij (Vertex.other.inj e), rfl⟩, hedge (.other i)⟩

/-! ## Distances from a face -/

theorem Exact.isDistance_face (h : s.Exact) (radius : K) (j : Fin n) (y : Vector K n) :
    IsDistance y (s.face j)
      (|coords (s.inverse.row j) ⬝ᵥ (coords y - coords s.pole)| * (s.geometry radius).heights.get j) := by
  have hnormal := h.normSq_row_pos j
  have hroot := sqrt_pos hnormal
  rw [get_heights, mul_one_div]
  rw [normSq_eq] at hnormal hroot ⊢
  constructor
  -- the foot of the perpendicular
  · refine ⟨Vector.ofFn (coords y - (coords (s.inverse.row j) ⬝ᵥ (coords y - coords s.pole) /
      (coords (s.inverse.row j) ⬝ᵥ coords (s.inverse.row j))) • coords (s.inverse.row j)), ?_, ?_⟩
    · rw [h.mem_face_iff, coords_ofFn, sub_right_comm, dotProduct_sub, dotProduct_smul, smul_eq_mul,
        div_mul_cancel₀ _ hnormal.ne', sub_self]
    · rw [distSq_eq, coords_ofFn, sub_sub_cancel, smul_dotProduct, dotProduct_smul, smul_eq_mul, smul_eq_mul,
        ← mul_assoc, sqrt_abs_mul _ hnormal.le, abs_div, abs_of_pos hnormal, div_mul_eq_mul_div,
        div_eq_div_iff hroot.ne' hnormal.ne', mul_assoc, sqrt_mul_self hnormal.le]
  · rintro _ ⟨p, hp, rfl⟩
    rw [h.mem_face_iff] at hp
    have hsame : coords (s.inverse.row j) ⬝ᵥ (coords y - coords s.pole) =
        coords (s.inverse.row j) ⬝ᵥ (coords y - coords p) := by
      rw [← sub_add_sub_cancel (coords y) (coords p) (coords s.pole), dotProduct_add, hp, add_zero]
    rw [hsame, div_le_iff₀ hroot, distSq_eq, mul_comm]
    exact abs_dotProduct_le _ _

theorem Exact.isDistance_vertex (h : s.Exact) (radius : K) (j : Fin n) :
    IsDistance (s.position (.other j)) (s.face j) ((s.geometry radius).heights.get j) := by
  have hdistance := h.isDistance_face radius j (s.position (.other j))
  rw [coords_position, add_sub_cancel_left] at hdistance
  have hone : coords (s.inverse.row j) ⬝ᵥ s.edge (.other j) = 1 := h.dot_self j
  rwa [hone, abs_one, one_mul] at hdistance

theorem Exact.isDistance_offset (h : s.Exact) (radius : K) (j : Fin n) (d : Vector K n) :
    IsDistance (s.offset d) (s.face j) ((s.volumeRatios d).get j * (s.geometry radius).heights.get j) := by
  have hdistance := h.isDistance_face radius j (s.offset d)
  unfold offset at hdistance ⊢
  rwa [coords_addVec, add_sub_cancel_left, ← dot_eq, ← get_volumeRatios] at hdistance

theorem face_replace (s : Simplex K S n m) (j : Fin n) (d : Vector K n) : (s.replace j d).face j = s.face j := by
  unfold face
  congr 1
  refine Set.image_congr fun v hv => ?_
  rw [position_replace, if_neg hv]

/-- What the geometry calls the height of a vertex is its distance from the face through all the others, attained at
the foot of the perpendicular. The volume ratio of any step, times the height, is the distance from that face of the
point where the step leads. -/
theorem height_isDistance (h : s.Exact) (radius : K) (j : Fin n) :
    IsDistance (s.position (.other j)) (s.face j) ((s.geometry radius).heights.get j) ∧
      ∀ d : Vector K n, (s.volumeRatios d).get j = |dot (s.inverse.row j) d| ∧
        IsDistance (s.offset d) (s.face j) ((s.volumeRatios d).get j * (s.geometry radius).heights.get j) :=
  ⟨h.isDistance_vertex radius j, fun d => ⟨s.get_volumeRatios d j, h.isDistance_offset radius j d⟩⟩

/-- The face opposite the first vertex of the right angle is the second axis. -/
theorem height_isDistance_rightAngle : rightAngle.Exact ∧
    IsDistance (rightAngle.position (.other 0)) (rightAngle.face 0) 1 ∧
    (rightAngle.volumeRatios #v[-3, 4]).get 0 = |dot (rightAngle.inverse.row 0) #v[-3, 4]| ∧
    IsDistance (rightAngle.offset #v[-3, 4]) (rightAngle.face 0) 3 := by
  obtain ⟨hvertex, hstep⟩ := height_isDistance growing_rightAngle.exact 1 0
  obtain ⟨hratio, hpoint⟩ := hstep #v[-3, 4]
  have hheight : (rightAngle.geometry 1).heights.get 0 = 1 := by
    rw [get_heights, normSq_eq, coords_row_rightAngle, single_dotProduct, Pi.single_eq_same, one_mul]
    exact (congrArg (1 / ·) Real.sqrt_one).trans (one_div_one)
  have hdot : dot (rightAngle.inverse.row (0 : Fin 2)) #v[-3, 4] = -3 := by
    rw [dot_eq, coords_row_rightAngle, single_dotProduct, one_mul]
    rfl
  rw [hheight] at hvertex
  rw [hratio, hheight, mul_one] at hpoint
  refine ⟨growing_rightAngle.exact, hvertex, hratio, ?_⟩
  rwa [hdot, abs_neg, abs_of_pos three_pos] at hpoint

end Simplex

end

end TrustSimplex
