import Mathlib.LinearAlgebra.Matrix.NonsingularInverse
import TrustSimplex.Proofs.Exact
import TrustSimplex.TrustRegion.ActiveSet

/-!
# Orthonormal frames

The columns of the basis of an active set are `n` orthonormal vectors. A plane rotation of two of
them leaves them orthonormal, and a vector is the sum of its components along them.
-/

namespace TrustSimplex

/-! ## Positions of a vector -/

section
variable {α : Type} {n : Nat}

theorem getD_eq (v : Vector α n) (i : Nat) (d : α) : v.getD i d = if h : i < n then v[i] else d := by
  by_cases h : i < n <;> simp [Vector.getD, h]

theorem getD_setIfInBounds (v : Vector α n) (i j : Nat) (x d : α) :
    (v.setIfInBounds i x).getD j d = if i = j ∧ j < n then x else v.getD j d := by
  by_cases hj : j < n
  · simp [getD_eq, hj, Vector.getElem_setIfInBounds]
  · simp [getD_eq, hj]

theorem getD_swapIfInBounds (v : Vector α n) {i j : Nat} (hi : i < n) (hj : j < n) (k : Nat) (d : α) :
    (v.swapIfInBounds i j).getD k d = v.getD (Equiv.swap i j k) d := by
  have hs : v.swapIfInBounds i j = v.swap i j := by
    cases v
    simp_all [Array.swapIfInBounds]
  rw [hs]
  by_cases hk : k < n
  · have hk' : Equiv.swap i j k < n := by
      rw [Equiv.swap_apply_def]
      split_ifs <;> assumption
    rw [getD_eq, getD_eq, dif_pos hk, dif_pos hk', Vector.getElem_swap]
    simp only [Equiv.swap_apply_def]
    split_ifs <;> rfl
  · have hki : k ≠ i := fun e => hk (e ▸ hi)
    have hkj : k ≠ j := fun e => hk (e ▸ hj)
    rw [Equiv.swap_apply_of_ne_of_ne hki hkj, getD_eq, getD_eq, dif_neg hk, dif_neg hk]

end

section
variable {K : Type} [EuclideanField K] {n : Nat}

/-! ## Frames -/

def IsFrame (f : Nat → Fin n → K) : Prop :=
  ∀ i < n, ∀ j < n, f i ⬝ᵥ f j = if i = j then 1 else 0

namespace IsFrame

variable {f g : Nat → Fin n → K} (hf : IsFrame f)
include hf

theorem dot_self {i : Nat} (hi : i < n) : f i ⬝ᵥ f i = 1 := by rw [hf i hi i hi, if_pos rfl]

theorem dot_of_ne {i j : Nat} (hi : i < n) (hj : j < n) (h : i ≠ j) : f i ⬝ᵥ f j = 0 := by
  rw [hf i hi j hj, if_neg h]

/-- Two members of a frame may be replaced by orthonormal combinations of them. -/
theorem mix {k l : Nat} (hk : k < n) (hl : l < n) (hkl : k ≠ l) {a b c d : K}
    (h₁ : a * a + b * b = 1) (h₂ : c * c + d * d = 1) (h₃ : a * c + b * d = 0)
    (hgk : g k = a • f k + b • f l) (hgl : g l = c • f k + d • f l)
    (hg : ∀ j, j ≠ k → j ≠ l → g j = f j) : IsFrame g := by
  have hkk := hf.dot_self hk
  have hll := hf.dot_self hl
  have hkl' := hf.dot_of_ne hk hl hkl
  have hlk' := hf.dot_of_ne hl hk (Ne.symm hkl)
  have cross : ∀ (p q : K) (j : Nat), j < n → j ≠ k → j ≠ l → f j ⬝ᵥ (p • f k + q • f l) = 0 := by
    intro p q j hj hjk hjl
    rw [dotProduct_add, dotProduct_smul, dotProduct_smul, hf.dot_of_ne hj hk hjk,
      hf.dot_of_ne hj hl hjl, smul_zero, smul_zero, add_zero]
  have pair : ∀ p q r s : K, (p • f k + q • f l) ⬝ᵥ (r • f k + s • f l) = p * r + q * s := by
    intro p q r s
    simp only [add_dotProduct, dotProduct_add, smul_dotProduct, dotProduct_smul, hkk, hll, hkl', hlk',
      smul_eq_mul]
    ring
  -- either index is one of the two that were mixed, or neither is
  intro i hi j hj
  by_cases hik : i = k
  · subst hik
    by_cases hjk : j = i
    · subst hjk; rw [hgk, pair, h₁, if_pos rfl]
    by_cases hjl : j = l
    · subst hjl; rw [hgk, hgl, pair, h₃, if_neg hkl]
    rw [hg j hjk hjl, hgk, dotProduct_comm, cross a b j hj hjk hjl, if_neg (Ne.symm hjk)]
  by_cases hil : i = l
  · subst hil
    by_cases hjl : j = i
    · subst hjl; rw [hgl, pair, h₂, if_pos rfl]
    by_cases hjk : j = k
    · subst hjk; rw [hgk, hgl, pair, if_neg hik, ← h₃]; ring
    rw [hg j hjk hjl, hgl, dotProduct_comm, cross c d j hj hjk hjl, if_neg (Ne.symm hjl)]
  rw [hg i hik hil]
  by_cases hjk : j = k
  · subst hjk; rw [hgk, cross a b i hi hik hil, if_neg hik]
  by_cases hjl : j = l
  · subst hjl; rw [hgl, cross c d i hi hik hil, if_neg hil]
  rw [hg j hjk hjl, hf i hi j hj]

theorem eq_sum (v : Fin n → K) : v = ∑ i : Fin n, (f i ⬝ᵥ v) • f i := by
  -- the rows of `Z` are orthonormal, and a left inverse of a square matrix is a right one
  let Z : Matrix (Fin n) (Fin n) K := Matrix.of fun i => f i
  have hZ : Z * Z.transpose = 1 := by
    ext i j
    rw [Matrix.mul_apply, Matrix.one_apply]
    have := hf i i.isLt j j.isLt
    simp only [Fin.val_inj] at this
    exact this
  have hv : (Z.transpose * Z).mulVec v = v := by
    rw [mul_eq_one_comm.mp hZ, Matrix.one_mulVec]
  rw [← Matrix.mulVec_mulVec] at hv
  rw [← hv]
  funext l
  simp only [Matrix.mulVec, dotProduct, Matrix.transpose_apply, Finset.sum_apply, Pi.smul_apply,
    smul_eq_mul]
  refine Finset.sum_congr rfl fun i _ => ?_
  have hw := congrFun hv
  simp only [Matrix.mulVec, dotProduct, Matrix.transpose_apply] at hw
  simp only [hw]
  exact mul_comm _ _

theorem eq_zero {v : Fin n → K} (h : ∀ i < n, f i ⬝ᵥ v = 0) : v = 0 := by
  rw [hf.eq_sum v]
  exact Finset.sum_eq_zero fun i _ => by rw [h i i.isLt, zero_smul]

/-- A vector orthogonal to a frame but for one member is a multiple of that member. -/
theorem eq_smul {v : Fin n → K} {k : Nat} (hk : k < n) (h : ∀ i < n, i ≠ k → f i ⬝ᵥ v = 0) :
    v = (f k ⬝ᵥ v) • f k := by
  rw [← sub_eq_zero]
  refine hf.eq_zero fun i hi => ?_
  rw [dotProduct_sub, dotProduct_smul, hf i hi k hk]
  by_cases hik : i = k
  · subst hik; simp
  · rw [h i hi hik, if_neg hik]; simp

end IsFrame

/-! ## Plane rotations of columns -/

section
variable {m : Nat} (A : ColMatrix K n m) {k l : Nat} (c s : K)

theorem coords_col_rotateCols_fst (hk : k < m) (hkl : k ≠ l) :
    coords ((A.rotateCols k l c s).col k) = c • coords (A.col k) + s • coords (A.col l) := by
  unfold ColMatrix.rotateCols
  dsimp only
  rw [ColMatrix.col_setCol_of_ne _ _ (Ne.symm hkl), ColMatrix.col_setCol_self _ _ hk]
  funext i
  simp [coords]

theorem coords_col_rotateCols_snd (hl : l < m) :
    coords ((A.rotateCols k l c s).col l) = (-s) • coords (A.col k) + c • coords (A.col l) := by
  unfold ColMatrix.rotateCols
  dsimp only
  rw [ColMatrix.col_setCol_self _ _ hl]
  funext i
  simp [coords]
  ring

theorem col_rotateCols_of_ne {j : Nat} (hjk : j ≠ k) (hjl : j ≠ l) :
    (A.rotateCols k l c s).col j = A.col j := by
  unfold ColMatrix.rotateCols
  dsimp only
  rw [ColMatrix.col_setCol_of_ne _ _ (Ne.symm hjl), ColMatrix.col_setCol_of_ne _ _ (Ne.symm hjk)]

theorem coords_col_exchangeCols_fst (hk : k < m) (hkl : k ≠ l) :
    coords ((A.exchangeCols k l c s).col k) = s • coords (A.col k) + c • coords (A.col l) := by
  unfold ColMatrix.exchangeCols
  dsimp only
  rw [ColMatrix.col_setCol_of_ne _ _ (Ne.symm hkl), ColMatrix.col_setCol_self _ _ hk]
  funext i
  simp [coords]
  ring

theorem coords_col_exchangeCols_snd (hl : l < m) :
    coords ((A.exchangeCols k l c s).col l) = c • coords (A.col k) + (-s) • coords (A.col l) := by
  unfold ColMatrix.exchangeCols
  dsimp only
  rw [ColMatrix.col_setCol_self _ _ hl]
  funext i
  simp [coords]
  ring

theorem col_exchangeCols_of_ne {j : Nat} (hjk : j ≠ k) (hjl : j ≠ l) :
    (A.exchangeCols k l c s).col j = A.col j := by
  unfold ColMatrix.exchangeCols
  dsimp only
  rw [ColMatrix.col_setCol_of_ne _ _ (Ne.symm hjl), ColMatrix.col_setCol_of_ne _ _ (Ne.symm hjk)]

end

end

end TrustSimplex
