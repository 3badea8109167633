import Mathlib.LinearAlgebra.Matrix.NonsingularInverse
import TrustSimplex.Proofs.Exact
import TrustSimplex.Simplex.Geometry

/-!
# The inverse of the edges

Growing the first simplex, turning to another pole and moving a vertex each update the inverse by a
formula of its own. All of them keep the rows of the inverse dual to the edges, and the vertex that is
moved is chosen so that nothing is divided by zero.
-/

namespace TrustSimplex

section
variable {K S : Type} [EuclideanField K] {n m k : Nat}

def ColMatrix.toMatrix (A : ColMatrix K n m) : Matrix (Fin n) (Fin m) K := Matrix.of fun i j => A.entry i j

namespace Simplex

variable {s t : Simplex K S n m} {r : Sample K S m} {radius : K} {j : Fin n}

def Exact (s : Simplex K S n m) : Prop := s.inverse.toMatrix * s.edges.toMatrix = 1

theorem exact_iff : s.Exact ↔ ∀ i c : Fin n,
    coords (s.inverse.row i) ⬝ᵥ coords (s.edges.col c) = if i = c then 1 else 0 := by
  have hentry : ∀ i c : Fin n, (s.inverse.toMatrix * s.edges.toMatrix) i c =
      coords (s.inverse.row i) ⬝ᵥ coords (s.edges.col c) := fun i c => by
    rw [Matrix.mul_apply]
    refine Finset.sum_congr rfl fun k _ => ?_
    rw [coords_row, coords_col]
    rfl
  unfold Exact
  rw [← Matrix.ext_iff]
  simp only [hentry, Matrix.one_apply]

theorem Exact.edges_mul_inverse (h : s.Exact) : s.edges.toMatrix * s.inverse.toMatrix = 1 :=
  mul_eq_one_comm.mp h

theorem Exact.dot_self (h : s.Exact) (j : Fin n) :
    coords (s.inverse.row j) ⬝ᵥ coords (s.edges.col j) = 1 := by
  rw [exact_iff.mp h, if_pos rfl]

theorem Exact.row_ne_zero (h : s.Exact) (j : Fin n) : coords (s.inverse.row j) ≠ 0 := by
  intro h0
  have hdot := h.dot_self j
  rw [h0, zero_dotProduct] at hdot
  exact zero_ne_one hdot

/-- The rows of the inverse read the coefficients of a step along the edges. -/
theorem Exact.eq_sum_edges (h : s.Exact) (d : Fin n → K) :
    d = ∑ i : Fin n, (coords (s.inverse.row i) ⬝ᵥ d) • coords (s.edges.col i) := by
  have hback : s.edges.toMatrix.mulVec (s.inverse.toMatrix.mulVec d) = d := by
    rw [Matrix.mulVec_mulVec, h.edges_mul_inverse, Matrix.one_mulVec]
  have hrow : ∀ i : Fin n, s.inverse.toMatrix.mulVec d i = coords (s.inverse.row i) ⬝ᵥ d := fun i =>
    congrArg (· ⬝ᵥ d) (funext fun c => (coords_row s.inverse i c).symm)
  funext c
  rw [Finset.sum_apply, ← congrFun hback c]
  show ∑ i : Fin n, s.edges.entry c i * s.inverse.toMatrix.mulVec d i = _
  refine Finset.sum_congr rfl fun i _ => ?_
  rw [Pi.smul_apply, smul_eq_mul, coords_col, mul_comm, hrow]

theorem Exact.exists_dot_ne (h : s.Exact) {d : Fin n → K} (hd : d ≠ 0) :
    ∃ j : Fin n, coords (s.inverse.row j) ⬝ᵥ d ≠ 0 := by
  by_contra hall
  refine hd ((h.eq_sum_edges d).trans (Finset.sum_eq_zero fun i _ => ?_))
  rw [not_not.mp (not_exists.mp hall i), zero_smul]

theorem Exact.inverseError (h : s.Exact) : s.inverseError = 0 := by
  have hterm : ∀ i c : Fin n,
      Scalar.abs (dot (s.inverse.row i) (s.edges.col c) - if i = c then 1 else 0) = (0 : K) := by
    intro i c
    rw [dot_eq, exact_iff.mp h, sub_self]
    exact abs_zero
  unfold Simplex.inverseError
  refine foldl_invariant (P := (· = 0)) (fun error i he => ?_) rfl
  refine foldl_invariant (P := (· = 0)) (fun error c he => ?_) he
  rw [hterm, he, larger_eq_max, max_self]

/-! ## Growing the first simplex -/

/-- The first simplex as far as it was grown. The edges and rows of the axes ahead are as at the start, and
what turning to a lower vertex wrote below the diagonal of the inverse stays below it. -/
structure Growing (s : Simplex K S n m) (radius : K) : Prop where
  exact : s.Exact
  triangular : ∀ i k : Fin n, i < k → s.inverse.entry i k = 0
  edge_ahead : ∀ i c : Fin n, s.others.size ≤ i → s.edges.entry i c = if i = c then radius else 0
  row_ahead : ∀ i k : Fin n, s.others.size ≤ i → s.inverse.entry i k = if i = k then radius⁻¹ else 0

theorem growing_start (x : Vector K n) (hr : radius ≠ 0) (first : Sample K S m) :
    (start x radius first).Growing radius := by
  have hedge : ∀ i c : Fin n, (start x radius first).edges.entry i c = if i = c then radius else 0 :=
    fun i c => by
      show (ColMatrix.identity n radius).entry i c = _
      rw [ColMatrix.entry_identity n _ i.isLt c.isLt]
      simp only [Fin.ext_iff]
  have hrow : ∀ i k : Fin n, (start x radius first).inverse.entry i k = if i = k then radius⁻¹ else 0 :=
    fun i k => by
      show (ColMatrix.identity n (1 / radius)).entry i k = _
      rw [ColMatrix.entry_identity n _ i.isLt k.isLt, one_div]
      simp only [Fin.ext_iff]
  refine ⟨?_, fun i k hik => by rw [hrow, if_neg hik.ne], fun i c _ => hedge i c, fun i k _ => hrow i k⟩
  refine exact_iff.mpr fun i c => ?_
  have hcoords : coords ((start x radius first).inverse.row i) = Pi.single i radius⁻¹ := by
    funext k
    rw [coords_row, hrow, Pi.single_apply]
    simp only [eq_comm]
  rw [hcoords, single_dotProduct, coords_col, hedge]
  split_ifs
  · exact inv_mul_cancel₀ hr
  · exact mul_zero _

/-- The entries that `extend` sums up are those of all rows so far, for none is above its diagonal. -/
theorem Growing.sumOf_rows (h : s.Growing radius) (j k : Fin n) :
    sumOf (j + 1 - k) (fun l => s.inverse.entry (k + l) k) =
      ∑ a ∈ Finset.range (j + 1), s.inverse.entry a k := by
  have hshort : sumOf (j + 1 - k) (fun l => s.inverse.entry (k + l) k) =
      ∑ a ∈ Finset.Ico k.val (j + 1), s.inverse.entry a k := by
    rw [sumOf_eq_sum, Fin.sum_univ_eq_sum_range (fun l => s.inverse.entry (k + l) k),
      Finset.sum_Ico_eq_sum_range]
  rw [hshort]
  refine Finset.sum_subset (fun a ha => ?_) fun a ha hout => ?_
  · rw [Finset.mem_range]
    exact (Finset.mem_Ico.mp ha).2
  · have haj := Finset.mem_range.mp ha
    have hak : a < k := by
      by_contra hle
      exact hout (Finset.mem_Ico.mpr ⟨not_lt.mp hle, haj⟩)
    exact h.triangular ⟨a, hak.trans k.isLt⟩ k hak

theorem Growing.dual_sum (h : s.Growing radius) (j c : Fin n) :
    (∑ a ∈ Finset.range (j + 1), coords (s.inverse.row a)) ⬝ᵥ coords (s.edges.col c) =
      if c ≤ j then 1 else 0 := by
  have hdual : ∀ a ∈ Finset.range (j + 1), coords (s.inverse.row a) ⬝ᵥ coords (s.edges.col c) =
      if a = c then 1 else 0 := by
    intro a ha
    have han : a < n := by have := Finset.mem_range.mp ha; omega
    have := exact_iff.mp h.exact ⟨a, han⟩ c
    simpa only [Fin.ext_iff] using this
  rw [sum_dotProduct, Finset.sum_congr rfl hdual, Finset.sum_ite_eq' (Finset.range (j + 1)) c.val]
  simp only [Finset.mem_range, Nat.lt_succ_iff, Fin.le_def]

/-- What `extend` makes of a simplex whose new vertex, along axis `j`, is the lower one. -/
structure Turned (s t : Simplex K S n m) (j : Fin n) (radius : K) : Prop where
  edge : ∀ c : Fin n, coords (t.edges.col c) = coords (s.edges.col c) -
    (if c ≤ j then (if j = c then radius else 0) + radius else 0) • Pi.single j 1
  row : ∀ i : Fin n, coords (t.inverse.row i) =
    if i = j then -∑ a ∈ Finset.range (j + 1), coords (s.inverse.row a) else coords (s.inverse.row i)

theorem Growing.turned (h : s.Growing radius) {j : Fin n} (hj : s.others.size = j)
    (hlt : ¬ s.objective .pole ≤ r.objective) : s.Turned (s.extend r) j radius := by
  have hlength : s.edges.entry j j = radius := by rw [h.edge_ahead j j hj.le, if_pos rfl]
  constructor
  · intro c
    funext i
    have hedge : (s.extend r).edges.entry i c = if i = j ∧ c ≤ j then -radius else s.edges.entry i c := by
      unfold extend
      rw [if_neg hlt, ColMatrix.entry_ofFn _ i.isLt c.isLt, hj, hlength]
      simp only [Fin.ext_iff, Fin.le_def]
    rw [coords_col, hedge, Pi.sub_apply, Pi.smul_apply, coords_col, Pi.single_apply]
    by_cases hi : i = j
    · rw [hi, h.edge_ahead j c hj.le]
      by_cases hc : c ≤ j
      · simp [hc]
      · simp [hc]
    · simp [hi]
  · intro i
    funext k
    have hrow : (s.extend r).inverse.entry i k =
        if i = j ∧ k ≤ j then -(sumOf (j + 1 - k) fun l => s.inverse.entry (k + l) k)
        else s.inverse.entry i k := by
      unfold extend
      rw [if_neg hlt, ColMatrix.entry_ofFn _ i.isLt k.isLt, hj]
      simp only [Fin.ext_iff, Fin.le_def]
    have hsum : (∑ a ∈ Finset.range (j + 1), coords (s.inverse.row a)) k =
        sumOf (j + 1 - k) fun l => s.inverse.entry (k + l) k := by
      rw [h.sumOf_rows, Finset.sum_apply]
      simp only [coords_row]
    rw [coords_row, hrow]
    by_cases hi : i = j
    · rw [if_pos hi, Pi.neg_apply, hsum]
      by_cases hk : k ≤ j
      · rw [if_pos ⟨hi, hk⟩]
      · have hempty : j.val + 1 - k = 0 := by omega
        rw [if_neg fun e => hk e.2, hempty, sumOf_zero, neg_neg, hi, h.triangular j k (not_le.mp hk)]
    · rw [if_neg hi, if_neg fun e => hi e.1, coords_row]

theorem Turned.exact (ht : s.Turned t j radius) (h : s.Growing radius) (hr : radius ≠ 0)
    (hj : s.others.size = j) : t.Exact := by
  have hdual := exact_iff.mp h.exact
  have hentry : ∀ i : Fin n, s.inverse.entry i j = if i = j then radius⁻¹ else 0 := by
    intro i
    rcases lt_or_ge i j with hij | hij
    · rw [h.triangular i j hij, if_neg hij.ne]
    · exact h.row_ahead i j (hj.trans_le hij)
  refine exact_iff.mpr fun i c => ?_
  rw [ht.edge, ht.row]
  by_cases hi : i = j
  · have hsum : (∑ a ∈ Finset.range (j + 1), coords (s.inverse.row a)) j = radius⁻¹ := by
      have hterm : ∀ a ∈ Finset.range (j + 1),
          coords (s.inverse.row a) j = if a = j then radius⁻¹ else 0 := by
        intro a ha
        have haj := Finset.mem_range.mp ha
        have := hentry ⟨a, by omega⟩
        rw [coords_row, this]
        simp only [Fin.ext_iff]
      rw [Finset.sum_apply, Finset.sum_congr rfl hterm, Finset.sum_ite_eq',
        if_pos (Finset.self_mem_range_succ j.val)]
    -- the edges behind axis `j` were shortened by the one along it, and its own was turned around
    rw [if_pos hi, neg_dotProduct, dotProduct_sub, h.dual_sum, dotProduct_smul, dotProduct_single, mul_one,
      hsum, smul_eq_mul, hi]
    rcases lt_trichotomy c j with hcj | rfl | hcj
    · rw [if_pos hcj.le, if_pos hcj.le, if_neg hcj.ne', zero_add, mul_inv_cancel₀ hr, sub_self,
        neg_zero, if_neg hcj.ne']
    · rw [if_pos (le_refl c), if_pos (le_refl c), if_pos rfl, if_pos rfl, add_mul, mul_inv_cancel₀ hr]
      ring
    · rw [if_neg hcj.not_ge, if_neg hcj.not_ge, zero_mul, sub_zero, neg_zero, if_neg hcj.ne]
  · rw [if_neg hi, dotProduct_sub, hdual, dotProduct_smul, dotProduct_single, coords_row, hentry, if_neg hi,
      zero_mul, smul_zero, sub_zero]

theorem Growing.extend (h : s.Growing radius) (hr : radius ≠ 0) (hbuilding : s.isBuilding) (r : Sample K S m) :
    (s.extend r).Growing radius := by
  have hn : s.others.size < n := of_decide_eq_true hbuilding
  have hsize := s.size_others_extend r
  by_cases hle : s.objective .pole ≤ r.objective
  · have hsame : s.extend r = { s with others := s.others.push r } := if_pos hle
    rw [hsame] at hsize ⊢
    exact ⟨h.exact, h.triangular, fun i c hi => h.edge_ahead i c (by omega),
      fun i k hi => h.row_ahead i k (by omega)⟩
  have ht := h.turned (j := ⟨s.others.size, hn⟩) rfl hle
  have hedge : ∀ i c : Fin n, s.others.size < i → (s.extend r).edges.entry i c = s.edges.entry i c := by
    intro i c hi
    have hne : i ≠ ⟨s.others.size, hn⟩ := Fin.ne_of_gt hi
    have := congrFun (ht.edge c) i
    rwa [coords_col, Pi.sub_apply, Pi.smul_apply, Pi.single_eq_of_ne hne, smul_zero, sub_zero,
      coords_col] at this
  have hrow : ∀ i k : Fin n, i ≠ ⟨s.others.size, hn⟩ →
      (s.extend r).inverse.entry i k = s.inverse.entry i k := by
    intro i k hi
    have := congrFun (ht.row i) k
    rwa [coords_row, if_neg hi, coords_row] at this
  refine ⟨ht.exact h hr rfl, fun i k hik => ?_, fun i c hi => ?_, fun i k hi => ?_⟩
  · by_cases hi : i = ⟨s.others.size, hn⟩
    · rw [← coords_row, ht.row, if_pos hi, Pi.neg_apply, Finset.sum_apply, neg_eq_zero]
      refine Finset.sum_eq_zero fun a ha => ?_
      have hak : a < k := by
        have haj := Finset.mem_range.mp ha
        have := Fin.ext_iff.mp hi
        have := Fin.lt_def.mp hik
        omega
      rw [coords_row]
      exact h.triangular ⟨a, hak.trans k.isLt⟩ k hak
    · rw [hrow i k hi, h.triangular i k hik]
  · rw [hedge i c (by omega), h.edge_ahead i c (by omega)]
  · have hlt : s.others.size < i := by omega
    rw [hrow i k (Fin.ne_of_gt hlt), h.row_ahead i k hlt.le]

/-! ## Turning to another pole -/

section
variable {α : Type} [Scalar α]

theorem entry_edges_pivot (s : Simplex α S n m) (j i c : Fin n) : (s.pivot j).edges.entry i c =
    (if c = j then 0 else s.edges.entry i c) - s.edges.entry i j := by
  show (ColMatrix.ofFn _).entry i c = _
  rw [ColMatrix.entry_ofFn _ i.isLt c.isLt, ColMatrix.entry_eq_getElem s.edges j i.isLt]
  rfl

theorem entry_inverse_pivot (s : Simplex α S n m) (j i c : Fin n) : (s.pivot j).inverse.entry i c =
    if i = j then Fin.foldl n (fun sum l => sum - s.inverse.entry l c) 0 else s.inverse.entry i c :=
  ColMatrix.entry_ofFn _ i.isLt c.isLt

end

theorem edge_pivot (s : Simplex K S n m) (j c : Fin n) : coords ((s.pivot j).edges.col c) =
    (if c = j then 0 else coords (s.edges.col c)) - coords (s.edges.col j) := by
  funext i
  rw [coords_col, entry_edges_pivot, Pi.sub_apply, coords_col]
  split_ifs
  · rfl
  · rw [coords_col]

theorem row_pivot (s : Simplex K S n m) (j i : Fin n) : coords ((s.pivot j).inverse.row i) =
    if i = j then -∑ l : Fin n, coords (s.inverse.row l) else coords (s.inverse.row i) := by
  funext c
  rw [coords_row, entry_inverse_pivot]
  split_ifs
  · rw [foldl_sub_eq_sum, zero_sub, Pi.neg_apply, Finset.sum_apply]
    simp only [coords_row]
  · rw [coords_row]

theorem Exact.pivot (h : s.Exact) (j : Fin n) : (s.pivot j).Exact := by
  have hdual := exact_iff.mp h
  refine exact_iff.mpr fun i c => ?_
  rw [edge_pivot, row_pivot]
  by_cases hi : i = j
  · rw [if_pos hi, neg_dotProduct, sum_dotProduct]
    by_cases hc : c = j
    · simp [hi, hc, dotProduct_neg, hdual]
    · simp [hi, hc, Ne.symm hc, dotProduct_sub, hdual]
  · rw [if_neg hi]
    by_cases hc : c = j
    · simp [hi, hc, dotProduct_neg, hdual]
    · simp [hi, hc, dotProduct_sub, hdual]

theorem Exact.pivotTo (h : s.Exact) (v : Vertex n) : (s.pivotTo v).Exact := by
  cases v with
  | pole => exact h
  | other j => exact h.pivot j

/-! ## Moving a vertex -/

theorem row_replace (s : Simplex K S n m) (j i : Fin n) (d : Vector K n) :
    coords ((s.replace j d).inverse.row i) =
      if i = j then (dot (s.inverse.row j) d)⁻¹ • coords (s.inverse.row j)
      else coords (s.inverse.row i) -
        (dot (s.inverse.row i) d * (dot (s.inverse.row j) d)⁻¹) • coords (s.inverse.row j) := by
  funext c
  show coords ((ColMatrix.ofFn _).row i) c = _
  rw [coords_row, ColMatrix.entry_ofFn _ i.isLt c.isLt]
  have hpivot : ((s.inverse.row j).map (· / dot (s.inverse.row j) d)).get c =
      coords (s.inverse.row j) c / dot (s.inverse.row j) d := by
    simp [get_eq_coords, coords]
  split_ifs
  · rw [hpivot, Pi.smul_apply, smul_eq_mul, div_eq_inv_mul]
  · rw [hpivot, Pi.sub_apply, Pi.smul_apply, smul_eq_mul, coords_row s.inverse i, get_eq_coords, coords_ofFn]
    ring

theorem edge_replace (s : Simplex K S n m) (j c : Fin n) (d : Vector K n) :
    (s.replace j d).edges.col c = if c = j then d else s.edges.col c := by
  show (s.edges.setCol j d).col c = _
  split_ifs with hc
  · rw [hc, ColMatrix.col_setCol_self _ _ j.isLt]
  · rw [ColMatrix.col_setCol_of_ne _ _ fun e => hc (Fin.ext e.symm)]

theorem Exact.replace (h : s.Exact) {j : Fin n} {d : Vector K n} (hd : dot (s.inverse.row j) d ≠ 0) :
    (s.replace j d).Exact := by
  have hdual := exact_iff.mp h
  refine exact_iff.mpr fun i c => ?_
  rw [edge_replace, apply_ite coords, row_replace]
  rw [dot_eq] at hd ⊢
  by_cases hi : i = j
  · subst hi
    rw [if_pos rfl, smul_dotProduct, smul_eq_mul]
    split_ifs with hc hc' hc'
    · exact inv_mul_cancel₀ hd
    · exact absurd hc.symm hc'
    · exact absurd hc'.symm hc
    · rw [hdual, if_neg hc', mul_zero]
  · rw [if_neg hi, sub_dotProduct, smul_dotProduct, smul_eq_mul]
    by_cases hc : c = j
    · rw [if_pos hc, dot_eq, mul_assoc, inv_mul_cancel₀ hd, mul_one, sub_self, if_neg fun e => hi (e.trans hc)]
    · rw [if_neg hc, hdual, hdual, if_neg (Ne.symm hc), mul_zero, sub_zero]

/-! ## Nothing is divided by zero -/

theorem Exact.normSq_row_pos (h : s.Exact) (j : Fin n) : 0 < normSq (s.inverse.row j) := by
  rw [normSq_eq]
  exact self_dotProduct_pos (h.row_ne_zero j)

theorem get_heights (s : Simplex K S n m) (radius : K) (j : Fin n) :
    (s.geometry radius).heights.get j = 1 / Scalar.sqrt (normSq (s.inverse.row j)) :=
  congrFun (coords_ofFn _) j

theorem get_lengths (s : Simplex K S n m) (radius : K) (j : Fin n) :
    (s.geometry radius).lengths.get j = Scalar.sqrt (normSq (s.edges.col j)) :=
  congrFun (coords_ofFn _) j

theorem Exact.height_pos (h : s.Exact) (radius : K) (j : Fin n) : 0 < (s.geometry radius).heights.get j := by
  rw [get_heights]
  exact one_div_pos.mpr (sqrt_pos (h.normSq_row_pos j))

/-- A repair moves its vertex along the row of the inverse, one way or the other. -/
theorem exists_repairStep_eq (s : Simplex K S n m) (g : Geometry K n) (j : Fin n) (L : Linearization K n m)
    (penalty : K) : ∃ c : K, |c| = |0.5 * g.radius * g.heights.get j| ∧
      coords (s.repairStep g j L penalty) = c • coords (s.inverse.row j) := by
  unfold repairStep
  dsimp only
  split_ifs
  · refine ⟨-(0.5 * g.radius * g.heights.get j), abs_neg _, ?_⟩
    rw [coords_map_neg, coords_scaleVec, neg_smul]
  · exact ⟨_, rfl, coords_scaleVec _ _⟩

theorem Exact.dot_repairStep_ne (h : s.Exact) (hr : 0 < radius) (j : Fin n) (L : Linearization K n m)
    (penalty : K) : dot (s.inverse.row j) (s.repairStep (s.geometry radius) j L penalty) ≠ 0 := by
  obtain ⟨c, hc, hstep⟩ := s.exists_repairStep_eq (s.geometry radius) j L penalty
  have hlength : 0 < 0.5 * radius * (s.geometry radius).heights.get j :=
    mul_pos (mul_pos (by norm_num) hr) (h.height_pos radius j)
  have hne : c ≠ 0 := abs_pos.mp (hc ▸ abs_pos.mpr hlength.ne')
  rw [dot_eq, hstep, dotProduct_smul, smul_eq_mul]
  exact mul_ne_zero hne (self_dotProduct_pos (h.row_ne_zero j)).ne'

theorem longest?_spec (lengths : Vector K n) (bound : K) :
    (Geometry.longest? lengths bound = none ∧ ∀ j, lengths.get j ≤ bound) ∨
      ∃ j, Geometry.longest? lengths bound = some j ∧ bound < lengths.get j ∧
        ∀ i, lengths.get i ≤ lengths.get j := by
  obtain ⟨hall, hfound⟩ := foldl_greatest id (fun j => lengths.get j) bound
  rcases hfound with ⟨hnone, hb⟩ | ⟨j, hj, hb, hlt⟩
  · exact Or.inl ⟨hnone, fun j => (hall j).trans hb.le⟩
  · exact Or.inr ⟨j, hj, hlt, fun i => (hall i).trans hb.ge⟩

theorem lowest?_spec (heights : Vector K n) (bound : K) :
    (Geometry.lowest? heights bound = none ∧ ∀ j, bound ≤ heights.get j) ∨
      ∃ j, Geometry.lowest? heights bound = some j ∧ heights.get j < bound ∧
        ∀ i, heights.get j ≤ heights.get i := by
  -- the least value is the greatest of the opposite order
  obtain ⟨hall, hfound⟩ := foldl_greatest (V := Kᵒᵈ) id (fun j => heights.get j) bound
  rcases hfound with ⟨hnone, hb⟩ | ⟨j, hj, hb, hlt⟩
  · exact Or.inl ⟨hnone, fun j => (hall j).trans hb.le⟩
  · exact Or.inr ⟨j, hj, hlt, fun i => (hall i).trans hb.ge⟩

theorem get_volumeRatios (s : Simplex K S n m) (d : Vector K n) (j : Fin n) :
    (s.volumeRatios d).get j = |dot (s.inverse.row j) d| := by
  rw [get_eq_coords]
  exact congrFun (coords_ofFn _) j

/-- A vertex is replaced by a point at a sound height over its face, or by one that makes the volume greater than
the bound for it. -/
theorem vertexToReplace?_spec {g : Geometry K n} {d : Vector K n} {reduction : K} {j : Fin n}
    (hj : s.vertexToReplace? g d reduction = some j) :
    (g.leastHeight ≤ (s.volumeRatios d).get j * g.heights.get j ∨
      g.heights.get j ≤ (s.volumeRatios d).get j * g.heights.get j) ∨
    (if reduction ≤ 0 then 1 else 0) < (s.volumeRatios d).get j := by
  unfold vertexToReplace? at hj
  dsimp only at hj
  rcases Option.or_eq_some_iff.mp hj with hfar | ⟨-, hgreatest⟩
  · refine Or.inl (foldl_invariant (P := fun found : Option (Fin n) × K => ∀ i, found.1 = some i →
      g.leastHeight ≤ (s.volumeRatios d).get i * g.heights.get i ∨
        g.heights.get i ≤ (s.volumeRatios d).get i * g.heights.get i) (fun found i hfound => ?_) ?_ j hfar)
    · split_ifs with hheight hmost
      · rintro l ⟨rfl⟩
        exact hheight
      · exact hfound
      · exact hfound
    · rintro i ⟨⟩
  · rcases longest?_spec (s.volumeRatios d) (if reduction ≤ 0 then 1 else 0) with ⟨hnone, -⟩ | ⟨i, hi, hlt, -⟩
    · rw [hnone] at hgreatest
      cases hgreatest
    · rw [hgreatest] at hi
      cases hi
      exact Or.inr hlt

/-- The vertex that a step replaces is one off whose opposite face the step leads. -/
theorem Exact.dot_vertexToReplace_ne (h : s.Exact) (hr : 0 < radius) {d : Vector K n} {reduction : K}
    {j : Fin n} (hj : s.vertexToReplace? (s.geometry radius) d reduction = some j) : dot (s.inverse.row j) d ≠ 0 := by
  suffices hpos : 0 < (s.volumeRatios d).get j by
    rw [get_volumeRatios] at hpos
    exact abs_pos.mp hpos
  have hpos := h.height_pos radius j
  have hleast : 0 < (s.geometry radius).leastHeight := mul_pos (by norm_num) hr
  rcases vertexToReplace?_spec hj with hheight | hratio
  · have hprod : 0 < (s.volumeRatios d).get j * (s.geometry radius).heights.get j :=
      hheight.elim hleast.trans_le hpos.trans_le
    exact pos_of_mul_pos_left hprod hpos.le
  · have hbound : (0 : K) ≤ if reduction ≤ 0 then 1 else 0 := by split_ifs <;> norm_num
    exact hbound.trans_lt hratio

theorem exists_vertexToReplace_of_lt {g : Geometry K n} {d : Vector K n} {reduction : K}
    (hratio : (if reduction ≤ 0 then 1 else 0) < (s.volumeRatios d).get j) :
    ∃ i, s.vertexToReplace? g d reduction = some i := by
  rcases longest?_spec (s.volumeRatios d) (if reduction ≤ 0 then 1 else 0) with ⟨-, hle⟩ | ⟨i, hi, -⟩
  · exact absurd (hle j) hratio.not_ge
  unfold vertexToReplace?
  dsimp only
  rw [hi]
  cases (Fin.foldl n _ ((none : Option (Fin n)), (1.1 * g.radius : K))).1 with
  | none => exact ⟨i, rfl⟩
  | some l => exact ⟨l, rfl⟩

/-- A step that lowers the merit replaces some vertex. -/
theorem Exact.exists_vertexToReplace (h : s.Exact) (g : Geometry K n) {d : Vector K n} (hd : coords d ≠ 0)
    {reduction : K} (hreduction : 0 < reduction) : ∃ j, s.vertexToReplace? g d reduction = some j := by
  obtain ⟨j, hj⟩ := h.exists_dot_ne hd
  refine exists_vertexToReplace_of_lt (j := j) ?_
  rw [if_neg hreduction.not_ge, get_volumeRatios, dot_eq]
  exact abs_pos.mpr hj

end Simplex

end

end TrustSimplex
