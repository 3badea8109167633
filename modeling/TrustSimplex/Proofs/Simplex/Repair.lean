import TrustSimplex.Proofs.Simplex.Inverse

/-!
# The repair of a simplex

A simplex that is not acceptable has a vertex that is too low over its opposite face, or too far from the pole. The
repair moves the worst one to half the radius straight over its face. In exact arithmetic the other edges stay, no
other vertex comes nearer to its own face, and so fewer vertices are left to repair.
-/

namespace TrustSimplex

section
variable {K S : Type} [EuclideanField K] {n m : Nat}

/-! ## The vertex to repair -/

namespace Geometry

variable {g : Geometry K n}

def misshapen (g : Geometry K n) : Finset (Fin n) :=
  {j | g.heights.get j < g.leastHeight ∨ g.greatestLength < g.lengths.get j}

theorem mem_misshapen {j : Fin n} :
    j ∈ g.misshapen ↔ g.heights.get j < g.leastHeight ∨ g.greatestLength < g.lengths.get j := by
  simp [misshapen]

theorem isAcceptable_iff : g.isAcceptable = true ↔ g.misshapen = ∅ := by
  unfold isAcceptable
  rw [Bool.and_eq_true, Vector.all_eq_true, Vector.all_eq_true, Finset.eq_empty_iff_forall_notMem]
  simp only [mem_misshapen, not_or, not_lt, decide_eq_true_iff]
  exact ⟨fun h j => ⟨h.1 j j.isLt, h.2 j j.isLt⟩, fun h => ⟨fun i hi => (h ⟨i, hi⟩).1, fun i hi => (h ⟨i, hi⟩).2⟩⟩

theorem isAcceptable_eq_false {j : Fin n} (hj : j ∈ g.misshapen) : g.isAcceptable = false :=
  Bool.eq_false_iff.mpr fun h => Finset.notMem_empty j (isAcceptable_iff.mp h ▸ hj)

/-- Vertex `j` has the longest edge if one is too long, and else it is the lowest. -/
structure Worst (g : Geometry K n) (j : Fin n) : Prop where
  longest : (∃ i, g.greatestLength < g.lengths.get i) → ∀ i, g.lengths.get i ≤ g.lengths.get j
  lowest : (∀ i, g.lengths.get i ≤ g.greatestLength) → ∀ i, g.heights.get j ≤ g.heights.get i

theorem vertexToRepair?_spec (hradius : 0 < g.radius) :
    (g.misshapen = ∅ ∧ g.vertexToRepair? = none) ∨
      ∃ j ∈ g.misshapen, g.vertexToRepair? = some j ∧ g.Worst j := by
  unfold vertexToRepair?
  by_cases hacceptable : g.isAcceptable = true
  · exact Or.inl ⟨isAcceptable_iff.mp hacceptable, if_pos hacceptable⟩
  refine Or.inr ?_
  rw [if_neg hacceptable]
  rw [isAcceptable_iff, ← ne_eq, ← Finset.nonempty_iff_ne_empty] at hacceptable
  obtain ⟨poor, hpoor⟩ := hacceptable
  rcases Simplex.longest?_spec g.lengths g.greatestLength with ⟨hnone, hlengths⟩ | ⟨j, hj, hlong, hmost⟩
  -- no edge is long, so the vertex in need is low, and the bound of the scan is above it
  · have hlow : g.heights.get poor < g.leastHeight :=
      (mem_misshapen.mp hpoor).resolve_right (hlengths poor).not_gt
    have hbound : g.leastHeight < g.greatestLength := by
      unfold leastHeight greatestLength
      linarith
    rw [hnone, Option.none_or]
    rcases Simplex.lowest?_spec g.heights g.greatestLength with ⟨-, hheights⟩ | ⟨j, hj, -, hleast⟩
    · exact absurd (hheights poor) (hlow.trans hbound).not_ge
    · refine ⟨j, mem_misshapen.mpr (Or.inl ((hleast poor).trans_lt hlow)), hj, ?_, fun _ => hleast⟩
      rintro ⟨i, hi⟩
      exact absurd (hlengths i) hi.not_ge
  · rw [hj, Option.some_or]
    exact ⟨j, mem_misshapen.mpr (Or.inr hlong), rfl, fun _ => hmost, fun hshort => absurd (hshort j) hlong.not_ge⟩

theorem exists_vertexToRepair (hradius : 0 < g.radius) (hpoor : g.isAcceptable = false) :
    ∃ j, g.vertexToRepair? = some j := by
  rcases vertexToRepair?_spec hradius with ⟨hnone, -⟩ | ⟨j, -, hj, -⟩
  · rw [isAcceptable_iff.mpr hnone] at hpoor
    cases hpoor
  · exact ⟨j, hj⟩

end Geometry

namespace Simplex

variable {s : Simplex K S n m} {radius : K} {i j : Fin n}

/-! ## The shape after a move -/

theorem leastHeight_geometry (s : Simplex K S n m) (radius : K) :
    (s.geometry radius).leastHeight = 0.25 * radius := rfl

theorem greatestLength_geometry (s : Simplex K S n m) (radius : K) :
    (s.geometry radius).greatestLength = 2.1 * radius := rfl

/-- The height of the vertex that is moved changes by the factor by which the volume does. -/
theorem get_heights_replace_self (s : Simplex K S n m) (radius : K) (j : Fin n) (d : Vector K n) :
    ((s.replace j d).geometry radius).heights.get j =
      |dot (s.inverse.row j) d| * (s.geometry radius).heights.get j := by
  have hroot : Scalar.sqrt (normSq ((s.replace j d).inverse.row j)) =
      |(dot (s.inverse.row j) d)⁻¹| * Scalar.sqrt (normSq (s.inverse.row j)) := by
    rw [normSq_eq, row_replace, if_pos rfl, smul_dotProduct, dotProduct_smul, smul_eq_mul, smul_eq_mul, ← mul_assoc,
      ← normSq_eq, sqrt_abs_mul _ (normSq_nonneg _)]
  rw [get_heights, get_heights, hroot, abs_inv]
  simp only [one_div, mul_inv, inv_inv]

theorem get_lengths_replace_of_ne (s : Simplex K S n m) (radius : K) (hij : i ≠ j) (d : Vector K n) :
    ((s.replace j d).geometry radius).lengths.get i = (s.geometry radius).lengths.get i := by
  rw [get_lengths, get_lengths, edge_replace, if_neg hij]

/-- What is left of `u` across `v` is no longer than `u`. -/
theorem dotProduct_across_le (u : Fin n → K) {v : Fin n → K} (hv : v ≠ 0) :
    (u - (u ⬝ᵥ v / (v ⬝ᵥ v)) • v) ⬝ᵥ (u - (u ⬝ᵥ v / (v ⬝ᵥ v)) • v) ≤ u ⬝ᵥ u := by
  have hpos := self_dotProduct_pos hv
  have hacross : (u - (u ⬝ᵥ v / (v ⬝ᵥ v)) • v) ⬝ᵥ (u - (u ⬝ᵥ v / (v ⬝ᵥ v)) • v) =
      u ⬝ᵥ u - u ⬝ᵥ v * (u ⬝ᵥ v) / (v ⬝ᵥ v) := by
    simp only [sub_dotProduct, dotProduct_sub, smul_dotProduct, dotProduct_smul, smul_eq_mul,
      dotProduct_comm v u]
    field_simp
    ring
  rw [hacross]
  exact sub_le_self _ (div_nonneg (mul_self_nonneg _) hpos.le)

/-- A vertex that moves straight over its face brings no other nearer to its own. -/
theorem Exact.heights_le_replace (h : s.Exact) (radius : K) {d : Vector K n} {c : K} (hc : c ≠ 0)
    (hd : coords d = c • coords (s.inverse.row j)) (hij : i ≠ j) :
    (s.geometry radius).heights.get i ≤ ((s.replace j d).geometry radius).heights.get i := by
  have hne : dot (s.inverse.row j) d ≠ 0 := by
    rw [dot_eq, hd, dotProduct_smul, smul_eq_mul]
    exact mul_ne_zero hc (self_dotProduct_pos (h.row_ne_zero j)).ne'
  -- the row is projected across the one of the vertex, whatever the scale of the move
  have hrow : coords ((s.replace j d).inverse.row i) = coords (s.inverse.row i) -
      (coords (s.inverse.row i) ⬝ᵥ coords (s.inverse.row j) /
        (coords (s.inverse.row j) ⬝ᵥ coords (s.inverse.row j))) • coords (s.inverse.row j) := by
    rw [row_replace, if_neg hij, dot_eq, dot_eq, hd, dotProduct_smul, dotProduct_smul, smul_eq_mul, smul_eq_mul,
      ← div_eq_mul_inv, mul_div_mul_left _ _ hc]
  have hle : normSq ((s.replace j d).inverse.row i) ≤ normSq (s.inverse.row i) := by
    rw [normSq_eq, normSq_eq, hrow]
    exact dotProduct_across_le _ (h.row_ne_zero j)
  have hpos := (h.replace hne).normSq_row_pos i
  rw [get_heights, get_heights]
  exact one_div_le_one_div_of_le (sqrt_pos hpos) (sqrt_le_sqrt hpos.le hle)

/-! ## The shape after a repair -/

/-- The second simplex is the first with vertex `j` moved to half the radius straight over its face. -/
structure Mended (s t : Simplex K S n m) (radius : K) (j : Fin n) : Prop where
  exact : t.Exact
  height : (t.geometry radius).heights.get j = radius / 2
  length : (t.geometry radius).lengths.get j = radius / 2
  heights_le : ∀ i, i ≠ j → (s.geometry radius).heights.get i ≤ (t.geometry radius).heights.get i
  edge : ∀ i : Fin n, i ≠ j → t.edges.col i = s.edges.col i
  lengths : ∀ i, i ≠ j → (t.geometry radius).lengths.get i = (s.geometry radius).lengths.get i

theorem Exact.mended (h : s.Exact) (hr : 0 < radius) (j : Fin n) (L : Linearization K n m) (penalty : K) :
    s.Mended (s.replace j (s.repairStep (s.geometry radius) j L penalty)) radius j := by
  have hdot := h.dot_repairStep_ne hr j L penalty
  obtain ⟨c, hc, hstep⟩ := s.exists_repairStep_eq (s.geometry radius) j L penalty
  generalize s.repairStep (s.geometry radius) j L penalty = d at hdot hstep ⊢
  have hroot := sqrt_pos (h.normSq_row_pos j)
  have hcross : |c| * Scalar.sqrt (normSq (s.inverse.row j)) = radius / 2 := by
    have hnonneg : 0 ≤ 0.5 * radius * (1 / Scalar.sqrt (normSq (s.inverse.row j))) :=
      mul_nonneg (mul_nonneg (by norm_num) hr.le) (one_div_nonneg.mpr hroot.le)
    rw [hc, get_heights]
    show |0.5 * radius * (1 / Scalar.sqrt (normSq (s.inverse.row j)))| * _ = _
    rw [abs_of_nonneg hnonneg, mul_assoc, one_div, inv_mul_cancel₀ hroot.ne']
    norm_num
    ring
  have hscaled : c ≠ 0 := by
    rintro rfl
    rw [abs_zero, zero_mul] at hcross
    linarith
  refine ⟨h.replace hdot, ?_, ?_, fun i hij => h.heights_le_replace radius hscaled hstep hij,
    fun i hij => by rw [edge_replace, if_neg hij], fun i hij => s.get_lengths_replace_of_ne radius hij d⟩
  · rw [get_heights_replace_self, get_heights, dot_eq, hstep, dotProduct_smul, smul_eq_mul, ← normSq_eq, abs_mul,
      abs_of_nonneg (normSq_nonneg (s.inverse.row j)), ← hcross, mul_assoc]
    congr 1
    rw [mul_one_div, div_eq_iff hroot.ne', sqrt_mul_self (normSq_nonneg _)]
  · rw [get_lengths, edge_replace, if_pos rfl, normSq_eq, hstep, smul_dotProduct, dotProduct_smul, smul_eq_mul,
      smul_eq_mul, ← mul_assoc, ← normSq_eq, sqrt_abs_mul c (normSq_nonneg _), hcross]

theorem Mended.card_misshapen_lt {t : Simplex K S n m} (ht : s.Mended t radius j) (hr : 0 < radius)
    (hj : j ∈ (s.geometry radius).misshapen) :
    (t.geometry radius).misshapen.card < (s.geometry radius).misshapen.card := by
  have hgone : j ∉ (t.geometry radius).misshapen := by
    have hheight : (t.geometry radius).leastHeight ≤ radius / 2 := by
      rw [leastHeight_geometry]
      linarith
    have hlength : radius / 2 ≤ (t.geometry radius).greatestLength := by
      rw [greatestLength_geometry]
      linarith
    rw [Geometry.mem_misshapen, ht.height, ht.length, not_or, not_lt, not_lt]
    exact ⟨hheight, hlength⟩
  refine Finset.card_lt_card ⟨fun i hi => ?_, fun hsub => hgone (hsub hj)⟩
  have hij : i ≠ j := fun e => hgone (e ▸ hi)
  rw [Geometry.mem_misshapen, ht.lengths i hij, leastHeight_geometry, greatestLength_geometry] at hi
  rw [Geometry.mem_misshapen, leastHeight_geometry, greatestLength_geometry]
  exact hi.imp_left (ht.heights_le i hij).trans_lt

/-- There is a vertex to repair exactly when the simplex is not acceptable, and it is the worst. The step of the repair
moves it to half the radius, straight over its face, whatever the linear models and the penalty are; the inverse
stays exact, no other vertex comes nearer to its face, no other edge changes, and fewer vertices break a bound. -/
theorem repair_mends (h : s.Exact) (hr : 0 < radius) :
    ((s.geometry radius).vertexToRepair?.isSome = true ↔ (s.geometry radius).isAcceptable = false) ∧
    ∀ j, (s.geometry radius).vertexToRepair? = some j →
      (s.geometry radius).Worst j ∧
      ∀ (L : Linearization K n m) (penalty : K),
        let t := s.replace j (s.repairStep (s.geometry radius) j L penalty)
        s.Mended t radius j ∧ (t.geometry radius).misshapen.card < (s.geometry radius).misshapen.card := by
  rcases Geometry.vertexToRepair?_spec (g := s.geometry radius) hr with ⟨hnone, hrepair⟩ | ⟨j, hj, hrepair, hworst⟩
  · rw [hrepair, Geometry.isAcceptable_iff.mpr hnone]
    exact ⟨iff_of_false nofun nofun, nofun⟩
  · rw [hrepair, Geometry.isAcceptable_eq_false hj]
    refine ⟨iff_of_true rfl rfl, ?_⟩
    rintro _ ⟨rfl⟩
    refine ⟨hworst, fun L penalty => ?_⟩
    have ht := h.mended hr j L penalty
    exact ⟨ht, ht.card_misshapen_lt hr hj⟩

end Simplex

end

/-! ## A right angle -/

namespace Simplex

noncomputable def rightAngle : Simplex ℝ Unit 2 0 := .start (zeroVec 2) 1 ⟨zeroVec 0, 0, 0, ()⟩

theorem growing_rightAngle : rightAngle.Growing 1 := growing_start _ one_ne_zero _

theorem coords_row_rightAngle (j : Fin 2) : coords (rightAngle.inverse.row j) = Pi.single j 1 := by
  funext k
  rw [coords_row, growing_rightAngle.row_ahead j k (Nat.zero_le _), Pi.single_apply, inv_one]
  simp only [eq_comm]

theorem get_lengths_rightAngle (radius : ℝ) (j : Fin 2) : (rightAngle.geometry radius).lengths.get j = 1 := by
  have hcol : coords (rightAngle.edges.col j) = Pi.single j 1 := by
    funext i
    rw [coords_col, growing_rightAngle.edge_ahead i j (Nat.zero_le _), Pi.single_apply]
  rw [get_lengths, normSq_eq, hcol, single_dotProduct, Pi.single_eq_same]
  exact Real.sqrt_mul_self (by norm_num)

/-- Its edges are four times as long as the radius. -/
theorem repair_mends_rightAngle : rightAngle.Exact ∧ (0 : ℝ) < 1 / 4 ∧ ∃ j : Fin 2,
    (rightAngle.geometry (1 / 4)).vertexToRepair? = some j ∧ (rightAngle.geometry (1 / 4)).Worst j ∧
    ∀ (L : Linearization ℝ 2 0) (penalty : ℝ),
      let t := rightAngle.replace j (rightAngle.repairStep (rightAngle.geometry (1 / 4)) j L penalty)
      rightAngle.Mended t (1 / 4) j ∧
        (t.geometry (1 / 4)).misshapen.card < (rightAngle.geometry (1 / 4)).misshapen.card := by
  have hradius : (0 : ℝ) < 1 / 4 := by norm_num
  obtain ⟨hsome, hmends⟩ := repair_mends growing_rightAngle.exact hradius
  have hlong : (0 : Fin 2) ∈ (rightAngle.geometry (1 / 4)).misshapen := by
    rw [Geometry.mem_misshapen, get_lengths_rightAngle, greatestLength_geometry]
    exact Or.inr (by norm_num)
  obtain ⟨j, hj⟩ := Option.isSome_iff_exists.mp (hsome.mpr (Geometry.isAcceptable_eq_false hlong))
  exact ⟨growing_rightAngle.exact, hradius, j, hj, hmends j hj⟩

end Simplex

end TrustSimplex
