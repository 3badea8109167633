import TrustSimplex.Proofs.TrustRegion.BackSubstitution

/-!
# The balance of multipliers

The multipliers of an active set certify its step: none is negative, the step is the sum of the active
gradients weighted with them, and the other constraints fall short of the greatest violation by theirs.
Leaving and entering keep the balance, and the clamps of the multipliers at zero change nothing.
-/

namespace TrustSimplex

theorem Linearization.residual_eq {K : Type} [EuclideanField K] {n m : Nat} (L : Linearization K n m)
    (c : Fin (m + 1)) (d : Vector K n) : L.residual c d = L.bounds.get c - L.slope c ⬝ᵥ coords d := by
  rw [residual, dot_eq]
  rfl

namespace ActiveSet

section
variable {K : Type} [EuclideanField K] {n m : Nat} {L : Linearization K n m} {s t : ActiveSet K n m}
  {x : Vector K n} {v : K} {total : Fin n → K}

/-- The active gradients weighted with the multipliers add up to `total`; an active constraint has
residual `v` at `x`, and the residual of another falls short of `v` by its multiplier. -/
structure Balanced (L : Linearization K n m) (s : ActiveSet K n m) (x : Vector K n) (v : K)
    (total : Fin n → K) : Prop where
  factored : s.Factored L
  distinct : ∀ i < m + 1, ∀ j < m + 1, s.constraintAt i = s.constraintAt j → i = j
  nonneg : ∀ k, 0 ≤ s.multiplier k
  sum : total = ∑ k ∈ Finset.range s.size, s.multiplier k • s.normal L k
  tight : ∀ k < s.size, s.constraintAt k ≠ Fin.last m → L.residual (s.constraintAt k) x = v
  slack : ∀ k, s.size ≤ k → k < m + 1 → s.constraintAt k ≠ Fin.last m →
    s.multiplier k = v - L.residual (s.constraintAt k) x

/-! ## Sums over the active positions -/

theorem Factored.axis_dot_sum (h : s.Factored L) (c : Nat → K) {j : Nat} (hj : s.size ≤ j) :
    s.axis j ⬝ᵥ ∑ k ∈ Finset.range s.size, c k • s.normal L k = 0 := by
  rw [dotProduct_sum]
  refine Finset.sum_eq_zero fun k hk => ?_
  have hk := Finset.mem_range.mp hk
  rw [dotProduct_smul, h.triangular k hk j (by omega), smul_zero]

/-- The last axis reads the last coefficient off a combination of the active gradients. -/
theorem Factored.last_dot_sum (h : s.Factored L) (hpos : 0 < s.size) (c : Nat → K) :
    s.axis s.last ⬝ᵥ ∑ k ∈ Finset.range s.size, c k • s.normal L k = c s.last * s.diagonalAt s.last := by
  have hlt := last_lt hpos
  rw [dotProduct_sum, Finset.sum_eq_single_of_mem s.last (Finset.mem_range.mpr hlt)]
  · rw [dotProduct_smul, h.diagonal _ hlt, smul_eq_mul]
  · intro k hk hne
    have hk := Finset.mem_range.mp hk
    rw [dotProduct_smul, h.triangular k hk _ (by unfold last at hne ⊢; omega), smul_zero]

/-! ## Permuted positions -/

theorem sum_normal_permute (σ : Equiv.Perm Nat) (hactive : ∀ j, σ j < s.size ↔ j < s.size)
    (hc : ∀ j, t.constraintAt j = s.constraintAt (σ j)) (c : Nat → K) :
    ∑ j ∈ Finset.range s.size, c (σ j) • t.normal L j = ∑ j ∈ Finset.range s.size, c j • s.normal L j := by
  refine Finset.sum_equiv σ (fun j => ?_) fun j _ => ?_
  · rw [Finset.mem_range, Finset.mem_range, hactive]
  · rw [normal, hc]; rfl

theorem Balanced.permute (h : s.Balanced L x v total) (ht : t.Factored L) (hsize : t.size = s.size)
    (σ : Equiv.Perm Nat) (hactive : ∀ j, σ j < s.size ↔ j < s.size)
    (hall : ∀ j, σ j < m + 1 ↔ j < m + 1) (hc : ∀ j, t.constraintAt j = s.constraintAt (σ j))
    (hm : ∀ j, t.multiplier j = s.multiplier (σ j)) : t.Balanced L x v total := by
  refine ⟨ht, fun i hi j hj e => ?_, fun k => ?_, ?_, fun k hk => ?_, fun k hk hkm => ?_⟩
  · rw [hc, hc] at e
    exact σ.injective (h.distinct _ ((hall i).mpr hi) _ ((hall j).mpr hj) e)
  · rw [hm]; exact h.nonneg _
  · rw [h.sum, hsize, ← sum_normal_permute σ hactive hc]
    exact Finset.sum_congr rfl fun j _ => by rw [hm]
  · rw [hc]
    exact h.tight _ ((hactive k).mpr (by omega))
  · rw [hc, hm]
    have := hactive k
    exact h.slack _ (by omega) ((hall k).mpr hkm)

theorem Balanced.exchange (h : s.Balanced L x v total) {k : Nat} (hk : k + 1 < s.size) :
    (s.exchange L k).Balanced L x v total := by
  have hm := h.factored.size_le
  refine h.permute (h.factored.exchange hk) rfl (Equiv.swap k (k + 1)) (fun j => ?_) (fun j => ?_)
    (fun j => s.constraintAt_exchange (by omega) j) fun j => s.multiplier_exchange (by omega) j
  all_goals rw [Equiv.swap_apply_def]; split_ifs <;> omega

theorem Balanced.moveToEnd (h : s.Balanced L x v total) {k : Nat} (hk : k < s.size) :
    (s.moveToEnd L k).Balanced L x v total := by
  have hm := h.factored.size_le
  have hlast := add_last_sub_lt hk
  exact h.permute (h.factored.moveToEnd hk) (s.size_moveToEnd L k) (cycleFrom k (s.last - k))
    (cycleFrom_lt_iff hlast) (cycleFrom_lt_iff (by omega)) (s.constraintAt_moveToEnd hk hm)
    (s.multiplier_moveToEnd hk hm)

/-! ## Leaving -/

theorem Balanced.dropLast (h : s.Balanced L x v total) (hpos : 0 < s.size)
    (hzero : s.multiplier s.last = 0) (ht : t.Factored L) (hsize : t.size = s.size - 1)
    (hc : t.constraintAt = s.constraintAt) (hm : t.multiplier = s.multiplier) :
    t.Balanced L x v total := by
  have hn : t.normal L = s.normal L := by funext k; rw [normal, hc]; rfl
  have hsucc : s.size = t.size + 1 := by omega
  have hlast : s.last = t.size := by unfold last; omega
  refine ⟨ht, by rw [hc]; exact h.distinct, by rw [hm]; exact h.nonneg, ?_, ?_, ?_⟩
  · rw [h.sum, hsucc, Finset.sum_range_succ, hm, hn, ← hlast, hzero, zero_smul, add_zero]
  · rw [hc]
    exact fun k hk => h.tight k (by omega)
  · rw [hc, hm]
    intro k hk hkm hobj
    by_cases hkl : k = t.size
    · rw [h.tight k (by omega) hobj, sub_self, hkl, ← hlast, hzero]
    · exact h.slack k (by omega) hkm hobj

theorem Balanced.leave (h : s.Balanced L x v total) {k : Nat} (hk : k < s.size)
    (hzero : s.multiplier k = 0) : (s.leave L k).Balanced L x v total := by
  have hm := h.factored.size_le
  refine (h.moveToEnd hk).dropLast (by rw [size_moveToEnd]; omega) ?_ (h.factored.leave hk) rfl rfl rfl
  rw [last_moveToEnd, s.multiplier_moveToEnd hk hm, cycleFrom_last hk, hzero]

/-! ## Entering with a component of its own -/

theorem multiplier_grow {k : Nat} (y : K) (hk : s.size ≤ k) (hkm : k < m + 1)
    (hzero : s.multiplier k = 0) (j : Nat) :
    (s.grow k y).multiplier j = s.multiplier (Equiv.swap k s.size j) := by
  unfold grow
  dsimp only
  rw [multiplier_setMultiplier _ (by omega), multiplier_setMultiplier _ hkm, Equiv.swap_apply_def]
  by_cases hjs : j = s.size
  · subst hjs
    rw [if_pos rfl]
    by_cases hjk : s.size = k
    · rw [if_pos hjk, hjk, hzero]
    · rw [if_neg hjk, if_pos rfl, hzero]
  by_cases hjk : j = k
  · rw [if_neg hjs, if_pos hjk, if_pos hjk]
  · rw [if_neg hjs, if_neg hjk, if_neg hjk, if_neg hjs]; rfl

theorem Balanced.grow (h : s.Balanced L x v total) {k : Nat} {y : K} (hk : s.size ≤ k)
    (hkm : k < m + 1) (hzero : s.multiplier k = 0) (ht : ((s.grow k y).placeLast k).Factored L) :
    ((s.grow k y).placeLast k).Balanced L x v total := by
  have hc := constraintAt_grow (s := s) y hk hkm
  have hm : ∀ j, ((s.grow k y).placeLast k).multiplier j = s.multiplier (Equiv.swap k s.size j) :=
    multiplier_grow y hk hkm hzero
  have hlt : ∀ j < s.size, Equiv.swap k s.size j = j := fun j hj => by
    rw [Equiv.swap_apply_of_ne_of_ne] <;> omega
  refine ⟨ht, fun i hi j hj e => ?_, fun j => ?_, ?_, fun j hj => ?_, fun j hj hjm => ?_⟩
  · rw [hc, hc] at e
    refine (Equiv.swap k s.size).injective (h.distinct _ ?_ _ ?_ e)
    all_goals rw [Equiv.swap_apply_def]; split_ifs <;> omega
  · rw [hm]; exact h.nonneg _
  · show total = ∑ j ∈ Finset.range (s.size + 1), _
    rw [Finset.sum_range_succ, hm, Equiv.swap_apply_right, hzero, zero_smul, add_zero, h.sum]
    refine Finset.sum_congr rfl fun j hj => ?_
    rw [hm, normal, normal, hc, hlt j (Finset.mem_range.mp hj)]
  · rw [hc]
    have hj : j < s.size + 1 := hj
    by_cases hjs : j = s.size
    · subst hjs
      rw [Equiv.swap_apply_right]
      intro hobj
      have := h.slack k hk hkm hobj
      rw [hzero] at this
      exact (sub_eq_zero.mp this.symm).symm
    · rw [hlt j (by omega)]
      exact h.tight j (by omega)
  · rw [hc, hm]
    have hj : s.size + 1 ≤ j := hj
    refine h.slack _ ?_ ?_
    all_goals rw [Equiv.swap_apply_def]; split_ifs <;> omega

/-! ## Entering in the place of another -/

theorem multiplier_shiftMultipliers (hm : s.size ≤ m + 1) {ratio : K} {c : Vector K (m + 1)}
    (hfit : ∀ j < s.size, 0 ≤ s.multiplier j - ratio * c.getD j 0) (j : Nat) :
    (s.shiftMultipliers ratio c).multiplier j =
      if j < s.size then s.multiplier j - ratio * c.getD j 0 else s.multiplier j := by
  unfold shiftMultipliers multiplier
  dsimp only
  rw [getD_eq]
  by_cases hjm : j < m + 1
  · rw [dif_pos hjm, Vector.getElem_ofFn]
    by_cases hj : j < s.size
    · have := hfit j hj
      rw [multiplier, getD_eq, getD_eq, dif_pos hjm, dif_pos hjm] at this
      rw [if_pos hj, if_pos hj, larger_eq_max, getD_eq, getD_eq, dif_pos hjm, dif_pos hjm]
      exact max_eq_right this
    · rw [if_neg hj, if_neg hj, getD_eq, dif_pos hjm]; rfl
  · rw [dif_neg hjm, if_neg (by omega), getD_eq, dif_neg hjm]

theorem shiftMultipliers_zero (h : ∀ k, 0 ≤ s.multiplier k) (c : Vector K (m + 1)) :
    s.shiftMultipliers 0 c = s := by
  have hmult : (Vector.ofFn fun k : Fin (m + 1) =>
      if k.val < s.size then larger 0 (s.multipliers.get k - 0 * c.get k) else s.multipliers.get k) =
      s.multipliers := by
    ext k hk
    have hnonneg := h k
    rw [multiplier, getD_eq, dif_pos hk] at hnonneg
    rw [Vector.getElem_ofFn, larger_eq_max, zero_mul, sub_zero]
    split_ifs
    · exact max_eq_right hnonneg
    · rfl
  unfold ActiveSet.shiftMultipliers
  rw [hmult]

theorem Balanced.shiftMultipliers (h : s.Balanced L x v total) {ratio : K} {c : Vector K (m + 1)}
    (hfit : ∀ j < s.size, 0 ≤ s.multiplier j - ratio * c.getD j 0) :
    (s.shiftMultipliers ratio c).Balanced L x v
      (total - ratio • ∑ j ∈ Finset.range s.size, c.getD j 0 • s.normal L j) := by
  have hm := multiplier_shiftMultipliers h.factored.size_le hfit
  refine ⟨⟨h.factored.size_le_vars, h.factored.size_le, h.factored.frame, h.factored.diagonal,
    h.factored.diagonal_ne, h.factored.triangular⟩, h.distinct, fun j => ?_, ?_, h.tight,
    fun j hj hjm => ?_⟩
  · rw [hm]
    split_ifs with hj
    · exact hfit j hj
    · exact h.nonneg j
  · rw [h.sum, Finset.smul_sum, ← Finset.sum_sub_distrib]
    refine Finset.sum_congr rfl fun j hj => ?_
    have hj : j < s.size := Finset.mem_range.mp hj
    rw [hm, if_pos hj, smul_smul, ← sub_smul]; rfl
  · have hj : s.size ≤ j := hj
    rw [hm, if_neg (Nat.not_lt.mpr hj)]
    exact h.slack j hj hjm

theorem multiplier_supplant (hpos : 0 < s.size) {k : Nat} (own ratio : K) (hk : s.size ≤ k)
    (hkm : k < m + 1) (hlast : s.multiplier s.last = 0) (j : Nat) :
    (s.supplant k own ratio).multiplier j =
      if j = s.last then ratio else s.multiplier (Equiv.swap k s.last j) := by
  show (((s.setDiagonal s.last own).setMultiplier k 0).setMultiplier s.last ratio).multiplier j = _
  rw [multiplier_setMultiplier _ (by unfold last; omega), multiplier_setMultiplier _ hkm]
  by_cases hj : j = s.last
  · rw [if_pos hj, if_pos hj]
  rw [if_neg hj, if_neg hj]
  by_cases hjk : j = k
  · rw [if_pos hjk, hjk, Equiv.swap_apply_left, hlast]
  · rw [if_neg hjk, Equiv.swap_apply_of_ne_of_ne hjk hj]; rfl

theorem Balanced.supplant (h : s.Balanced L x v total) (hpos : 0 < s.size) {k : Nat} {own ratio : K}
    (hk : s.size ≤ k) (hkm : k < m + 1) (hlast : s.multiplier s.last = 0) (hzero : s.multiplier k = 0)
    (hratio : 0 ≤ ratio) (ht : (s.supplant k own ratio).Factored L) :
    (s.supplant k own ratio).Balanced L x v (total + ratio • s.normal L k) := by
  have hc := constraintAt_supplant hpos own ratio hk hkm
  have hm := multiplier_supplant hpos own ratio hk hkm hlast
  have hsucc : s.size = s.last + 1 := by unfold last; omega
  have hlt : ∀ j < s.last, Equiv.swap k s.last j = j := fun j hj => by
    rw [Equiv.swap_apply_of_ne_of_ne] <;> omega
  refine ⟨ht, fun i hi j hj e => ?_, fun j => ?_, ?_, fun j hj => ?_, fun j hj hjm => ?_⟩
  · rw [hc, hc] at e
    refine (Equiv.swap k s.last).injective (h.distinct _ ?_ _ ?_ e)
    all_goals rw [Equiv.swap_apply_def]; split_ifs <;> omega
  · rw [hm]
    split_ifs
    · exact hratio
    · exact h.nonneg _
  · show _ = ∑ j ∈ Finset.range s.size, _
    rw [h.sum, hsucc, Finset.sum_range_succ, Finset.sum_range_succ, hlast, zero_smul, add_zero, hm,
      if_pos rfl]
    congr 1
    · refine Finset.sum_congr rfl fun j hj => ?_
      have hj := Finset.mem_range.mp hj
      rw [hm, if_neg hj.ne, normal, normal, hc, hlt j hj]
    · rw [normal, normal, hc, Equiv.swap_apply_right]
  · rw [hc]
    have hj : j < s.size := hj
    by_cases hjs : j = s.last
    · subst hjs
      rw [Equiv.swap_apply_right]
      intro hobj
      have := h.slack k hk hkm hobj
      rw [hzero] at this
      exact (sub_eq_zero.mp this.symm).symm
    · rw [hlt j (by omega)]
      exact h.tight j hj
  · rw [hc, hm]
    have hj : s.size ≤ j := hj
    rw [if_neg (by omega)]
    by_cases hjk : j = k
    · subst hjk
      rw [Equiv.swap_apply_left]
      intro hobj
      rw [h.tight _ (by omega) hobj, hlast, sub_self]
    · rw [Equiv.swap_apply_of_ne_of_ne hjk (by omega)]
      exact h.slack j hj hjm

/-! ## Entering -/

structure Entered (L : Linearization K n m) (s t : ActiveSet K n m) (k : Nat) : Prop where
  pos : 0 < t.size
  size_le : t.size ≤ k + 1
  entrant : t.constraintAt t.last = s.constraintAt k
  kept : ∀ j < t.last, ∃ i < s.size, t.constraintAt j = s.constraintAt i
  above : ∀ j, k < j → t.constraintAt j = s.constraintAt j
  objective : 0 < s.size → s.constraintAt s.last = Fin.last m →
    0 < t.last ∧ t.constraintAt (t.last - 1) = Fin.last m
  orthogonal : ∀ w : Fin n → K, (∀ j, s.size ≤ j → s.axis j ⬝ᵥ w = 0) →
    ∀ j, t.size ≤ j → t.axis j ⬝ᵥ w = 0

theorem Entered.of_admitted {k : Nat} (h : Admitted s t k)
    (horthogonal : ∀ w : Fin n → K, (∀ j, s.size ≤ j → s.axis j ⬝ᵥ w = 0) →
      ∀ j, t.size ≤ j → t.axis j ⬝ᵥ w = 0) : Entered L s t k :=
  ⟨h.pos, h.size_le, h.entrant, h.kept, h.above, h.objective, horthogonal⟩

theorem Entered.of_grow {k : Nat} {y : K} {B : ColMatrix K n n} {g : Fin n → K} {component : Option K}
    (hB : Aligned s.basis B g s.size component) (hk : s.size ≤ k) (hkm : k < m + 1) :
    Entered L s ((({ s with basis := B } : ActiveSet K n m).grow k y).placeLast k) k := by
  refine .of_admitted ((admitted_grow { s with basis := B } y hk hkm).of_order rfl rfl) fun w hw j hj => ?_
  exact hB.orthogonal w hw j (by have : s.size + 1 ≤ j := hj; omega)

theorem Entered.of_supplant {r : ActiveSet K n m} {k q : Nat} {own ratio : K}
    (hr : r.order = s.order) (hsize : r.size = s.size)
    (horthogonal : ∀ w : Fin n → K, (∀ j, s.size ≤ j → s.axis j ⬝ᵥ w = 0) →
      ∀ j, s.size ≤ j → r.axis j ⬝ᵥ w = 0)
    (hm : s.size ≤ m + 1) (hq : q < s.size) (hobj : s.constraintAt q ≠ Fin.last m) (hk : s.size ≤ k)
    (hkm : k < m + 1) : Entered L s ((r.moveToEnd L q).supplant k own ratio) k := by
  have hq' : q < r.size := by omega
  have hobj' : r.constraintAt q ≠ Fin.last m := by rwa [constraintAt_of_order hr]
  have hadmitted := admitted_supplant (L := L) r own ratio (by omega) hq' hobj' (by omega) hkm
  refine .of_admitted (hadmitted.of_order hr hsize) fun w hw j hj => ?_
  have ht : ((r.moveToEnd L q).supplant k own ratio).size = s.size := (r.size_moveToEnd L q).trans hsize
  rw [ht] at hj
  have haxis : ((r.moveToEnd L q).supplant k own ratio).axis j = r.axis j := axis_moveToEnd r hq' (by omega)
  rw [haxis]
  exact horthogonal w hw j hj

theorem RatioTest.fits {d : Dependence K n m} {q : Nat} {ratio : K} (h : s.RatioTest 0 d)
    (hd : d.leaving = some (q, ratio)) (hmult : ∀ k, 0 ≤ s.multiplier k)
    (hobj : ∀ j < s.size, s.constraintAt j = Fin.last m → d.coefficients.getD j 0 ≤ 0) :
    0 ≤ ratio ∧ ∀ j < s.size, 0 ≤ s.multiplier j - ratio * d.coefficients.getD j 0 := by
  unfold RatioTest at h
  rw [hd] at h
  obtain ⟨-, -, -, hpos, hratio, hleast⟩ := h
  have hratio0 : 0 ≤ ratio := hratio ▸ div_nonneg (hmult q) hpos.le
  refine ⟨hratio0, fun j hj => ?_⟩
  rcases lt_or_ge 0 (d.coefficients.getD j 0) with hc | hc
  · have hne : s.constraintAt j ≠ Fin.last m := fun e => absurd hc (not_lt.mpr (hobj j hj e))
    have := (le_div_iff₀ hc).mp (hleast j (Nat.zero_le j) hj hne hc)
    linarith
  · have := mul_nonpos_of_nonneg_of_nonpos hratio0 hc
    have := hmult j
    linarith

/-- What the leaving constraint held of a dependent gradient remains along the last axis. -/
theorem Factored.last_dot_ne (h : s.Factored L) {q : Nat} (hq : q < s.size) {c : Nat → K} {g : Fin n → K}
    (hg : g = ∑ j ∈ Finset.range s.size, c j • s.normal L j) (hc : c q ≠ 0) :
    (s.moveToEnd L q).axis (s.moveToEnd L q).last ⬝ᵥ g ≠ 0 := by
  have hu := h.moveToEnd hq
  have hsize : (s.moveToEnd L q).size = s.size := s.size_moveToEnd L q
  have hpos : 0 < (s.moveToEnd L q).size := by omega
  rw [hg, ← sum_normal_permute (cycleFrom q (s.last - q)) (cycleFrom_lt_iff (add_last_sub_lt hq))
    (s.constraintAt_moveToEnd hq h.size_le) c, ← hsize,
    hu.last_dot_sum hpos fun j => c (cycleFrom q (s.last - q) j), last_moveToEnd, cycleFrom_last hq]
  exact mul_ne_zero hc (hu.diagonal_ne _ (s.last_moveToEnd L q ▸ last_lt hpos))

theorem Balanced.replace (h : s.Balanced L x v total) {k q : Nat} {ratio own : K} {c : Vector K (m + 1)}
    (hk : s.size ≤ k) (hkm : k < m + 1) (hzero : s.multiplier k = 0) (hq : q < s.size)
    (hratio : 0 ≤ ratio) (hfit : ∀ j < s.size, 0 ≤ s.multiplier j - ratio * c.getD j 0)
    (hleave : s.multiplier q = ratio * c.getD q 0)
    (hg : s.normal L k = ∑ j ∈ Finset.range s.size, c.getD j 0 • s.normal L j)
    (horthogonal : ∀ j, s.size ≤ j → s.axis j ⬝ᵥ s.normal L k = 0)
    (hown : let u := (s.shiftMultipliers ratio c).moveToEnd L q
      u.axis u.last ⬝ᵥ s.normal L k = own) (hne : own ≠ 0) :
    (((s.shiftMultipliers ratio c).moveToEnd L q).supplant k own ratio).Balanced L x v total := by
  have hm := h.factored.size_le
  have hr := h.shiftMultipliers hfit
  have hmult := multiplier_shiftMultipliers hm hfit
  generalize hrr : s.shiftMultipliers ratio c = r at *
  have hsize : r.size = s.size := by rw [← hrr]; rfl
  have haxis : r.axis = s.axis := by rw [← hrr]; rfl
  have hconstraint : r.constraintAt = s.constraintAt := by rw [← hrr]; rfl
  have hqr : q < r.size := by omega
  have hu := hr.moveToEnd hqr
  have hsizeu : (r.moveToEnd L q).size = s.size := by rw [size_moveToEnd, hsize]
  have hlastu : (r.moveToEnd L q).last = r.last := r.last_moveToEnd L q
  have hmultu := r.multiplier_moveToEnd (L := L) hqr (by omega)
  have hout : cycleFrom q (r.last - q) k = k :=
    cycleFrom_of_gt _ ((add_last_sub_lt hqr).trans_le (by omega))
  have hlast : (r.moveToEnd L q).multiplier (r.moveToEnd L q).last = 0 := by
    rw [hlastu, hmultu, cycleFrom_last hqr, hmult, if_pos hq, hleave, sub_self]
  have hzerou : (r.moveToEnd L q).multiplier k = 0 := by
    rw [hmultu, hout, hmult, if_neg (Nat.not_lt.mpr hk), hzero]
  have hnormal : (r.moveToEnd L q).normal L k = s.normal L k := by
    rw [normal, r.constraintAt_moveToEnd hqr (by omega), hout, hconstraint]; rfl
  have ht : ((r.moveToEnd L q).supplant k own ratio).Factored L := by
    refine hu.factored.supplant (by omega) (by omega) hkm hne (by rw [hnormal]; exact hown) fun j hj => ?_
    rw [hnormal, r.axis_moveToEnd hqr (by omega), haxis]
    exact horthogonal j (by omega)
  have := hu.supplant (by omega) (by omega) hkm hlast hzerou hratio ht
  rwa [hnormal, ← hg, sub_add_cancel] at this

/-! ## A dependent entrant -/

section
variable {k q : Nat} {ratio : K} (halign : (s.alignBasis (L.gradient (s.constraintAt k))).2 = none)

theorem ratioTest_dependenceAt (hm : s.size ≤ m + 1) (k : Nat) : s.RatioTest 0 (s.dependenceAt L k) :=
  ratioTest_dependence (s := { s with basis := (s.alignBasis (L.gradient (s.constraintAt k))).1 }) hm _

include halign

theorem Factored.sum_dependenceAt (h : s.Factored L) : s.normal L k =
    ∑ j ∈ Finset.range s.size, (s.dependenceAt L k).coefficients.getD j 0 • s.normal L j := by
  have hB := h.aligned (L.gradient (s.constraintAt k))
  have hsum := (h.withBasis hB).sum_multipliersAt fun j hj => hB.dependent halign j hj
  rw [← coefficients_dependence] at hsum
  exact hsum

theorem Factored.ownComponent_ne (h : s.Factored L) (hleaving : (s.dependenceAt L k).leaving = some (q, ratio)) :
    s.ownComponent L k q ratio ≠ 0 := by
  have hr := h.withBasis (h.aligned (L.gradient (s.constraintAt k)))
  have htest := ratioTest_dependenceAt (L := L) h.size_le k
  rw [RatioTest, hleaving] at htest
  obtain ⟨-, hq, -, hpos, -, -⟩ := htest
  have hshifted : (({ s with basis := (s.alignBasis (L.gradient (s.constraintAt k))).1 } :
      ActiveSet K n m).shiftMultipliers ratio (s.dependenceAt L k).coefficients).Factored L :=
    ⟨hr.size_le_vars, hr.size_le, hr.frame, hr.diagonal, hr.diagonal_ne, hr.triangular⟩
  unfold ownComponent
  rw [dot_eq]
  exact hshifted.last_dot_ne hq (h.sum_dependenceAt halign) hpos.ne'

/-- The multipliers shifted for a dependent entrant do not turn negative, if the objective loses no weight by it. -/
theorem Balanced.fits (h : s.Balanced L x v total) (hleaving : (s.dependenceAt L k).leaving = some (q, ratio))
    (hobj : ∀ j < s.size, s.constraintAt j = Fin.last m →
      j = s.last ∧ 1 / s.diagonalAt s.last * (s.axis s.last ⬝ᵥ s.normal L k) ≤ 0) :
    0 ≤ ratio ∧ ∀ j < s.size, 0 ≤ s.multiplier j - ratio * (s.dependenceAt L k).coefficients.getD j 0 := by
  apply (ratioTest_dependenceAt h.factored.size_le k).fits hleaving h.nonneg
  intro j hj hlast
  obtain ⟨rfl, hle⟩ := hobj j hj hlast
  have hne := h.factored.diagonal_ne _ hj
  have hdot := h.factored.last_dot_sum (by omega) fun j => (s.dependenceAt L k).coefficients.getD j 0
  rw [← h.factored.sum_dependenceAt halign] at hdot
  have hread : 1 / s.diagonalAt s.last * ((s.dependenceAt L k).coefficients.getD s.last 0 * s.diagonalAt s.last) =
      (s.dependenceAt L k).coefficients.getD s.last 0 := by field_simp
  rwa [hdot, hread] at hle

end

/-- The gradient at position `k` is a combination of the active ones by which none can leave. -/
def Locked (L : Linearization K n m) (s : ActiveSet K n m) (k : Nat) : Prop :=
  ∃ c : Nat → K, s.normal L k = ∑ j ∈ Finset.range s.size, c j • s.normal L j ∧
    ∀ j < s.size, s.constraintAt j ≠ Fin.last m → c j ≤ 0

/-- A constraint without multiplier enters in balance, or its gradient is locked. The objective must
be the last of the active constraints and lose no weight by it. -/
theorem Balanced.enter (h : s.Balanced L x v total) {k : Nat} (hk : s.size ≤ k) (hkm : k < m + 1)
    (hzero : s.multiplier k = 0)
    (hobj : ∀ j < s.size, s.constraintAt j = Fin.last m →
      j = s.last ∧ 1 / s.diagonalAt s.last * (s.axis s.last ⬝ᵥ s.normal L k) ≤ 0) :
    (∃ t, s.enter L k = (true, t) ∧ t.Balanced L x v total ∧ Entered L s t k) ∨
      ∃ B, s.enter L k = (false, { s with basis := B }) ∧
        ({ s with basis := B } : ActiveSet K n m).Balanced L x v total ∧ s.Locked L k := by
  have hm := h.factored.size_le
  have hB := h.factored.aligned (L.gradient (s.constraintAt k))
  have htest := ratioTest_dependenceAt (L := L) hm k
  have hsum := h.factored.sum_dependenceAt (k := k)
  have hfits := fun halign q ratio (hleaving : (s.dependenceAt L k).leaving = some (q, ratio)) =>
    h.fits halign hleaving hobj
  have hown := fun halign q ratio (hleaving : (s.dependenceAt L k).leaving = some (q, ratio)) =>
    h.factored.ownComponent_ne halign hleaving
  unfold ownComponent at hown
  unfold dependenceAt at htest hsum hfits hown
  unfold ActiveSet.enter
  dsimp only at htest hsum hfits hown ⊢
  generalize s.alignBasis (L.gradient (s.constraintAt k)) = found at *
  obtain ⟨B, component⟩ := found
  dsimp only at *
  have hr : ({ s with basis := B } : ActiveSet K n m).Balanced L x v total :=
    ⟨h.factored.withBasis hB, h.distinct, h.nonneg, h.sum, h.tight, h.slack⟩
  cases component with
  | some y =>
    obtain ⟨hn, hy, hown, hrest⟩ := hB.independent y rfl
    exact Or.inl ⟨_, rfl, hr.grow hk hkm hzero (hr.factored.grow hk hkm hn hy hown hrest),
      Entered.of_grow hB hk hkm⟩
  | none =>
    have hsum := hsum rfl
    generalize ({ s with basis := B } : ActiveSet K n m).dependence L (L.gradient (s.constraintAt k)) = d at *
    cases hd : d.leaving with
    -- no coefficient is positive, so that no weight can be shifted onto the new gradient
    | none =>
      rw [RatioTest, hd] at htest
      exact Or.inr ⟨B, rfl, hr, fun j => d.coefficients.getD j 0, hsum, fun j hj => htest j (Nat.zero_le j) hj⟩
    -- the entrant keeps a component once the other has left
    | some leaving =>
      obtain ⟨q, ratio⟩ := leaving
      obtain ⟨hratio, hfit⟩ := hfits rfl q ratio hd
      have hne := hown rfl q ratio hd
      rw [RatioTest, hd] at htest
      obtain ⟨-, hq, hleaves, hpos, hleast, -⟩ := htest
      dsimp only
      generalize hown' : dot ((({ s with basis := B } : ActiveSet K n m).shiftMultipliers ratio
        d.coefficients).moveToEnd L q |>.basis.col _) (L.gradient (s.constraintAt k)) = own at hne ⊢
      rw [nonzero?_eq_some_iff.mpr ⟨rfl, hne⟩]
      rw [dot_eq] at hown'
      refine Or.inl ⟨_, rfl, ?_, Entered.of_supplant rfl rfl hB.orthogonal hm hq hleaves hk hkm⟩
      have hleave := ((eq_div_iff hpos.ne').mp hleast).symm
      exact hr.replace hk hkm hzero hq hratio hfit hleave hsum (hB.dependent rfl) hown' hne

end

end ActiveSet

end TrustSimplex
