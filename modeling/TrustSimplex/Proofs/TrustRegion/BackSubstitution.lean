import TrustSimplex.Proofs.TrustRegion.Factorization

/-!
# Back substitution

A vector without components past the active columns is a combination of the active gradients. Its
coefficients come out of the triangular factorization from the last position to the first, and the
constraint that gives way to a dependent one is the first whose multiplier would vanish.
-/

namespace TrustSimplex.ActiveSet

section
variable {K : Type} [EuclideanField K] {n m : Nat} {L : Linearization K n m} {s : ActiveSet K n m}

/-! ## Coefficients of a target -/

def substitute (L : Linearization K n m) (s : ActiveSet K n m)
    (found : Vector K n × Vector K (m + 1)) (k : Nat) : Vector K n × Vector K (m + 1) :=
  let coefficient := guardedDot (s.basis.col k) found.1 / s.diagonalAt k
  (if k = 0 then found.1 else subScaled found.1 coefficient (L.gradient (s.constraintAt k)),
    found.2.setIfInBounds k coefficient)

theorem multipliersAt_eq_foldl (target : Vector K n) : s.multipliersAt L target =
    ((descending 0 s.size).foldl (s.substitute L) (target, zeroVec (m + 1))).2 := rfl

/-- What is left of a target is orthogonal to the columns from `low` on, and the rest of it is a
combination of the gradients there. -/
structure Substituted (L : Linearization K n m) (s : ActiveSet K n m) (target : Fin n → K) (low : Nat)
    (found : Vector K n × Vector K (m + 1)) : Prop where
  orthogonal : ∀ j, low ≤ j → s.axis j ⬝ᵥ coords found.1 = 0
  sum : target = coords found.1 + ∑ j ∈ Finset.Ico low s.size, found.2.getD j 0 • s.normal L j

theorem getD_substitute (hm : s.size ≤ m + 1) (found : Vector K n × Vector K (m + 1)) {k : Nat}
    (hk : k < s.size) (j : Nat) :
    (s.substitute L found k).2.getD j 0 =
      if j = k then s.axis k ⬝ᵥ coords found.1 / s.diagonalAt k else found.2.getD j 0 := by
  unfold substitute
  dsimp only
  rw [getD_setIfInBounds, guardedDot_eq]
  by_cases hj : j = k
  · subst hj; rw [if_pos ⟨rfl, by omega⟩, if_pos rfl]; rfl
  · rw [if_neg (by omega), if_neg hj]

theorem sum_substitute (hm : s.size ≤ m + 1) (found : Vector K n × Vector K (m + 1)) {k : Nat}
    (hk : k < s.size) :
    ∑ j ∈ Finset.Ico k s.size, (s.substitute L found k).2.getD j 0 • s.normal L j =
      (s.axis k ⬝ᵥ coords found.1 / s.diagonalAt k) • s.normal L k +
        ∑ j ∈ Finset.Ico (k + 1) s.size, found.2.getD j 0 • s.normal L j := by
  rw [Finset.sum_eq_sum_Ico_succ_bot hk, getD_substitute hm found hk, if_pos rfl]
  congr 1
  refine Finset.sum_congr rfl fun j hj => ?_
  rw [getD_substitute hm found hk, if_neg (by have := (Finset.mem_Ico.mp hj).1; omega)]

theorem Substituted.substitute (h : s.Factored L) {target : Fin n → K} {k : Nat}
    {found : Vector K n × Vector K (m + 1)} (hf : Substituted L s target (k + 1) found)
    (hk : k < s.size) (hk0 : k ≠ 0) : Substituted L s target k (s.substitute L found k) := by
  have hfst : coords (s.substitute L found k).1 = coords found.1 -
      (s.axis k ⬝ᵥ coords found.1 / s.diagonalAt k) • s.normal L k := by
    unfold ActiveSet.substitute
    dsimp only
    rw [if_neg hk0, coords_subScaled, guardedDot_eq]
    rfl
  refine ⟨fun j hj => ?_, ?_⟩
  · rw [hfst, dotProduct_sub, dotProduct_smul, smul_eq_mul]
    by_cases hjk : j = k
    · subst hjk
      rw [h.diagonal j hk, div_mul_cancel₀ _ (h.diagonal_ne j hk), sub_self]
    · rw [hf.orthogonal j (by omega), h.triangular k hk j (by omega), mul_zero, sub_zero]
  · rw [hfst, sum_substitute h.size_le found hk, hf.sum]
    abel

theorem substituted_foldl (h : s.Factored L) {target : Vector K n}
    (ht : ∀ j, s.size ≤ j → s.axis j ⬝ᵥ coords target = 0) : ∀ (count low : Nat), 0 < low →
      low + count = s.size → Substituted L s (coords target) low
        ((descending low s.size).foldl (s.substitute L) (target, zeroVec (m + 1)))
  | 0, low, _, hl => by
    have : low = s.size := by omega
    subst this
    rw [foldl_descending_self]
    exact ⟨ht, by simp⟩
  | count + 1, low, h0, hl => by
    rw [foldl_descending_of_lt _ _ (by omega)]
    exact (substituted_foldl h ht count (low + 1) (by omega) (by omega)).substitute h (by omega)
      (by omega)

theorem Factored.normal_zero (h : s.Factored L) (hs : 0 < s.size) :
    s.normal L 0 = s.diagonalAt 0 • s.axis 0 := by
  have := h.frame.eq_smul (v := s.normal L 0) (k := 0) (by have := h.size_le_vars; omega)
    fun i _ hi => h.triangular 0 hs i (by omega)
  rw [h.diagonal 0 hs] at this
  exact this

/-- A target without components past the active columns is the combination of the active gradients
with the multipliers found for it. -/
theorem Factored.sum_multipliersAt (h : s.Factored L) {target : Vector K n}
    (ht : ∀ j, s.size ≤ j → s.axis j ⬝ᵥ coords target = 0) :
    coords target =
      ∑ j ∈ Finset.range s.size, (s.multipliersAt L target).getD j 0 • s.normal L j := by
  rcases Nat.eq_zero_or_pos s.size with h0 | hpos
  · rw [h.frame.eq_zero fun i _ => ht i (by omega), h0]
    simp
  rw [multipliersAt_eq_foldl, foldl_descending_of_lt _ _ hpos, Finset.range_eq_Ico]
  have hf := substituted_foldl h ht (s.size - 1) 1 (by omega) (by omega)
  rw [sum_substitute h.size_le _ hpos]
  generalize (descending (0 + 1) s.size).foldl (s.substitute L) (target, zeroVec (m + 1)) = found at *
  -- what is left lies along the first column, as the first gradient does
  have hrest := h.frame.eq_smul (v := coords found.1) (k := 0) (by have := h.size_le_vars; omega)
    fun i _ hi => hf.orthogonal i (by omega)
  rw [h.normal_zero hpos, smul_smul, div_mul_cancel₀ _ (h.diagonal_ne 0 hpos), ← hrest]
  exact hf.sum

/-- Two combinations of the active gradients that agree have the same coefficients. -/
theorem Factored.coefficients_unique (h : s.Factored L) {c d : Nat → K}
    (hsum : ∑ k ∈ Finset.range s.size, c k • s.normal L k = ∑ k ∈ Finset.range s.size, d k • s.normal L k)
    {k : Nat} (hk : k < s.size) : c k = d k := by
  -- the column of a position sees its own gradient and those behind it, so the last coefficient is first
  induction hi : s.size - k using Nat.strong_induction_on generalizing k with
  | h i ih =>
    have hbehind : ∀ j, k < j → j < s.size → c j = d j := fun j hj hjs => ih (s.size - j) (by omega) hjs rfl
    have hdot : ∀ e : Nat → K, s.axis k ⬝ᵥ ∑ j ∈ Finset.range s.size, e j • s.normal L j =
        ∑ j ∈ Finset.range s.size, e j * (s.axis k ⬝ᵥ s.normal L j) := fun e => by
      simp only [dotProduct_sum, dotProduct_smul, smul_eq_mul]
    have hzero := sub_eq_zero.mpr (congrArg (s.axis k ⬝ᵥ ·) hsum)
    rw [hdot, hdot, ← Finset.sum_sub_distrib, Finset.sum_eq_single_of_mem k (Finset.mem_range.mpr hk)] at hzero
    · rw [h.diagonal k hk, ← sub_mul] at hzero
      exact sub_eq_zero.mp ((mul_eq_zero.mp hzero).resolve_right (h.diagonal_ne k hk))
    · intro j hj hne
      have hjs := Finset.mem_range.mp hj
      rcases Nat.lt_or_ge j k with hlt | hge
      · rw [h.triangular j hjs k hlt, mul_zero, mul_zero, sub_zero]
      · rw [hbehind j (by omega) hjs, sub_self]

/-- Nothing but zero is orthogonal to the active gradients and to the columns behind them. -/
theorem Factored.eq_zero (h : s.Factored L) {w : Vector K n} (hfree : ∀ j, s.size ≤ j → s.axis j ⬝ᵥ coords w = 0)
    (hactive : ∀ k < s.size, s.normal L k ⬝ᵥ coords w = 0) : coords w = 0 := by
  refine dotProduct_self_eq_zero.mp ?_
  have hsum := congrArg (· ⬝ᵥ coords w) (h.sum_multipliersAt hfree)
  refine hsum.trans ?_
  rw [sum_dotProduct]
  refine Finset.sum_eq_zero fun k hk => ?_
  rw [smul_dotProduct, hactive k (Finset.mem_range.mp hk), smul_zero]

/-! ## A dependent gradient -/

theorem subScaled_zero (v w : Vector K n) : subScaled v 0 w = v := by
  apply coords_injective
  rw [coords_subScaled, zero_smul, sub_zero]

theorem splitOff_eq_substitute (d : Dependence K n m) (k : Nat) :
    ((s.splitOff L d k).rest, (s.splitOff L d k).coefficients) =
      s.substitute L (d.rest, d.coefficients) k := by
  unfold splitOff substitute
  dsimp only
  cases hz : nonzero? (guardedDot (s.basis.col k) d.rest) with
  | none =>
    rw [nonzero?_eq_none_iff.mp hz, zero_div, subScaled_zero, ite_self]
  | some product =>
    obtain ⟨hp, -⟩ := nonzero?_eq_some_iff.mp hz
    rw [hp]

theorem foldl_splitOff_eq (d : Dependence K n m) (ks : List Nat) :
    ((ks.foldl (s.splitOff L) d).rest, (ks.foldl (s.splitOff L) d).coefficients) =
      ks.foldl (s.substitute L) (d.rest, d.coefficients) := by
  induction ks generalizing d with
  | nil => rfl
  | cons k ks ih => rw [List.foldl_cons, List.foldl_cons, ih, splitOff_eq_substitute]

theorem coefficients_dependence (gradient : Vector K n) :
    (s.dependence L gradient).coefficients = s.multipliersAt L gradient := by
  have := foldl_splitOff_eq (s := s) (L := L) ⟨gradient, zeroVec (m + 1), none⟩ (descending 0 s.size)
  exact congrArg Prod.snd this

/-- The ratio test over the positions from `low` on: no constraint but the objective has a positive
coefficient, or the leaving one has the least ratio of multiplier to coefficient. -/
def RatioTest (s : ActiveSet K n m) (low : Nat) (d : Dependence K n m) : Prop :=
  match d.leaving with
  | none => ∀ j, low ≤ j → j < s.size → s.constraintAt j ≠ Fin.last m → d.coefficients.getD j 0 ≤ 0
  | some (position, ratio) =>
    low ≤ position ∧ position < s.size ∧ s.constraintAt position ≠ Fin.last m ∧
      0 < d.coefficients.getD position 0 ∧
      ratio = s.multiplier position / d.coefficients.getD position 0 ∧
      ∀ j, low ≤ j → j < s.size → s.constraintAt j ≠ Fin.last m → 0 < d.coefficients.getD j 0 →
        ratio ≤ s.multiplier j / d.coefficients.getD j 0

theorem val_lt_iff_ne_last (c : Fin (m + 1)) : c.val < m ↔ c ≠ Fin.last m := by
  rw [ne_eq, Fin.ext_iff, Fin.val_last]
  omega

theorem RatioTest.splitOff {d : Dependence K n m} {k : Nat} (h : s.RatioTest (k + 1) d)
    (hm : s.size ≤ m + 1) (hk : k < s.size) : s.RatioTest k (s.splitOff L d k) := by
  have hget : ∀ j, (s.splitOff L d k).coefficients.getD j 0 =
      if j = k then s.axis k ⬝ᵥ coords d.rest / s.diagonalAt k else d.coefficients.getD j 0 := by
    intro j
    rw [← getD_substitute (L := L) hm (d.rest, d.coefficients) hk, ← splitOff_eq_substitute]
  have hsame : ∀ {j}, k + 1 ≤ j → (s.splitOff L d k).coefficients.getD j 0 = d.coefficients.getD j 0 :=
    fun {j} hj => by rw [hget, if_neg (by omega)]
  generalize hc : s.axis k ⬝ᵥ coords d.rest / s.diagonalAt k = c at hget
  have hself : (s.splitOff L d k).coefficients.getD k 0 = c := by rw [hget, if_pos rfl]
  -- either the leaving constraint stays the same, or the one at `k` takes its place
  have hcases : ((s.splitOff L d k).leaving = d.leaving ∧ (c ≤ 0 ∨ s.constraintAt k = Fin.last m ∨
        d.isLeast (s.multiplier k / c) = false)) ∨
      ((s.splitOff L d k).leaving = some (k, s.multiplier k / c) ∧ 0 < c ∧
        s.constraintAt k ≠ Fin.last m ∧ d.isLeast (s.multiplier k / c) = true) := by
    unfold ActiveSet.splitOff
    cases hz : nonzero? (guardedDot (s.basis.col k) d.rest) with
    | none =>
      have := nonzero?_eq_none_iff.mp hz
      rw [guardedDot_eq] at this
      exact Or.inl ⟨rfl, Or.inl (by rw [← hc, axis, this, zero_div])⟩
    | some product =>
      obtain ⟨hp, -⟩ := nonzero?_eq_some_iff.mp hz
      have hcp : product / s.diagonalAt k = c := by rw [← hp, guardedDot_eq, ← hc]; rfl
      dsimp only
      rw [hcp]
      by_cases htest : (0 < c && (s.constraintAt k).val < m && d.isLeast (s.multiplier k / c)) = true
      · rw [if_pos htest]
        simp only [Bool.and_eq_true, decide_eq_true_eq, val_lt_iff_ne_last] at htest
        exact Or.inr ⟨rfl, htest.1.1, htest.1.2, htest.2⟩
      · rw [if_neg htest]
        refine Or.inl ⟨rfl, ?_⟩
        simp only [Bool.and_eq_true, decide_eq_true_eq, val_lt_iff_ne_last] at htest
        by_cases h₁ : 0 < c
        · by_cases h₂ : s.constraintAt k = Fin.last m
          · exact Or.inr (Or.inl h₂)
          · exact Or.inr (Or.inr (by simpa [h₁, h₂] using htest))
        · exact Or.inl (not_lt.mp h₁)
  unfold RatioTest at h ⊢
  rcases hcases with ⟨hl, hkeep⟩ | ⟨hl, hpos, hobj, hleast⟩
  · rw [hl]
    cases hd : d.leaving with
    | none =>
      rw [hd] at h
      refine forall_ge_of_succ (fun _ hobj => ?_) fun j hj hjs hobj => by rw [hsame hj]; exact h j hj hjs hobj
      rw [hself]
      rcases hkeep with hle | hlast | hno
      · exact hle
      · exact absurd hlast hobj
      · rw [Dependence.isLeast, hd] at hno; cases hno
    | some found =>
      obtain ⟨position, ratio⟩ := found
      rw [hd] at h
      obtain ⟨h₁, h₂, h₃, h₄, h₅, h₆⟩ := h
      dsimp only
      refine ⟨by omega, h₂, h₃, by rwa [hsame h₁], by rwa [hsame h₁],
        forall_ge_of_succ (fun _ hobj hp => ?_) fun j hj hjs hobj hp => by
          rw [hsame hj] at hp ⊢; exact h₆ j hj hjs hobj hp⟩
      rw [hself] at hp ⊢
      rcases hkeep with hle | hlast | hno
      · exact absurd hp (not_lt.mpr hle)
      · exact absurd hlast hobj
      · rw [Dependence.isLeast, hd] at hno
        simpa using hno
  · rw [hl]
    refine ⟨Nat.le_refl k, hk, hobj, by rwa [hself], by rw [hself],
      forall_ge_of_succ (fun _ _ _ => by rw [hself]) fun j hj hjs hobj' hp => ?_⟩
    rw [hsame hj] at hp ⊢
    cases hd : d.leaving with
    | none =>
      rw [hd] at h
      exact absurd hp (not_lt.mpr (h j hj hjs hobj'))
    | some found =>
      obtain ⟨position, ratio⟩ := found
      rw [hd] at h
      rw [Dependence.isLeast, hd] at hleast
      have hlt : s.multiplier k / c < ratio := by simpa using hleast
      exact hlt.le.trans (h.2.2.2.2.2 j hj hjs hobj' hp)

theorem ratioTest_foldl (hm : s.size ≤ m + 1) (gradient : Vector K n) : ∀ (count low : Nat),
    low + count = s.size → s.RatioTest low
      ((descending low s.size).foldl (s.splitOff L) ⟨gradient, zeroVec (m + 1), none⟩)
  | 0, low, hl => by
    have : low = s.size := by omega
    subst this
    rw [foldl_descending_self]
    exact fun j hj hjs => absurd hjs (Nat.not_lt.mpr hj)
  | count + 1, low, hl => by
    rw [foldl_descending_of_lt _ _ (by omega)]
    exact (ratioTest_foldl hm gradient count (low + 1) (by omega)).splitOff hm (by omega)

theorem ratioTest_dependence (hm : s.size ≤ m + 1) (gradient : Vector K n) :
    s.RatioTest 0 (s.dependence L gradient) :=
  ratioTest_foldl hm gradient s.size 0 (by omega)

end

end TrustSimplex.ActiveSet
