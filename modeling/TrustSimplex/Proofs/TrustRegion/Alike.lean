import TrustSimplex.Proofs.Rescaling
import TrustSimplex.Proofs.TrustRegion.Balance

/-!
# Active sets in other units

In rescaled models the same constraints are active in the same order with the same basis. A plane rotation, the
alignment of the basis with a gradient and the ratio test divide quantities of one unit by each other, so an
exchange, an entry and a removal keep two such active sets alike.
-/

namespace TrustSimplex

section
variable {K : Type} [EuclideanField K] {n m : Nat} {u : Rescaling K n} {L L' : Linearization K n m}

/-! ## Rescaled models -/

/-- The second models are the first in other units. The bound of the objective depends on its origin. -/
structure Linearization.Rescaled (u : Rescaling K n) (L L' : Linearization K n m) : Prop where
  gradient : ∀ c, L'.gradient c = scaleVec (u.slope c) (L.gradient c)
  bound : ∀ c, c ≠ Fin.last m → L'.bounds.get c = u.violation * L.bounds.get c

namespace Linearization.Rescaled

theorem slope (h : Rescaled u L L') (c : Fin (m + 1)) : L'.slope c = u.slope c • L.slope c := by
  unfold Linearization.slope
  rw [h.gradient, coords_scaleVec]

theorem dot (h : Rescaled u L L') (c : Fin (m + 1)) (x : Vector K n) :
    dot (L'.gradient c) (scaleVec u.length x) = u.unit c * dot (L.gradient c) x := by
  rw [h.gradient, dot_scaleVec, u.slope_mul_length]

theorem residual (h : Rescaled u L L') {c : Fin (m + 1)} (hc : c ≠ Fin.last m) (x : Vector K n) :
    L'.residual c (scaleVec u.length x) = u.violation * L.residual c x := by
  unfold Linearization.residual
  rw [h.dot, h.bound c hc, u.unit_of_ne hc, mul_sub]

theorem violation (h : Rescaled u L L') (x : Vector K n) :
    L'.violation (scaleVec u.length x) = u.violation * L.violation x := by
  unfold Linearization.violation
  simp only [h.residual (Fin.castSucc_lt_last _).ne]
  exact foldl_larger_mul u.violation_pos.le _

end Linearization.Rescaled

/-! ## Active sets -/

theorem nonzero?_mul {c : K} (hc : c ≠ 0) (x : K) : nonzero? (c * x) = (nonzero? x).map (c * ·) := by
  unfold nonzero?
  by_cases hx : x = 0
  · subst hx
    rw [mul_zero, beq_self_eq_true]
    rfl
  · rw [if_neg (by rw [beq_iff_eq]; exact mul_ne_zero hc hx), if_neg (by rwa [beq_iff_eq])]
    rfl

namespace ActiveSet

structure Alike (s t : ActiveSet K n m) : Prop where
  basis : t.basis = s.basis
  order : t.order = s.order
  size : t.size = s.size

namespace Alike

variable {s t : ActiveSet K n m}

omit [EuclideanField K] in
theorem constraintAt (h : Alike s t) (k : Nat) : t.constraintAt k = s.constraintAt k := by
  unfold ActiveSet.constraintAt
  rw [h.order]

theorem axis (h : Alike s t) (k : Nat) : t.axis k = s.axis k := by
  unfold ActiveSet.axis
  rw [h.basis]

omit [EuclideanField K] in
theorem last (h : Alike s t) : t.last = s.last := congrArg (· - 1) h.size

theorem normal (h : Alike s t) (hL : L.Rescaled u L') (k : Nat) :
    t.normal L' k = u.slope (s.constraintAt k) • s.normal L k := by
  unfold ActiveSet.normal
  rw [h.constraintAt, hL.slope]

theorem diagonalAt (h : Alike s t) (hL : L.Rescaled u L') (hs : s.Factored L) (ht : t.Factored L') {k : Nat}
    (hk : k < s.size) : t.diagonalAt k = u.slope (s.constraintAt k) * s.diagonalAt k := by
  rw [← hs.diagonal k hk, ← ht.diagonal k (h.size ▸ hk), h.axis, h.normal hL, dotProduct_smul, smul_eq_mul]

/-! ### Exchanges -/

theorem exchange (h : Alike s t) (hL : L.Rescaled u L') (hs : s.Factored L) (ht : t.Factored L') {k : Nat}
    (hk : k + 1 < s.size) : Alike (s.exchange L k) (t.exchange L' k) := by
  have hslope := u.slope_pos (s.constraintAt (k + 1))
  have hown := h.diagonalAt hL hs ht hk
  have hproduct : dot (t.basis.col k) (L'.gradient (t.constraintAt (k + 1))) =
      u.slope (s.constraintAt (k + 1)) * dot (s.basis.col k) (L.gradient (s.constraintAt (k + 1))) := by
    rw [h.basis, h.constraintAt, hL.gradient, dot_scaleVec_right]
  refine ⟨?_, ?_, h.size⟩
  · unfold ActiveSet.exchange
    dsimp only
    rw [hproduct, hown]
    generalize dot (s.basis.col k) (L.gradient (s.constraintAt (k + 1))) = product
    generalize s.diagonalAt (k + 1) = own
    generalize u.slope (s.constraintAt (k + 1)) = slope at hslope
    rw [hypotenuse_mul hslope.le, mul_div_mul_left _ _ hslope.ne', mul_div_mul_left _ _ hslope.ne', h.basis]
  · show t.order.swapIfInBounds _ _ = s.order.swapIfInBounds _ _
    rw [h.order]

theorem foldl_exchange (hL : L.Rescaled u L') : ∀ (count : Nat) {k : Nat} {s t : ActiveSet K n m}, Alike s t →
    s.Factored L → t.Factored L' → k + count < s.size →
    Alike ((List.range' k count).foldl (ActiveSet.exchange L) s)
      ((List.range' k count).foldl (ActiveSet.exchange L') t)
  | 0, _, _, _, h, _, _, _ => h
  | count + 1, k, s, t, h, hs, ht, hk => by
    rw [List.range'_succ, List.foldl_cons, List.foldl_cons]
    refine foldl_exchange hL count (h.exchange hL hs ht (by omega)) (hs.exchange (by omega))
      (ht.exchange (by rw [h.size]; omega)) ?_
    rw [size_exchange]
    omega

theorem moveToEnd (h : Alike s t) (hL : L.Rescaled u L') (hs : s.Factored L) (ht : t.Factored L') {k : Nat}
    (hk : k < s.size) : Alike (s.moveToEnd L k) (t.moveToEnd L' k) := by
  unfold ActiveSet.moveToEnd
  rw [h.last]
  exact foldl_exchange hL _ h hs ht (add_last_sub_lt hk)

theorem leave (h : Alike s t) (hL : L.Rescaled u L') (hs : s.Factored L) (ht : t.Factored L') {k : Nat}
    (hk : k < s.size) : Alike (s.leave L k) (t.leave L' k) := by
  have hend := h.moveToEnd hL hs ht hk
  exact ⟨hend.basis, hend.order, congrArg (· - 1) hend.size⟩

omit [EuclideanField K] in
theorem placeLast (h : Alike s t) (k : Nat) : Alike (s.placeLast k) (t.placeLast k) := by
  refine ⟨h.basis, ?_, h.size⟩
  unfold ActiveSet.placeLast
  rw [h.order, h.last, h.constraintAt, h.constraintAt]

theorem supplant (h : Alike s t) (k : Nat) (own own' ratio ratio' : K) :
    Alike (s.supplant k own ratio) (t.supplant k own' ratio') := by
  have hset : Alike (((s.setDiagonal s.last own).setMultiplier k 0).setMultiplier s.last ratio)
      (((t.setDiagonal t.last own').setMultiplier k 0).setMultiplier t.last ratio') := ⟨h.basis, h.order, h.size⟩
  exact hset.placeLast k

end Alike

/-! ### Aligning the basis -/

theorem absorb_scaleVec {c : K} (hc : 0 < c) (g : Vector K n) (found : ColMatrix K n n × Option K) (k : Nat) :
    absorb (scaleVec c g) (found.1, found.2.map (c * ·)) k =
      ((absorb g found k).1, (absorb g found k).2.map (c * ·)) := by
  obtain ⟨basis, component⟩ := found
  unfold absorb
  dsimp only
  rw [guardedDot_scaleVec_right]
  generalize guardedDot (basis.col k) g = product
  cases component with
  | none => rw [Option.map_none, nonzero?_mul hc.ne']
  | some rest =>
    rw [Option.map_some]
    dsimp only
    rw [hypotenuse_mul hc.le, mul_div_mul_left _ _ hc.ne', mul_div_mul_left _ _ hc.ne', nonzero?_mul hc.ne']

theorem foldl_absorb_scaleVec {c : K} (hc : 0 < c) (g : Vector K n) (found : ColMatrix K n n × Option K)
    (ks : List Nat) : ks.foldl (absorb (scaleVec c g)) (found.1, found.2.map (c * ·)) =
      ((ks.foldl (absorb g) found).1, (ks.foldl (absorb g) found).2.map (c * ·)) := by
  induction ks generalizing found with
  | nil => rfl
  | cons k ks ih => rw [List.foldl_cons, List.foldl_cons, absorb_scaleVec hc, ih]

theorem Alike.alignBasis {s t : ActiveSet K n m} (h : Alike s t) {c : K} (hc : 0 < c) (g : Vector K n) :
    t.alignBasis (scaleVec c g) = ((s.alignBasis g).1, (s.alignBasis g).2.map (c * ·)) := by
  unfold ActiveSet.alignBasis
  rw [h.size, h.basis]
  exact foldl_absorb_scaleVec hc g (s.basis, none) _

/-! ### Entering -/

structure Dependence.Rescaled (u : Rescaling K n) (e : Fin (m + 1)) (d d' : Dependence K n m) : Prop where
  rest : d'.rest = scaleVec (u.slope e) d.rest
  leaving : d'.leaving = d.leaving.map fun found => (found.1, u.weight e * found.2)

section
variable {s t : ActiveSet K n m} {e : Fin (m + 1)} {d d' : Dependence K n m}

theorem Dependence.Rescaled.isLeast (h : Rescaled u e d d') (ratio : K) :
    d'.isLeast (u.weight e * ratio) = d.isLeast ratio := by
  unfold Dependence.isLeast
  rw [h.leaving]
  cases d.leaving with
  | none => rfl
  | some found => exact decide_eq_decide.mpr (mul_lt_mul_iff_right₀ (u.weight_pos e))

theorem Dependence.Rescaled.splitOff (hd : Rescaled u e d d') (h : Alike s t) (hL : L.Rescaled u L')
    (hs : s.Factored L) (ht : t.Factored L') {k : Nat} (hk : k < s.size)
    (hmult : t.multiplier k = u.weight (s.constraintAt k) * s.multiplier k) :
    Rescaled u e (s.splitOff L d k) (t.splitOff L' d' k) := by
  have hproduct : guardedDot (t.basis.col k) d'.rest = u.slope e * guardedDot (s.basis.col k) d.rest := by
    rw [h.basis, hd.rest, guardedDot_scaleVec_right]
  have hdiagonal := h.diagonalAt hL hs ht hk
  have hown := u.slope_pos (s.constraintAt k)
  have hslope := u.slope_pos e
  unfold ActiveSet.splitOff
  rw [hproduct, nonzero?_mul hslope.ne']
  cases nonzero? (guardedDot (s.basis.col k) d.rest) with
  | none => exact ⟨hd.rest, hd.leaving⟩
  | some product =>
    have hcoefficient : u.slope e * product / t.diagonalAt k =
        u.slope e / u.slope (s.constraintAt k) * (product / s.diagonalAt k) := by
      rw [hdiagonal, mul_div_mul_comm]
    have hratio : ∀ c : K, t.multiplier k / (u.slope e / u.slope (s.constraintAt k) * c) =
        u.weight e * (s.multiplier k / c) := fun c => by
      rw [hmult]
      unfold Rescaling.weight
      field_simp
    rw [Option.map_some]
    dsimp only
    rw [hcoefficient, hratio, h.constraintAt, hd.isLeast]
    generalize product / s.diagonalAt k = c
    refine ⟨?_, ?_⟩
    · dsimp only
      split
      · exact hd.rest
      · apply coords_injective
        rw [hd.rest, hL.gradient]
        simp only [coords_subScaled, coords_scaleVec, smul_sub, smul_smul]
        congr 2
        field_simp
    · dsimp only
      simp only [mul_pos_iff_of_pos_left (div_pos hslope hown)]
      rw [hd.leaving]
      split <;> rfl

theorem Alike.dependence (h : Alike s t) (hL : L.Rescaled u L') (hs : s.Factored L) (ht : t.Factored L')
    (hmult : ∀ k < s.size, t.multiplier k = u.weight (s.constraintAt k) * s.multiplier k) (e : Fin (m + 1)) :
    Dependence.Rescaled u e (s.dependence L (L.gradient e)) (t.dependence L' (L'.gradient e)) := by
  unfold ActiveSet.dependence
  rw [h.size]
  have hall : ∀ k ∈ descending 0 s.size, k < s.size := fun k hk => by
    simp only [descending, List.mem_reverse, List.mem_range'_1] at hk
    omega
  have hstart : Dependence.Rescaled u e ⟨L.gradient e, zeroVec (m + 1), none⟩
      ⟨L'.gradient e, zeroVec (m + 1), none⟩ := ⟨hL.gradient e, rfl⟩
  generalize descending 0 s.size = ks at hall
  generalize (⟨L.gradient e, _, none⟩ : Dependence K n m) = d at hstart ⊢
  generalize (⟨L'.gradient e, _, none⟩ : Dependence K n m) = d' at hstart ⊢
  induction ks generalizing d d' with
  | nil => exact hstart
  | cons k ks ih =>
    rw [List.foldl_cons, List.foldl_cons]
    have hk : k < s.size := hall k (List.mem_cons_self)
    exact ih (fun j hj => hall j (List.mem_cons_of_mem k hj)) _ _ (hstart.splitOff h hL hs ht hk (hmult k hk))

theorem Factored.withMultipliers (h : s.Factored L) (multipliers : Vector K (m + 1)) :
    ({ s with multipliers } : ActiveSet K n m).Factored L :=
  ⟨h.size_le_vars, h.size_le, h.frame, h.diagonal, h.diagonal_ne, h.triangular⟩

/-- A constraint enters or is refused in other units as it is in the first. -/
theorem Alike.enter (h : Alike s t) (hL : L.Rescaled u L') (hs : s.Factored L) (ht : t.Factored L')
    (hmult : ∀ k < s.size, t.multiplier k = u.weight (s.constraintAt k) * s.multiplier k) (k : Nat) :
    (t.enter L' k).1 = (s.enter L k).1 ∧ Alike (s.enter L k).2 (t.enter L' k).2 := by
  have hslope := u.slope_pos (s.constraintAt k)
  have hB := hs.aligned (L.gradient (s.constraintAt k))
  have hB' := ht.aligned (L'.gradient (s.constraintAt k))
  have halign := h.alignBasis hslope (L.gradient (s.constraintAt k))
  rw [← hL.gradient] at halign
  rw [halign, h.size] at hB'
  unfold ActiveSet.enter
  rw [h.constraintAt]
  dsimp only
  rw [halign]
  generalize s.alignBasis (L.gradient (s.constraintAt k)) = found at hB hB' ⊢
  obtain ⟨B, component⟩ := found
  dsimp only at hB hB' ⊢
  have hr : ({ s with basis := B } : ActiveSet K n m).Factored L := hs.withBasis hB
  have hr' : ({ t with basis := B } : ActiveSet K n m).Factored L' := ht.withBasis (h.size ▸ hB')
  have hsame : Alike ({ s with basis := B } : ActiveSet K n m) { t with basis := B } := ⟨rfl, h.order, h.size⟩
  cases component with
  | some x =>
    have hgrown : Alike (({ s with basis := B } : ActiveSet K n m).grow k x)
        (({ t with basis := B } : ActiveSet K n m).grow k (u.slope (s.constraintAt k) * x)) :=
      ⟨rfl, h.order, congrArg (· + 1) h.size⟩
    exact ⟨rfl, hgrown.placeLast k⟩
  | none =>
    have hdep := hsame.dependence hL hr hr' hmult (s.constraintAt k)
    have htest := ratioTest_dependence (L := L) hr.size_le (L.gradient (s.constraintAt k))
    rw [Option.map_none]
    dsimp only
    generalize ({ s with basis := B } : ActiveSet K n m).dependence L (L.gradient (s.constraintAt k)) = d
      at hdep htest ⊢
    generalize ({ t with basis := B } : ActiveSet K n m).dependence L' (L'.gradient (s.constraintAt k)) = d'
      at hdep ⊢
    rw [hdep.leaving]
    unfold RatioTest at htest
    cases hd : d.leaving with
    | none => exact ⟨rfl, hsame⟩
    | some leaving =>
      obtain ⟨q, ratio⟩ := leaving
      rw [hd] at htest
      have hq : q < s.size := htest.2.1
      have hshift : Alike (({ s with basis := B } : ActiveSet K n m).shiftMultipliers ratio d.coefficients)
          (({ t with basis := B } : ActiveSet K n m).shiftMultipliers
            (u.weight (s.constraintAt k) * ratio) d'.coefficients) := ⟨rfl, h.order, h.size⟩
      have hend := hshift.moveToEnd hL (hr.withMultipliers _) (hr'.withMultipliers _) hq
      rw [Option.map_some]
      dsimp only
      generalize (({ s with basis := B } : ActiveSet K n m).shiftMultipliers _ _).moveToEnd L q = r at hend ⊢
      generalize (({ t with basis := B } : ActiveSet K n m).shiftMultipliers _ _).moveToEnd L' q = r' at hend ⊢
      have hown : nonzero? (dot (r'.basis.col r'.last) (L'.gradient (s.constraintAt k))) =
          (nonzero? (dot (r.basis.col r.last) (L.gradient (s.constraintAt k)))).map
            (u.slope (s.constraintAt k) * ·) := by
        rw [hend.basis, hend.last, hL.gradient, dot_scaleVec_right, nonzero?_mul hslope.ne']
      rw [hown]
      cases nonzero? (dot (r.basis.col r.last) (L.gradient (s.constraintAt k))) with
      | none => exact ⟨rfl, hend⟩
      | some own => exact ⟨rfl, hend.supplant k own _ ratio _⟩

/-- The coefficients of a step along the active gradients have the units of the multipliers. -/
theorem Alike.coefficients (h : Alike s t) (hL : L.Rescaled u L') (hs : s.Factored L) {x : Fin n → K}
    {c c' : Nat → K} (hx : x = ∑ k ∈ Finset.range s.size, c k • s.normal L k)
    (hx' : u.length • x = ∑ k ∈ Finset.range t.size, c' k • t.normal L' k) {k : Nat} (hk : k < s.size) :
    c' k = u.weight (s.constraintAt k) * c k := by
  have hsum : ∑ k ∈ Finset.range s.size, (c' k * u.slope (s.constraintAt k)) • s.normal L k =
      ∑ k ∈ Finset.range s.size, (u.length * c k) • s.normal L k := by
    simp only [mul_smul, ← Finset.smul_sum]
    rw [← hx, hx', h.size]
    exact Finset.sum_congr rfl fun k _ => by rw [h.normal hL]
  have hcoefficient := hs.coefficients_unique hsum hk
  rw [← u.weight_mul_slope (s.constraintAt k), mul_right_comm] at hcoefficient
  exact mul_right_cancel₀ (u.slope_pos _).ne' hcoefficient

end

end ActiveSet

end

end TrustSimplex
