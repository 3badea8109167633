import TrustSimplex.Proofs.TrustRegion.Arrangement
import TrustSimplex.Proofs.TrustRegion.Passes

/-!
# Optimality of the step

In the ball no step has a smaller greatest violation than the one that is found, unless the first stage
gives up by its counter; and a full step has the best objective among those no more violated.
-/

namespace TrustSimplex

section
variable {K : Type} [EuclideanField K] {n m : Nat} {L : Linearization K n m} {radius : K}

/-! ## The first pass -/

namespace Linearization

theorem mostViolated_spec (L : Linearization K n m) :
    0 ≤ L.mostViolated.2 ∧ (∀ k : Fin m, L.bounds.get k.castSucc ≤ L.mostViolated.2) ∧
      ((L.mostViolated.1 = none ∧ L.mostViolated.2 = 0) ∨
        ∃ k : Fin m, L.mostViolated.1 = some k ∧ L.bounds.get k.castSucc = L.mostViolated.2) := by
  obtain ⟨hall, hfound⟩ := foldl_greatest id (fun k : Fin m => L.bounds.get k.castSucc) 0
  rcases hfound with ⟨hnone, hzero⟩ | ⟨k, hk, hb, hpos⟩
  · exact ⟨hzero.ge, hall, Or.inl ⟨hnone, hzero⟩⟩
  · exact ⟨hpos.le.trans_eq hb, hall, Or.inr ⟨k, hk, hb⟩⟩

theorem residual_zeroVec (c : Fin (m + 1)) : L.residual c (zeroVec n) = L.bounds.get c := by
  rw [residual_eq, coords_zeroVec, dotProduct_zero, sub_zero]

theorem violation_firstDraft_le : L.firstDraft.violation ≤ L.violation (zeroVec n) := by
  rcases L.mostViolated_spec.2.2 with ⟨-, hzero⟩ | ⟨k, -, hk⟩
  · exact hzero.le.trans (L.violation_nonneg _)
  · refine hk.ge.trans ?_
    rw [← residual_zeroVec]
    exact L.residual_le_violation _ (Fin.castSucc_lt_last k).ne

theorem multiplier_firstDraft {k : Nat} (hk : k < m + 1) : L.firstDraft.active.multiplier k =
    if (⟨k, hk⟩ : Fin (m + 1)) = Fin.last m then 0 else L.mostViolated.2 - L.bounds.get ⟨k, hk⟩ := by
  show (Vector.ofFn _).getD k 0 = _
  rw [getD_eq, dif_pos hk, Vector.getElem_ofFn]

theorem isFrame_identity : IsFrame fun j => coords ((ColMatrix.identity n (1 : K)).col j) := by
  intro i hi j hj
  have hcol : ∀ {k : Nat} (hk : k < n), coords ((ColMatrix.identity n (1 : K)).col k) =
      Pi.single ⟨k, hk⟩ 1 := fun {k} hk => by
    funext l
    rw [coords_col, ColMatrix.entry_identity n 1 l.isLt hk, Pi.single_apply]
    simp only [Fin.ext_iff]
  dsimp only
  rw [hcol hi, hcol hj, single_dotProduct, one_mul, Pi.single_apply]
  simp only [Fin.mk.injEq]

theorem sound_firstDraft (L : Linearization K n m) : L.firstDraft.Sound L := by
  obtain ⟨hnonneg, hall, -⟩ := L.mostViolated_spec
  have hsize : L.firstDraft.active.size = 0 := rfl
  refine ⟨⟨⟨Nat.zero_le n, Nat.zero_le _, isFrame_identity, ?_, ?_, ?_⟩, L.arranged_firstDraft.distinct,
    fun k => ?_, ?_, ?_, fun k _ hk hobj => ?_⟩, hnonneg⟩
  · rw [hsize]; exact nofun
  · rw [hsize]; exact nofun
  · rw [hsize]; exact nofun
  · by_cases hk : k < m + 1
    · rw [multiplier_firstDraft hk]
      split_ifs with hlast
      · exact le_refl _
      · obtain ⟨c, hc⟩ := Fin.exists_castSucc_eq.mpr hlast
        rw [← hc]
        exact sub_nonneg.mpr (hall c)
    · show 0 ≤ (Vector.ofFn _).getD k 0
      rw [getD_eq, dif_neg hk]
  · rw [hsize, Finset.sum_range_zero]
    exact coords_zeroVec
  · rw [hsize]; exact nofun
  · rw [constraintAt_firstDraft hk] at hobj ⊢
    rw [multiplier_firstDraft hk, if_neg hobj]
    exact congrArg (L.mostViolated.2 - ·) (residual_zeroVec _).symm

theorem settled_firstDraft (L : Linearization K n m) : Pass.Settled L L.firstDraft :=
  ⟨L.sound_firstDraft, L.objectiveApart_firstDraft⟩

theorem valid_firstPass {k : Fin m} (hk : L.mostViolated.1 = some k) :
    (⟨L.firstDraft, k, none⟩ : Pass K n m).Valid L .feasibility := by
  refine ⟨L.sound_firstDraft, ?_, Or.inl ⟨⟨L.objectiveApart_firstDraft, nofun, fun j _ => ?_⟩, k.isLt,
    nofun⟩⟩
  · have hmost : L.bounds.get k.castSucc = L.mostViolated.2 := by
      rcases L.mostViolated_spec.2.2 with ⟨hnone, -⟩ | ⟨l, hl, hb⟩
      · rw [hk] at hnone; cases hnone
      · rw [hk] at hl; cases hl; exact hb
    refine (multiplier_firstDraft k.castSucc.isLt).trans ?_
    exact (if_neg (Fin.castSucc_lt_last k).ne).trans (sub_eq_zero.mpr hmost.symm)
  · show _ ⬝ᵥ coords (zeroVec n) = 0
    rw [coords_zeroVec, dotProduct_zero]

/-! ## Opening the second stage -/

theorem valid_openOptimality {d : Draft K n m} (h : Pass.Settled L d) :
    (openOptimality d).Valid L .optimality := by
  obtain ⟨⟨hb, hv⟩, hlast, hsize⟩ := h
  have hconstraint := constraintAt_openOptimality hlast
  have hnormal : (openOptimality d).draft.active.normal L = d.active.normal L := by
    funext j
    rw [ActiveSet.normal, hconstraint]
    rfl
  have hmult : ∀ j, (openOptimality d).draft.active.multiplier j =
      if j = m then 0 else d.active.multiplier j := fun j => by
    show (d.active.multipliers.setIfInBounds m 0).getD j 0 = _
    rw [getD_setIfInBounds]
    by_cases hj : j = m
    · rw [if_pos ⟨hj.symm, by omega⟩, if_pos hj]
    · rw [if_neg (by omega), if_neg hj]; rfl
  refine ⟨⟨⟨⟨hb.factored.size_le_vars, hb.factored.size_le, hb.factored.frame, ?_,
    hb.factored.diagonal_ne, ?_⟩, ?_, fun k => ?_, ?_, ?_, fun k hk hkm hobj => ?_⟩, hv⟩, ?_,
    Or.inr ⟨rfl, ⟨?_, hsize⟩, rfl⟩⟩
  · rw [hnormal]; exact hb.factored.diagonal
  · rw [hnormal]; exact hb.factored.triangular
  · rw [hconstraint]; exact hb.distinct
  · rw [hmult]
    split_ifs
    · exact le_refl _
    · exact hb.nonneg k
  · refine hb.sum.trans (Finset.sum_congr rfl fun k hk => ?_)
    have hk : k < d.active.size := Finset.mem_range.mp hk
    rw [hmult, if_neg (by omega), hnormal]
  · rw [hconstraint]; exact hb.tight
  · rw [hconstraint] at hobj ⊢
    have hne : k ≠ m := fun e => hobj (e ▸ hlast)
    rw [hmult, if_neg hne]
    exact hb.slack k hk hkm hobj
  · rw [hmult]; exact if_pos rfl
  · rw [hconstraint]; exact hlast

/-! ## The step found -/

theorem optimizeWithin_spec {d : Draft K n m} (h : Pass.Settled L d) {fuel : Nat} {s : Step K n}
    (hs : L.optimizeWithin radius d fuel = some s) : ∃ e : Draft K n m, e.Sound L ∧ e.step = s.move ∧
      e.violation ≤ d.violation ∧
      (s.isFull = true → radius * radius ≤ coords e.step ⬝ᵥ coords e.step) := by
  unfold optimizeWithin at hs
  cases hrun : (openOptimality d).runWithin L radius .optimality fuel with
  | none => rw [hrun] at hs; cases hs
  | some result =>
    obtain ⟨how, e⟩ := result
    rw [hrun] at hs
    cases hs
    obtain ⟨hsound, hle, hout⟩ := (valid_openOptimality h).runWithin_optimality fuel hrun
    exact ⟨e, hsound, rfl, hle, fun hfull => hout fun heq => by rw [heq] at hfull; cases hfull⟩

def GivesUp (L : Linearization K n m) (radius : K) : Prop :=
  ∃ k, L.mostViolated.1 = some k ∧
    (⟨L.firstDraft, k, none⟩ : Pass K n m).GivesUp L radius .feasibility

theorem solveWithin_spec (hr : 0 < radius) {fuel : Nat} {s : Step K n}
    (hs : L.solveWithin radius fuel = some s) : ∃ e : Draft K n m, e.Sound L ∧ e.step = s.move ∧
      e.violation ≤ L.firstDraft.violation ∧ (¬ L.GivesUp radius → e.Least L radius) ∧
      (s.isFull = true → radius * radius ≤ coords e.step ⬝ᵥ coords e.step) := by
  unfold solveWithin at hs
  cases hmost : L.mostViolated.1 with
  | none =>
    rw [hmost] at hs
    obtain ⟨e, hsound, hstep, hle, hout⟩ := optimizeWithin_spec L.settled_firstDraft hs
    have hzero : L.firstDraft.violation = 0 := by
      rcases L.mostViolated_spec.2.2 with ⟨-, hzero⟩ | ⟨k, hk, -⟩
      · exact hzero
      · rw [hmost] at hk; cases hk
    exact ⟨e, hsound, hstep, hle, fun _ y _ => (hzero ▸ hle).trans (L.violation_nonneg y), hout⟩
  | some k =>
    rw [hmost] at hs
    dsimp only at hs
    cases hrun : (⟨L.firstDraft, k, none⟩ : Pass K n m).runWithin L radius .feasibility fuel with
    | none => rw [hrun] at hs; cases hs
    | some result =>
      obtain ⟨how, d⟩ := result
      obtain ⟨hsettled, hle, hout, hleast⟩ := (valid_firstPass hmost).runWithin_feasibility hr fuel hrun
      have hleast : ¬ L.GivesUp radius → d.Least L radius := fun hnot =>
        hleast fun hgives => hnot ⟨k, hmost, hgives⟩
      rw [hrun] at hs
      -- a first stage that ends at the boundary is the end of it
      by_cases hbound : how = .boundary
      · subst hbound
        cases hs
        exact ⟨d, hsettled.sound, rfl, hle, hleast, fun _ => hout rfl⟩
      · have hs : L.optimizeWithin radius d fuel = some s := by
          cases how with
          | boundary => exact absurd rfl hbound
          | feasible => exact hs
          | stalled => exact hs
        obtain ⟨e, hsound, hstep, hle', hout'⟩ := optimizeWithin_spec hsettled hs
        exact ⟨e, hsound, hstep, hle'.trans hle, fun hnot y hy => hle'.trans (hleast hnot y hy), hout'⟩

/-! ## Models in one variable -/

theorem zeroVec_one : (zeroVec 1 : Vector ℝ 1) = #v[0] := rfl

theorem coords_singleton (a : ℝ) : coords #v[a] = fun _ => a := by
  funext i
  simp [coords]

theorem coords_singleton_ne_zero {a : ℝ} (h : a ≠ 0) : coords #v[a] ≠ 0 := by
  rw [coords_singleton]
  exact fun hzero => h (congrFun hzero 0)

theorem coords_one (a b : ℝ) : coords #v[a] ⬝ᵥ coords #v[b] = a * b := by
  simp [dotProduct, coords]

/-- From no step in one variable the boundary is as far as the direction is short. -/
theorem boundaryLength?_one {d : Draft ℝ 1 m} {a radius : ℝ} (ha : a ≠ 0) (hr : 0 < radius)
    (hs : d.step = #v[0]) (hd : d.direction = #v[1 / a]) : d.boundaryLength? radius = some (radius * |a|) := by
  have habs : (Scalar.abs (0 : ℝ)) = 0 := abs_zero
  have hpos : 0 < radius / |a| := div_pos hr (abs_pos.mpr ha)
  have hsmall : ¬ ((1e-6 : ℝ) * radius ≤ 0) := (mul_pos (by norm_num) hr).not_ge
  have hlong : ¬ ((1e-6 : ℝ) * (radius / |a|) ≤ 0) := (mul_pos (by norm_num) hpos).not_ge
  have hroot : (Scalar.sqrt (1 / a * (1 / a) * (radius * radius)) : ℝ) = radius / |a| := by
    have hsquare : 1 / a * (1 / a) * (radius * radius) = radius / |a| * (radius / |a|) := by
      rw [div_mul_div_comm, div_mul_div_comm, abs_mul_abs_self]
      ring
    rw [hsquare]
    exact Real.sqrt_mul_self hpos.le
  have hlength : radius * radius / (radius / |a|) = radius * |a| := by
    rw [div_div_eq_mul_div, mul_right_comm, mul_div_cancel_right₀ _ hr.ne']
  unfold Draft.boundaryLength?
  rw [hs, hd]
  simp only [Fin.foldl_succ, Fin.foldl_zero, Vector.get, Fin.val_zero, Fin.cast_zero, Vector.toArray_mk,
    List.getElem_toArray, List.getElem_cons_zero, habs, if_neg hsmall, if_neg (mul_pos hr hr).not_ge, hroot,
    if_neg hlong, hlength, zero_mul, zero_add, add_zero]

/-- In one variable the first constraint to enter needs no more than a slope. -/
theorem enter_one {L : Linearization ℝ 1 m} {s : ActiveSet ℝ 1 m} (hbasis : s.basis = ⟨#v[#v[1]]⟩)
    (hsize : s.size = 0) {k : Nat} {g : ℝ} (hgrad : L.gradient (s.constraintAt k) = #v[g]) (hg : g ≠ 0) :
    s.enter L k = (true, (s.grow k g).placeLast k) := by
  have halign : s.alignBasis #v[g] = (s.basis, some g) := by
    unfold ActiveSet.alignBasis
    rw [hsize, hbasis]
    simp [descending, ActiveSet.absorb, guardedDot_eq, ColMatrix.col, Vector.getD, coords_one, nonzero?, hg]
  unfold ActiveSet.enter
  dsimp only
  rw [hgrad, halign]

noncomputable def freed (g x multiplier : ℝ) : Draft ℝ 1 0 where
  active := ⟨.identity 1 1, .replicate 1 g, .replicate 1 0, .replicate 1 multiplier, 1⟩
  step := .replicate 1 x
  direction := .replicate 1 (1 / g)
  violation := 0

theorem freed_eq (g x multiplier : ℝ) : freed g x multiplier =
    { active := ⟨⟨#v[#v[1]]⟩, #v[g], #v[0], #v[multiplier], 1⟩
      step := #v[x]
      direction := #v[1 / g]
      violation := 0 } := rfl

theorem add_freed {L : Linearization ℝ 1 0} {g : ℝ} (hgrad : L.gradient 0 = #v[g]) (hg : g ≠ 0) :
    (openOptimality L.firstDraft).draft.add L .optimality 0 = (true, freed g 0 0) := by
  have hfirst : (openOptimality L.firstDraft).draft =
      { active := ⟨⟨#v[#v[1]]⟩, #v[0], #v[0], #v[0], 0⟩
        step := #v[0]
        direction := #v[0]
        violation := 0 } := rfl
  rw [hfirst, freed_eq]
  unfold Draft.add
  rw [enter_one rfl rfl hgrad hg]
  simp [ActiveSet.constraintAt, Vector.getD, ColMatrix.col, ActiveSet.grow, ActiveSet.multiplier,
    ActiveSet.last, ActiveSet.setDiagonal, ActiveSet.setMultiplier, ActiveSet.placeLast,
    Draft.objectiveDirection, ActiveSet.diagonalAt, scaleVec, Fin.last]

theorem advance_freed (L : Linearization ℝ 1 0) {g radius : ℝ} (hg : g ≠ 0) (hr : 0 < radius) :
    ∃ multiplier, (freed g 0 0).advance L radius .optimality =
      (.ended .boundary, freed g (radius * |g| * (1 / g)) multiplier) := by
  have htarget : (freed g 0 0).step.zipWith (fun x s => x + radius * |g| * s) (freed g 0 0).direction =
      #v[radius * |g| * (1 / g)] := by
    simp [freed_eq]
  have hnext : (freed g 0 0).multipliersAt L .optimality 0 #v[radius * |g| * (1 / g)] =
      #v[max 0 (radius * |g| * (1 / g) / g)] := by
    ext i hi
    interval_cases i
    simp [freed_eq, Draft.multipliersAt, ActiveSet.multipliersAt, descending, guardedDot_eq, ColMatrix.col,
      Vector.getD, coords_one, ActiveSet.diagonalAt, Vector.get, ActiveSet.last, larger_eq_max, zeroVec_one]
  have hfraction : Draft.fraction (freed g 0 0).active #v[max 0 (radius * |g| * (1 / g) / g)]
      (Stage.width 0 .optimality) = (1, none) := by
    simp [Draft.fraction, Stage.width, List.range, List.range.loop, Vector.getD]
  refine ⟨max 0 (radius * |g| * (1 / g) / g), ?_⟩
  have hmove : (freed g 0 0).moveTowards .optimality 1 #v[radius * |g| * (1 / g)]
      #v[max 0 (radius * |g| * (1 / g) / g)] 0 =
        freed g (radius * |g| * (1 / g)) (max 0 (radius * |g| * (1 / g) / g)) := by
    simp only [freed_eq]
    unfold Draft.moveTowards Stage.width
    simp [larger_eq_max, Vector.get]
    rfl
  unfold Draft.advance
  rw [boundaryLength?_one hg hr rfl rfl]
  dsimp only
  rw [if_neg (by simp), htarget, show (freed g 0 0).violation = 0 from rfl, hnext, hfraction]
  dsimp only
  rw [hmove, beq_self_eq_true, if_pos rfl]

/-- Without constraints the step in one variable goes to the boundary on the side of the slope. -/
theorem solveWithin_free {L : Linearization ℝ 1 0} {g radius : ℝ} (hgrad : L.gradient 0 = #v[g]) (hg : g ≠ 0)
    (hr : 0 < radius) (fuel : Nat) :
    L.solveWithin radius (fuel + 1) = some ⟨#v[radius * |g| * (1 / g)], true⟩ := by
  obtain ⟨multiplier, hadvance⟩ := advance_freed L hg hr
  have hposition : (openOptimality L.firstDraft).position = 0 := rfl
  have hsize : (openOptimality L.firstDraft).draft.active.size = 0 := rfl
  have hrun : (openOptimality L.firstDraft).run L radius .optimality =
      .ended .boundary (freed g (radius * |g| * (1 / g)) multiplier) := by
    unfold Pass.run Pass.change
    rw [show (openOptimality L.firstDraft).progress = none from rfl, Progress.count?, hposition, hsize]
    dsimp only
    rw [if_neg (Nat.lt_irrefl 0), add_freed hgrad hg]
    dsimp only
    rw [hadvance]
  have hmost : L.mostViolated.1 = none := rfl
  unfold solveWithin optimizeWithin Pass.runWithin
  rw [hmost]
  dsimp only
  rw [hrun]
  rfl

def reach : Linearization ℝ 1 1 := ⟨⟨#v[#v[1], #v[1]]⟩, #v[1, 0]⟩

/-- The constraint is active; `x` of the way is gone and `v` remains. -/
def reaching (x v : ℝ) : Draft ℝ 1 1 where
  active := ⟨⟨#v[#v[1]]⟩, #v[1, 0], #v[0, 1], #v[x, 0], 1⟩
  step := .replicate 1 x
  direction := #v[1]
  violation := v

theorem reaching_eq (x v : ℝ) : reaching x v =
    { active := ⟨⟨#v[#v[1]]⟩, #v[1, 0], #v[0, 1], #v[x, 0], 1⟩
      step := #v[x]
      direction := #v[1]
      violation := v } := rfl

structure ShortByOne (L : Linearization ℝ 1 1) : Prop where
  gradient : L.gradient 0 = #v[1]
  bound : L.bounds.get 0 = 1

theorem shortByOne_reach : reach.ShortByOne := ⟨rfl, rfl⟩

section
variable {L : Linearization ℝ 1 1} {radius : ℝ}

theorem ShortByOne.mostViolated (h : L.ShortByOne) : L.mostViolated = (some 0, 1) := by
  simp [Linearization.mostViolated, Fin.foldl_succ, h.bound]

theorem ShortByOne.violation (h : L.ShortByOne) (x : ℝ) : L.violation #v[x] = max 0 (1 - x) := by
  have hresidual : L.residual 0 #v[x] = 1 - x := by
    rw [residual_eq, slope, h.gradient, coords_one, h.bound, one_mul]
  simp [Linearization.violation, Fin.foldl_succ, larger_eq_max, hresidual]

theorem ShortByOne.add_firstDraft (h : L.ShortByOne) :
    L.firstDraft.add L .feasibility 0 = (true, reaching 0 1) := by
  have hmult : (Vector.ofFn fun k : Fin 2 => if k = Fin.last 1 then (0 : ℝ) else 1 - L.bounds.get k) = #v[0, 0] := by
    ext i hi
    interval_cases i <;> simp [h.bound, Fin.last]
  have hfirst : L.firstDraft =
      { active := ⟨⟨#v[#v[1]]⟩, #v[0, 0], #v[0, 1], #v[0, 0], 0⟩
        step := #v[0]
        direction := #v[0]
        violation := 1 } := by
    unfold firstDraft
    rw [h.mostViolated]
    dsimp only
    rw [hmult]
    rfl
  have hdir : subScaled #v[0] (-1) #v[1] = (#v[1] : Vector ℝ 1) := by
    apply coords_injective
    funext i
    simp [coords, subScaled]
  rw [hfirst, reaching_eq]
  unfold Draft.add
  rw [enter_one rfl rfl h.gradient one_ne_zero]
  simp [ActiveSet.constraintAt, Vector.getD, h.gradient, ColMatrix.col, ActiveSet.diagonalAt, ActiveSet.grow,
    ActiveSet.multiplier, ActiveSet.last, ActiveSet.setDiagonal, ActiveSet.setMultiplier, ActiveSet.placeLast,
    dot_eq, coords_one, hdir]

theorem ShortByOne.advance_reaching (h : L.ShortByOne) (hr : 1 ≤ radius) :
    (reaching 0 1).advance L radius .feasibility =
      (.ended (if (1 : ℝ) == radius then .boundary else .feasible), reaching 1 0) := by
  have hzero : (zeroVec 2 : Vector ℝ 2) = #v[0, 0] := rfl
  have hv : (reaching 0 1).violation = 1 := rfl
  have htarget : (reaching 0 1).step.zipWith (fun x s => x + 1 * s) (reaching 0 1).direction = #v[1] := by
    simp [reaching_eq]
  have hviolation : (reaching 0 1).activeViolation L #v[1] = 0 :=
    Draft.activeViolation_eq (le_refl 0) Nat.one_pos fun j hj => by
      have hj0 : j = 0 := Nat.lt_one_iff.mp hj
      subst hj0
      show L.residual 0 #v[1] = 0
      rw [residual_eq, slope, h.gradient, coords_one, h.bound, mul_one, sub_self]
  have hnext : (reaching 0 1).multipliersAt L .feasibility 0 #v[1] = #v[1, 0] := by
    ext i hi
    interval_cases i <;>
      simp [reaching_eq, Draft.multipliersAt, ActiveSet.multipliersAt, descending, guardedDot_eq, ColMatrix.col,
        Vector.getD, coords_one, ActiveSet.diagonalAt, Vector.get, Stage.width, hzero] <;> rfl
  have hfraction : Draft.fraction (reaching 0 1).active #v[1, 0] (Stage.width 1 .feasibility) = (1, none) := by
    simp [Draft.fraction, Stage.width, List.range, List.range.loop, Vector.getD]
  have hmove : (reaching 0 1).moveTowards .feasibility 1 #v[1] #v[1, 0] 0 = reaching 1 0 := by
    have hmult : (Vector.ofFn fun k : Fin 2 => if k.val < 1 then larger 0 ((#v[1, 0] : Vector ℝ 2).get k)
        else (#v[0, 0] : Vector ℝ 2).get k) = #v[1, 0] := by
      ext i hi
      interval_cases i <;> simp [larger_eq_max, Vector.get]
    rw [Draft.moveTowards_one, reaching_eq, reaching_eq]
    unfold Stage.width
    dsimp only
    rw [hmult, if_pos rfl]
  unfold Draft.advance
  rw [boundaryLength?_one one_ne_zero (one_pos.trans_le hr) rfl (by simp [reaching_eq]), abs_one, mul_one]
  dsimp only
  rw [snapToZero_eq, hv, if_neg (by simp), smaller_eq_min, min_eq_right hr, htarget, hviolation, hnext, hfraction]
  dsimp only
  rw [hmove]

theorem ShortByOne.run (h : L.ShortByOne) (hr : 1 ≤ radius) :
    (⟨L.firstDraft, 0, none⟩ : Pass ℝ 1 1).run L radius .feasibility =
      .ended (if (1 : ℝ) == radius then .boundary else .feasible) (reaching 1 0) := by
  have hsize : L.firstDraft.active.size = 0 := rfl
  unfold Pass.run Pass.change Pass.value
  dsimp only
  rw [hsize, Progress.count?, if_neg (Nat.lt_irrefl 0), h.add_firstDraft]
  dsimp only
  rw [h.advance_reaching hr]

theorem ShortByOne.run_one (h : L.ShortByOne) : (⟨L.firstDraft, 0, none⟩ : Pass ℝ 1 1).run L 1 .feasibility =
    .ended .boundary (reaching 1 0) := by
  rw [h.run (le_refl 1), beq_self_eq_true, if_pos rfl]

theorem ShortByOne.run_two (h : L.ShortByOne) : (⟨L.firstDraft, 0, none⟩ : Pass ℝ 1 1).run L 2 .feasibility =
    .ended .feasible (reaching 1 0) := by
  have hend : ((1 : ℝ) == 2) = false := beq_eq_false_iff_ne.mpr one_lt_two.ne
  rw [h.run one_le_two, hend]
  rfl

theorem ShortByOne.solveWithin (h : L.ShortByOne) (fuel : Nat) :
    L.solveWithin 1 (fuel + 1) = some ⟨#v[1], true⟩ := by
  have hrun : (⟨L.firstDraft, ((0 : Fin 1) : Nat), none⟩ : Pass ℝ 1 1).runWithin L 1 .feasibility (fuel + 1) =
      some (.boundary, reaching 1 0) := by
    unfold Pass.runWithin
    rw [show ((0 : Fin 1) : Nat) = 0 from rfl, h.run_one]
  unfold Linearization.solveWithin
  rw [h.mostViolated]
  dsimp only
  rw [hrun]
  rfl

end

theorem solveWithin_reach : reach.solveWithin 1 1 = some ⟨#v[1], true⟩ := shortByOne_reach.solveWithin 0

theorem not_givesUp_reach : ¬ reach.GivesUp 1 := by
  rintro ⟨k, hk, hgives⟩
  rw [shortByOne_reach.mostViolated] at hk
  cases hk
  cases hgives with
  | now hcount => cases hcount
  | later hrun _ =>
    rw [show ((0 : Fin 1) : Nat) = 0 from rfl, shortByOne_reach.run_one] at hrun
    cases hrun

def surpassing (x : ℝ) : Draft ℝ 1 1 where
  active := ⟨⟨#v[#v[1]]⟩, #v[1, 0], #v[1, 0], #v[x, x - 1], 1⟩
  step := .replicate 1 x
  direction := #v[1]
  violation := 0

theorem surpassing_eq (x : ℝ) : surpassing x =
    { active := ⟨⟨#v[#v[1]]⟩, #v[1, 0], #v[1, 0], #v[x, x - 1], 1⟩
      step := #v[x]
      direction := #v[1]
      violation := 0 } := rfl

theorem openOptimality_reaching : openOptimality (reaching 1 0) = ⟨reaching 1 0, 1, none⟩ := rfl

theorem add_reaching : (reaching 1 0).add reach .optimality 1 = (true, surpassing 1) := by
  have hgrad : reach.gradient 1 = #v[1] := rfl
  rw [reaching_eq, surpassing_eq]
  unfold Draft.add ActiveSet.enter
  simp [ActiveSet.constraintAt, Vector.getD, hgrad, ColMatrix.col, ActiveSet.alignBasis, descending,
    ActiveSet.dependence, ActiveSet.splitOff, guardedDot_eq, coords_one, nonzero?, ActiveSet.diagonalAt,
    ActiveSet.multiplier, ActiveSet.Dependence.isLeast, ActiveSet.shiftMultipliers, ActiveSet.moveToEnd,
    ActiveSet.last, ActiveSet.setDiagonal, ActiveSet.setMultiplier, ActiveSet.placeLast, dot_eq,
    Draft.objectiveDirection, scaleVec]
  rfl

theorem boundaryLength?_surpassing : (surpassing 1).boundaryLength? 2 = some 1 := by
  have habs : (Scalar.abs (1 : ℝ)) = 1 := abs_one
  have hcounts : (1e-6 : ℝ) * 2 ≤ 1 := by norm_num
  have hroom : (2 * 2 - 1 : ℝ) = 3 := by norm_num
  have hinside : ¬ (3 : ℝ) ≤ 0 := by norm_num
  have hlong : (1e-6 : ℝ) * Scalar.sqrt 3 ≤ 1 := by
    have hroot : Real.sqrt 3 ≤ 2 := Real.sqrt_le_iff.mpr ⟨by norm_num, by norm_num⟩
    show (1e-6 : ℝ) * Real.sqrt 3 ≤ 1
    linarith
  have hroot : (Scalar.sqrt (3 + 1) : ℝ) = 2 := by
    rw [show (3 + 1 : ℝ) = 2 * 2 by norm_num]
    exact Real.sqrt_mul_self zero_le_two
  unfold Draft.boundaryLength?
  rw [surpassing_eq]
  simp only [Fin.foldl_succ, Fin.foldl_zero, Vector.get, Fin.val_zero, Fin.cast_zero, Vector.toArray_mk,
    List.getElem_toArray, List.getElem_cons_zero, habs, if_pos hcounts, mul_one, one_mul, zero_add, hroom,
    if_neg hinside, if_pos hlong, hroot]
  norm_num

theorem advance_surpassing : (surpassing 1).advance reach 2 .optimality = (.ended .boundary, surpassing 2) := by
  have hzero : (zeroVec 2 : Vector ℝ 2) = #v[0, 0] := rfl
  have htarget : (surpassing 1).step.zipWith (fun x s => x + 1 * s) (surpassing 1).direction = #v[2] := by
    simp [surpassing_eq]
    norm_num
  have hnext : (surpassing 1).multipliersAt reach .optimality 0 #v[2] = #v[2, 1] := by
    have hresidual : reach.residual 0 #v[2] = -1 := by
      rw [residual_eq, slope, shortByOne_reach.gradient, coords_one, shortByOne_reach.bound]
      norm_num
    ext i hi
    interval_cases i
    · simp [surpassing_eq, Draft.multipliersAt, ActiveSet.multipliersAt, descending, guardedDot_eq, ColMatrix.col,
        Vector.getD, coords_one, ActiveSet.diagonalAt, Vector.get, Stage.width, hzero, ActiveSet.last, larger_eq_max]
      rfl
    · have hslack : ((surpassing 1).multipliersAt reach .optimality 0 #v[2]).getD 1 0 = 0 - reach.residual 0 #v[2] :=
        Draft.multipliersAt_of_le 0 #v[2] (le_refl 1) Nat.one_lt_two
      rw [hresidual, getD_eq, dif_pos Nat.one_lt_two] at hslack
      rw [hslack]
      norm_num
  have hfraction : Draft.fraction (surpassing 1).active #v[2, 1] (Stage.width 1 .optimality) = (1, none) := by
    have h₁ : ¬ (1 : ℝ) < 0 := zero_le_one.not_gt
    have h₂ : ¬ (2 : ℝ) < 0 := zero_le_two.not_gt
    simp [Draft.fraction, Stage.width, List.range, List.range.loop, Vector.getD, h₁, h₂]
  have hmove : (surpassing 1).moveTowards .optimality 1 #v[2] #v[2, 1] 0 = surpassing 2 := by
    have hmult : (Vector.ofFn fun k : Fin 2 => if k.val < 2 then larger 0 ((#v[2, 1] : Vector ℝ 2).get k)
        else (#v[1, 1 - 1] : Vector ℝ 2).get k) = #v[2, 2 - 1] := by
      ext i hi
      interval_cases i <;> norm_num [larger_eq_max, Vector.get]
    rw [Draft.moveTowards_one, surpassing_eq, surpassing_eq]
    unfold Stage.width
    dsimp only
    rw [hmult, ite_self]
  unfold Draft.advance
  rw [boundaryLength?_surpassing]
  dsimp only
  rw [if_neg (by simp), htarget, show (surpassing 1).violation = 0 from rfl, hnext, hfraction]
  dsimp only
  rw [hmove, beq_self_eq_true, if_pos rfl]

theorem run_reaching : (⟨reaching 1 0, 1, none⟩ : Pass ℝ 1 1).run reach 2 .optimality =
    .ended .boundary (surpassing 2) := by
  have hsize : ¬ 1 < (reaching 1 0).active.size := Nat.lt_irrefl 1
  unfold Pass.run Pass.change
  dsimp only
  rw [Progress.count?, if_neg hsize, add_reaching]
  dsimp only
  rw [advance_surpassing]

/-- With room beyond the bound the second stage goes on to the boundary. -/
theorem solveWithin_reach_two : reach.solveWithin 2 1 = some ⟨#v[2], true⟩ := by
  have hfirst : (⟨reach.firstDraft, ((0 : Fin 1) : Nat), none⟩ : Pass ℝ 1 1).runWithin reach 2 .feasibility 1 =
      some (.feasible, reaching 1 0) := by
    unfold Pass.runWithin
    rw [show ((0 : Fin 1) : Nat) = 0 from rfl, shortByOne_reach.run_two]
  have hsecond : reach.optimizeWithin 2 (reaching 1 0) 1 = some ⟨#v[2], true⟩ := by
    unfold optimizeWithin
    rw [openOptimality_reaching]
    unfold Pass.runWithin
    rw [run_reaching]
    rfl
  unfold solveWithin
  rw [shortByOne_reach.mostViolated]
  dsimp only
  rw [hfirst]
  exact hsecond

def tieSlopes : Vector Nat 6 := #v[16, 8, 4, 2, 1, 0]

/-- Five constraints of different slopes, all violated alike by no step; the objective is constant. -/
def tie : Linearization ℝ 1 5 :=
  ⟨⟨tieSlopes.map fun a : Nat => #v[(a : ℝ)]⟩, #v[1, 1, 1, 1, 1, 0]⟩

noncomputable def tied (a : Nat) (order : Vector (Fin 6) 6) : Draft ℝ 1 5 where
  active := ⟨⟨#v[#v[1]]⟩, #v[(a : ℝ), 0, 0, 0, 0, 0], order, #v[0, 0, 0, 0, 0, 0], 1⟩
  step := zeroVec 1
  direction := #v[1 / (a : ℝ)]
  violation := 1

def slopeAt (order : Vector (Fin 6) 6) (j : Nat) : Nat := tieSlopes[order.getD j (Fin.last 5)]

/-- The first constraint of an order has slope `a`, and the first that is flatter stands at `k`. -/
def Yields (a : Nat) (order : Vector (Fin 6) 6) (k : Nat) : Prop :=
  (∀ j < 5, (order.getD j (Fin.last 5)).val < 5) ∧ slopeAt order 0 = a ∧ 0 < k ∧ k < 5 ∧
    slopeAt order k < a ∧ ∀ j < k, a ≤ slopeAt order j

instance (a : Nat) (order : Vector (Fin 6) 6) (k : Nat) : Decidable (Yields a order k) :=
  inferInstanceAs (Decidable (_ ∧ _))

theorem gradient_tie (c : Fin 6) : tie.gradient c = #v[(tieSlopes[c] : ℝ)] := by
  unfold gradient tie ColMatrix.col
  rw [getD_eq, dif_pos c.isLt, Vector.getElem_map]
  rfl

theorem residual_tie {c : Fin 6} (hc : c.val < 5) (x : ℝ) : tie.residual c #v[x] = 1 - tieSlopes[c] * x := by
  have hb : tie.bounds.get c = 1 := by
    obtain ⟨c, h⟩ := c
    interval_cases c <;> rfl
  rw [residual_eq, slope, gradient_tie, coords_one, hb]

theorem multiplier_tied (a : Nat) (order : Vector (Fin 6) 6) (k : Nat) :
    (tied a order).active.multiplier k = 0 := by
  show (#v[(0 : ℝ), 0, 0, 0, 0, 0]).getD k 0 = 0
  rw [getD_eq]
  split
  · next h => interval_cases k <;> rfl
  · rfl

theorem advance_tied {a : Nat} {order : Vector (Fin 6) 6} {k : Nat} (h : Yields a order k) :
    (tied a order).advance tie 1 .feasibility = (.blocked k, tied a order) := by
  obtain ⟨hc, hself, h0, hk, hless, hall⟩ := h
  have hpos : (0 : ℝ) < a := by exact_mod_cast Nat.zero_lt_of_lt hless
  have hone : (1 : ℝ) ≤ a := by exact_mod_cast Nat.zero_lt_of_lt hless
  have hv : (tied a order).violation = 1 := rfl
  have htarget : (tied a order).step.zipWith (fun x s => x + 1 * s) (tied a order).direction =
      #v[1 / (a : ℝ)] := by simp [tied, zeroVec_one]
  have hres : ∀ j < 5, tie.residual ((tied a order).active.constraintAt j) #v[1 / (a : ℝ)] =
      1 - slopeAt order j * (1 / (a : ℝ)) := fun j hj => residual_tie (hc j hj) _
  have hviolation : (tied a order).activeViolation tie #v[1 / (a : ℝ)] = 0 :=
    Draft.activeViolation_eq (le_refl 0) Nat.one_pos fun j hj => by
      have hj0 : j = 0 := Nat.lt_one_iff.mp hj
      subst hj0
      rw [hres 0 (by omega), hself, mul_one_div_cancel hpos.ne', sub_self]
  have hnext : ∀ j, 0 < j → j < 5 →
      ((tied a order).multipliersAt tie .feasibility 0 #v[1 / (a : ℝ)]).getD j 0 =
        slopeAt order j / (a : ℝ) - 1 := fun j hj h => by
    have hw : j < Stage.width 5 .feasibility := h
    have hsize : (tied a order).active.size ≤ j := hj
    rw [Draft.multipliersAt_of_le _ _ hsize hw, hres j h]
    ring
  have hfirst : ((tied a order).multipliersAt tie .feasibility 0 #v[1 / (a : ℝ)]).getD 0 0 =
      1 / (a : ℝ) / a := by
    have hactive : (tied a order).active.multipliersAt tie #v[1 / (a : ℝ)] =
        #v[1 / (a : ℝ) / a, 0, 0, 0, 0, 0] := by
      simp [ActiveSet.multipliersAt, tied, descending, guardedDot_eq, ColMatrix.col, Vector.getD, coords_one,
        ActiveSet.diagonalAt]
      rfl
    have hsize : 0 < (tied a order).active.size := Nat.one_pos
    unfold Draft.multipliersAt
    dsimp only
    rw [getD_eq (Vector.ofFn _), dif_pos (by omega), Vector.getElem_ofFn, if_pos hsize, hactive]
    rfl
  have hneg : ((tied a order).multipliersAt tie .feasibility 0 #v[1 / (a : ℝ)]).getD k 0 < 0 := by
    rw [hnext k h0 hk, sub_neg, div_lt_one hpos]
    exact_mod_cast hless
  have hnonneg : ∀ j < k, 0 ≤ ((tied a order).multipliersAt tie .feasibility 0 #v[1 / (a : ℝ)]).getD j 0 := by
    intro j hj
    rcases Nat.eq_zero_or_pos j with rfl | hj0
    · rw [hfirst]
      positivity
    · rw [hnext j hj0 (by omega), sub_nonneg, one_le_div hpos]
      exact_mod_cast hall j hj
  have hw : k < Stage.width 5 .feasibility := hk
  unfold Draft.advance
  rw [boundaryLength?_one hpos.ne' one_pos rfl rfl, abs_of_pos hpos, one_mul]
  dsimp only
  rw [hv, snapToZero_eq, if_neg (by simp), smaller_eq_min, min_eq_right hone, htarget, hviolation,
    Draft.fraction_of_zero (multiplier_tied a order) hneg hnonneg, if_pos hw]
  dsimp only
  rw [Draft.moveTowards_zero fun j => (multiplier_tied a order j).ge]

def swapFirst (order : Vector (Fin 6) 6) (k : Nat) : Vector (Fin 6) 6 :=
  (order.setIfInBounds k (order.getD 0 (Fin.last 5))).setIfInBounds 0 (order.getD k (Fin.last 5))

theorem add_tied {a : Nat} {order : Vector (Fin 6) 6} {k : Nat} (h : Yields a order k)
    (hpos : 0 < slopeAt order k) :
    (tied a order).add tie .feasibility k = (true, tied (slopeAt order k) (swapFirst order k)) := by
  obtain ⟨hc, -, hk0, hk, hless, -⟩ := h
  have ha : (0 : ℝ) < a := by exact_mod_cast Nat.zero_lt_of_lt hless
  have hg : (0 : ℝ) < slopeAt order k := by exact_mod_cast hpos
  have hgrad : tie.gradient (order.getD k (Fin.last 5)) = #v[(slopeAt order k : ℝ)] := gradient_tie _
  have hc0 := hc 0 (by omega)
  have hshift := ActiveSet.shiftMultipliers_zero (s := (tied a order).active) fun k =>
    (multiplier_tied a order k).ge
  unfold swapFirst tied at *
  dsimp only at hshift
  generalize (slopeAt order k : ℝ) = g at hg hgrad ⊢
  rw [getD_eq, dif_pos (by omega)] at hgrad hc0
  have hga : 0 < g / a := by positivity
  have hdir : subScaled #v[(a : ℝ)⁻¹] (((a : ℝ)⁻¹ * g - 1) / g) #v[1] = #v[g⁻¹] := by
    apply coords_injective
    funext i
    simp [coords, subScaled]
    field_simp
    ring
  unfold Draft.add ActiveSet.enter
  simp [ActiveSet.constraintAt, Vector.getD, hk.trans (Nat.lt_succ_self 5), hgrad, ColMatrix.col,
    ActiveSet.alignBasis, descending, ActiveSet.dependence, ActiveSet.splitOff, guardedDot_eq, coords_one, nonzero?,
    ActiveSet.diagonalAt, ActiveSet.multiplier, ActiveSet.Dependence.isLeast, hshift, ActiveSet.moveToEnd,
    ActiveSet.last, ActiveSet.setDiagonal, ActiveSet.setMultiplier, ActiveSet.placeLast, dot_eq, hg.ne', hga,
    hdir, hc0]
  interval_cases k <;> rfl

theorem run_tied {a : Nat} {order : Vector (Fin 6) 6} {k l : Nat} (h : Yields a order k)
    (hnext : Yields (slopeAt order k) (swapFirst order k) l) {p p' : Progress ℝ}
    (hp : Progress.count? (some p) 1 1 = some p') :
    (⟨tied a order, k, some p⟩ : Pass ℝ 1 5).run tie 1 .feasibility =
      .next ⟨tied (slopeAt order k) (swapFirst order k), l, some p'⟩ := by
  have hv : (tied a order).violation = 1 := rfl
  have hsize : (tied a order).active.size = 1 := rfl
  have hpos : 0 < slopeAt order k := Nat.zero_lt_of_lt hnext.2.2.2.2.1
  have hk : ¬ k < 1 := by have := h.2.2.1; omega
  unfold Pass.run Pass.change Pass.value
  dsimp only
  rw [hv, hsize, hp, if_neg hk, add_tied h hpos]
  dsimp only
  rw [advance_tied hnext]

theorem mostViolated_tie : tie.mostViolated = (some 0, 1) := by
  simp [mostViolated, tie, Fin.foldl_succ, Vector.get]

theorem firstDraft_tie : tie.firstDraft =
    { active := ⟨⟨#v[#v[1]]⟩, #v[0, 0, 0, 0, 0, 0], #v[0, 1, 2, 3, 4, 5], #v[0, 0, 0, 0, 0, 0], 0⟩
      step := #v[0]
      direction := #v[0]
      violation := 1 } := by
  have hmult : (Vector.ofFn fun k : Fin 6 => if k = Fin.last 5 then (0 : ℝ) else 1 - tie.bounds.get k) =
      #v[0, 0, 0, 0, 0, 0] := by
    ext i hi
    interval_cases i <;> simp [tie, Vector.get, Fin.last]
  unfold firstDraft
  rw [mostViolated_tie]
  dsimp only
  rw [hmult]
  rfl

theorem add_firstDraft_tie :
    tie.firstDraft.add tie .feasibility 0 = (true, tied 16 #v[0, 1, 2, 3, 4, 5]) := by
  have hdir : subScaled #v[0] (-1 / 16) #v[1] = (#v[16⁻¹] : Vector ℝ 1) := by
    apply coords_injective
    funext i
    simp [coords, subScaled]
    norm_num
  have hgrad : tie.gradient 0 = #v[16] := gradient_tie 0
  rw [firstDraft_tie]
  unfold tied Draft.add
  rw [enter_one rfl rfl hgrad (by norm_num)]
  simp [ActiveSet.constraintAt, Vector.getD, hgrad, ColMatrix.col, ActiveSet.diagonalAt, ActiveSet.grow,
    ActiveSet.multiplier, ActiveSet.last, ActiveSet.setDiagonal, ActiveSet.setMultiplier, ActiveSet.placeLast,
    dot_eq, coords_one, hdir, zeroVec_one]

theorem run_firstPass_tie : (⟨tie.firstDraft, 0, none⟩ : Pass ℝ 1 5).run tie 1 .feasibility =
    .next ⟨tied 16 #v[0, 1, 2, 3, 4, 5], 1, some ⟨1, 0, 3⟩⟩ := by
  have hv : tie.firstDraft.violation = 1 := by rw [firstDraft_tie]
  have hsize : tie.firstDraft.active.size = 0 := rfl
  unfold Pass.run Pass.change Pass.value
  dsimp only
  rw [hv, hsize, Progress.count?, if_neg (Nat.lt_irrefl 0), add_firstDraft_tie]
  dsimp only
  rw [advance_tied (k := 1) (by decide)]

theorem run_secondPass_tie : (⟨tied 16 #v[0, 1, 2, 3, 4, 5], 1, some ⟨1, 0, 3⟩⟩ : Pass ℝ 1 5).run tie 1 .feasibility =
    .next ⟨tied 8 #v[1, 0, 2, 3, 4, 5], 2, some ⟨1, 1, 3⟩⟩ :=
  run_tied (by decide) (by decide) (by simp [Progress.count?])

theorem runWithin_tie : (⟨tie.firstDraft, 0, none⟩ : Pass ℝ 1 5).runWithin tie 1 .feasibility 5 =
    some (.stalled, tied 2 #v[3, 0, 1, 2, 4, 5]) := by
  have h₁ : (⟨tied 8 #v[1, 0, 2, 3, 4, 5], 2, some ⟨1, 1, 3⟩⟩ : Pass ℝ 1 5).run tie 1 .feasibility =
      .next ⟨tied 4 #v[2, 0, 1, 3, 4, 5], 3, some ⟨1, 1, 2⟩⟩ :=
    run_tied (by decide) (by decide) (by simp [Progress.count?])
  have h₂ : (⟨tied 4 #v[2, 0, 1, 3, 4, 5], 3, some ⟨1, 1, 2⟩⟩ : Pass ℝ 1 5).run tie 1 .feasibility =
      .next ⟨tied 2 #v[3, 0, 1, 2, 4, 5], 4, some ⟨1, 1, 1⟩⟩ :=
    run_tied (by decide) (by decide) (by simp [Progress.count?])
  have h₃ : (⟨tied 2 #v[3, 0, 1, 2, 4, 5], 4, some ⟨1, 1, 1⟩⟩ : Pass ℝ 1 5).run tie 1 .feasibility =
      .ended .stalled (tied 2 #v[3, 0, 1, 2, 4, 5]) := by
    have hcount : Progress.count? (some ⟨(1 : ℝ), 1, 1⟩) 1 1 = none := by simp [Progress.count?]
    have hv : (tied 2 #v[3, 0, 1, 2, 4, 5]).violation = 1 := rfl
    have hsize : (tied 2 #v[3, 0, 1, 2, 4, 5]).active.size = 1 := rfl
    unfold Pass.run Pass.value
    dsimp only
    rw [hv, hsize, hcount]
  simp only [Pass.runWithin, run_firstPass_tie, run_secondPass_tie, h₁, h₂, h₃]

theorem optimizeWithin_tie :
    tie.optimizeWithin 1 (tied 2 #v[3, 0, 1, 2, 4, 5]) 5 = some ⟨#v[0], false⟩ := by
  -- the objective is constant, so that it is refused
  have hopen : openOptimality (tied 2 #v[3, 0, 1, 2, 4, 5]) = ⟨tied 2 #v[3, 0, 1, 2, 4, 5], 5, none⟩ := rfl
  have hgrad : tie.gradient 5 = #v[0] := by rw [gradient_tie]; simp [tieSlopes]
  unfold optimizeWithin
  rw [hopen]
  unfold Pass.runWithin Pass.run Pass.change Draft.add ActiveSet.enter tied
  simp [Progress.count?, ActiveSet.constraintAt, Vector.getD, hgrad, ActiveSet.alignBasis, descending,
    ActiveSet.dependence, ActiveSet.splitOff, ColMatrix.col, guardedDot_eq, coords_one, nonzero?, zeroVec_one]

/-- The first stage gives up at no step, although a step of length one violates nothing. -/
theorem solveWithin_tie : tie.solveWithin 1 5 = some ⟨#v[0], false⟩ := by
  have h : (⟨tie.firstDraft, ((0 : Fin 5) : Nat), none⟩ : Pass ℝ 1 5).runWithin tie 1 .feasibility 5 =
    some (.stalled, tied 2 #v[3, 0, 1, 2, 4, 5]) := runWithin_tie
  unfold solveWithin
  rw [mostViolated_tie]
  dsimp only
  rw [h]
  exact optimizeWithin_tie

/-! ## Optimality -/

/-- No step of the ball is less violated than the one found, if the first stage does not give up; and
in any case no step at all is not better than it. -/
theorem violation_move_le (hr : 0 < radius) {fuel : Nat} {s : Step K n}
    (hs : L.solveWithin radius fuel = some s) :
    (¬ L.GivesUp radius →
        ∀ y : Vector K n, normSq y ≤ radius * radius → L.violation s.move ≤ L.violation y) ∧
      L.violation s.move ≤ L.violation (zeroVec n) := by
  obtain ⟨e, hsound, hstep, hle, hleast, -⟩ := solveWithin_spec hr hs
  have hmove : L.violation s.move ≤ e.violation := hstep ▸ hsound.violation_le
  exact ⟨fun hnot y hy => hmove.trans (hleast hnot y hy),
    (hmove.trans hle).trans L.violation_firstDraft_le⟩

theorem violation_move_le_reach : reach.solveWithin 1 1 = some ⟨#v[1], true⟩ ∧ ¬ reach.GivesUp 1 ∧
    ∀ y : Vector ℝ 1, normSq y ≤ 1 * 1 → reach.violation #v[1] ≤ reach.violation y :=
  ⟨solveWithin_reach, not_givesUp_reach,
    (violation_move_le one_pos solveWithin_reach).1 not_givesUp_reach⟩

/-- The exception is needed: the tie leaves the first stage without a step, where one of length one
violates nothing. -/
theorem violation_move_not_least : ∃ s : Step ℝ 1, tie.solve 1 = some s ∧
    ∃ y : Vector ℝ 1, normSq y ≤ 1 * 1 ∧ tie.violation y < tie.violation s.move := by
  refine ⟨_, tie.solveWithin_of_le 1 (by decide) solveWithin_tie, #v[1], ?_, ?_⟩
  · rw [normSq_eq, coords_one]
  · have h0 : tie.violation #v[0] = 1 := by
      simp [violation, Fin.foldl_succ, larger_eq_max, residual_tie]
    have h1 : tie.violation #v[1] = 0 := by
      simp [violation, Fin.foldl_succ, larger_eq_max, residual_tie, tieSlopes]
    rw [h0, h1]
    exact zero_lt_one

/-- A full step has the best objective among the steps of the ball that are no more violated. -/
theorem objective_le_of_isFull (hr : 0 < radius) {fuel : Nat} {s : Step K n}
    (hs : L.solveWithin radius fuel = some s) (hfull : s.isFull = true) {y : Vector K n}
    (hy : normSq y ≤ radius * radius) (hv : L.violation y ≤ L.violation s.move) :
    dot (L.gradient (Fin.last m)) y ≤ dot (L.gradient (Fin.last m)) s.move := by
  obtain ⟨e, hsound, hstep, -, -, hout⟩ := solveWithin_spec hr hs
  rw [dot_eq, dot_eq, ← hstep]
  refine hsound.objective_le (hout hfull) hy ?_
  rw [← hstep] at hv
  exact hv.trans hsound.violation_le

/-- The step to the bound violates nothing either, and its objective is half of that at the boundary. -/
theorem objective_le_reach : reach.solveWithin 2 1 = some ⟨#v[2], true⟩ ∧
    normSq (#v[1] : Vector ℝ 1) ≤ 2 * 2 ∧ reach.violation #v[1] ≤ reach.violation #v[2] ∧
      dot (reach.gradient (Fin.last 1)) #v[1] ≤ dot (reach.gradient (Fin.last 1)) #v[2] := by
  have hnorm : normSq (#v[1] : Vector ℝ 1) ≤ 2 * 2 := by
    rw [normSq_eq, coords_one]
    norm_num
  have hviolation : reach.violation #v[1] ≤ reach.violation #v[2] := by
    rw [shortByOne_reach.violation, shortByOne_reach.violation]
    norm_num
  exact ⟨solveWithin_reach_two, hnorm, hviolation,
    objective_le_of_isFull two_pos solveWithin_reach_two rfl hnorm hviolation⟩

end Linearization

end

end TrustSimplex
