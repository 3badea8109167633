import TrustSimplex.Proofs.TrustRegion.Optimality

/-!
# How far a step overshoots

The short cuts in the length to the boundary may lead out of the ball, by no more than the small entries and the
small product that they leave out. A draft moves to a point between its step and such a target, and the bound on the
target does not depend on the step before; so the excess of many partial steps does not add up.
-/

namespace TrustSimplex

section
variable {K : Type} [EuclideanField K] {n m : Nat} {L : Linearization K n m} {stage : Stage}
variable {radius room root t along square bound ratio : K}

/-! ## The excess of a length -/

/-- The square of the length that the short cuts allow a step in `n` variables. -/
def reachSq (n : Nat) (radius : K) : K := radius * radius * (1 + (n + 2 : Nat) / (10 ^ 12 : Nat))

theorem reachSq_eq (n : Nat) (radius : K) : reachSq n radius = radius * radius * (1 + (n + 2) / 10 ^ 12) := by
  norm_num [reachSq]

theorem roomLeft_le (radius : K) (x : Vector K n) : roomLeft radius x ≤ radius * radius := by
  rw [roomLeft_eq_sub_sum]
  refine sub_le_self _ (Finset.sum_nonneg fun i _ => ?_)
  split_ifs
  · exact mul_self_nonneg _
  · exact le_refl _

/-- Each entry that is left out adds at most the square of a millionth of the radius to the room. -/
theorem add_roomLeft_le (radius : K) (x : Vector K n) :
    coords x ⬝ᵥ coords x + roomLeft radius x ≤ radius * radius * (1 + n / 10 ^ 12) := by
  have hentry : ∀ i : Fin n, coords x i * coords x i ≤
      (if 1e-6 * radius ≤ Scalar.abs (x.get i) then x.get i * x.get i else 0) + radius * radius / 10 ^ 12 := by
    intro i
    have hsq : 0 ≤ radius * radius / 10 ^ 12 := div_nonneg (mul_self_nonneg _) (by positivity)
    split_ifs with hlarge
    · exact le_add_of_nonneg_right hsq
    · have hsmall : |coords x i| < 1e-6 * radius := not_le.mp hlarge
      have hmul := mul_self_le_mul_self (abs_nonneg _) hsmall.le
      rw [abs_mul_abs_self] at hmul
      norm_num at hmul ⊢
      linarith
  have hsum := Finset.sum_le_sum fun i (_ : i ∈ Finset.univ) => hentry i
  rw [Finset.sum_add_distrib, Finset.sum_const, Finset.card_univ, Fintype.card_fin, nsmul_eq_mul] at hsum
  rw [roomLeft_eq_sub_sum]
  have hdot : coords x ⬝ᵥ coords x = ∑ i, coords x i * coords x i := rfl
  rw [hdot]
  linarith

/-- A root without the component along the step is short of the exact one by a multiple of what it leaves out. -/
theorem IsRoot.excess_le (h : IsRoot room along square root) :
    square * room + along * along - root * root ≤ 2 / 10 ^ 12 * ((root + along) * (root + along)) := by
  rcases h.square with hexact | ⟨hpart, hsmall⟩
  · rw [hexact, sub_self]
    exact mul_nonneg (by positivity) (mul_self_nonneg _)
  · have hroot : 0 ≤ root := (abs_nonneg _).trans h.exceeds.le
    have halong : along * along ≤ 1 / 10 ^ 12 * (root * root) := by
      have hmul := mul_self_le_mul_self (abs_nonneg _) hsmall
      rw [abs_mul_abs_self] at hmul
      norm_num at hmul ⊢
      linarith
    have hmost : 999999 / 1000000 * root ≤ root + along := by
      have := (abs_le.mp hsmall).1
      norm_num at this
      linarith
    have hsq := mul_self_le_mul_self (mul_nonneg (by norm_num) hroot) hmost
    rw [← hpart, add_sub_cancel_left]
    linarith [mul_self_nonneg root]

theorem length_overshoots (hroom : 0 < room) (hroot : IsRoot room along square root)
    (ht : t = room / (root + along)) : 2 * t * along + t * t * square ≤ room * (1 + 2 / 10 ^ 12) := by
  have hq := hroot.pos
  have htq : t * (root + along) = room := by rw [ht, div_mul_cancel₀ _ hq.ne']
  have hqq : 0 < (root + along) * (root + along) := mul_pos hq hq
  refine le_of_mul_le_mul_right ?_ hqq
  calc (2 * t * along + t * t * square) * ((root + along) * (root + along))
      = room * ((root + along) * (root + along) + (square * room + along * along - root * root)) := by
        rw [← htq]; ring
    _ ≤ room * ((root + along) * (root + along) + 2 / 10 ^ 12 * ((root + along) * (root + along))) :=
        mul_le_mul_of_nonneg_left (add_le_add (le_refl _) hroot.excess_le) hroom.le
    _ = room * (1 + 2 / 10 ^ 12) * ((root + along) * (root + along)) := by ring

theorem blend_le {x y : Fin n → K} (hx : x ⬝ᵥ x ≤ bound) (hy : y ⬝ᵥ y ≤ bound) (h0 : 0 ≤ ratio) (h1 : ratio ≤ 1) :
    ((1 - ratio) • x + ratio • y) ⬝ᵥ ((1 - ratio) • x + ratio • y) ≤ bound := by
  have hapart := mul_nonneg (mul_nonneg h0 (sub_nonneg.mpr h1)) (self_dotProduct_nonneg (x - y))
  calc ((1 - ratio) • x + ratio • y) ⬝ᵥ ((1 - ratio) • x + ratio • y)
      = (1 - ratio) * x ⬝ᵥ x + ratio * y ⬝ᵥ y - ratio * (1 - ratio) * (x - y) ⬝ᵥ (x - y) := by
        simp only [add_dotProduct, dotProduct_add, sub_dotProduct, dotProduct_sub, smul_dotProduct, dotProduct_smul,
          smul_eq_mul, dotProduct_comm y x]
        ring
    _ ≤ (1 - ratio) * bound + ratio * bound := by
        have := mul_le_mul_of_nonneg_left hx (sub_nonneg.mpr h1)
        have := mul_le_mul_of_nonneg_left hy h0
        linarith
    _ = bound := by ring

/-! ## One advance -/

namespace Draft

variable {d : Draft K n m}

def InReach (radius : K) (d : Draft K n m) : Prop := coords d.step ⬝ᵥ coords d.step ≤ reachSq n radius

theorem boundaryLength?_overshoots (h : d.boundaryLength? radius = some t) (hp : coords d.direction ≠ 0) :
    coords (d.targetAt t) ⬝ᵥ coords (d.targetAt t) ≤ reachSq n radius := by
  obtain ⟨hroom, root, ht, hroot⟩ := boundaryLength?_eq_div h hp
  have hover := length_overshoots hroom hroot ht
  have hadd := add_roomLeft_le radius d.step
  have hle := roomLeft_le radius d.step
  rw [coords_targetAt, self_dotProduct_add_smul]
  rw [reachSq_eq]
  linarith

theorem targetAt_le {full : K} (hx : d.InReach radius)
    (hfull : coords (d.targetAt full) ⬝ᵥ coords (d.targetAt full) ≤ reachSq n radius) (hpos : 0 < full)
    (h0 : 0 ≤ t) (hle : t ≤ full) : coords (d.targetAt t) ⬝ᵥ coords (d.targetAt t) ≤ reachSq n radius := by
  -- the shorter target lies between the step and the longer one
  have hblend : coords (d.targetAt t) =
      (1 - t / full) • coords d.step + (t / full) • coords (d.targetAt full) := by
    rw [coords_targetAt, coords_targetAt, smul_add, smul_smul, div_mul_cancel₀ _ hpos.ne', ← add_assoc, ← add_smul,
      sub_add_cancel, one_smul]
  rw [hblend]
  exact blend_le hx hfull (div_nonneg h0 hpos.le) ((div_le_one hpos).mpr hle)

theorem Sound.inReach_headFor (hs : d.Sound L) (hx : d.InReach radius)
    (htarget : coords (d.targetAt t) ⬝ᵥ coords (d.targetAt t) ≤ reachSq n radius) (v : K) (how : StageEnd) :
    (d.headFor L stage t v how).2.InReach radius := by
  obtain ⟨h0, h1, -⟩ := fraction_fits hs.balanced.nonneg (d.multipliersAt L stage v (d.targetAt t)) (stage.width m)
  have hmoved : ∀ {ratio : K}, 0 ≤ ratio → ratio ≤ 1 →
      (d.moveTowards stage ratio (d.targetAt t) (d.multipliersAt L stage v (d.targetAt t)) v).InReach radius := by
    intro ratio h0 h1
    unfold InReach
    rw [coords_moveTowards]
    exact blend_le hx htarget h0 h1
  unfold Draft.headFor
  dsimp only
  generalize fraction d.active _ _ = found at h0 h1 ⊢
  obtain ⟨ratio, blocked⟩ := found
  cases blocked with
  | none => exact hmoved h0 h1
  | some k => exact hmoved h0 h1

theorem Sound.inReach_advance (hs : d.Sound L) (h : d.Directed L stage) (hpos : 0 < d.active.size)
    (hx : d.InReach radius) : (d.advance L radius stage).2.InReach radius := by
  unfold Draft.advance
  cases hb : d.boundaryLength? radius with
  | none => exact hx
  | some full =>
    have hp := h.direction_ne hs hpos
    obtain ⟨hfull, -⟩ := boundaryLength?_reaches hb hp
    have hover := boundaryLength?_overshoots hb hp
    dsimp only
    split
    · exact hx
    · cases stage with
      | feasibility =>
        dsimp only
        rw [smaller_eq_min]
        have hle := targetAt_le hx hover hfull (le_min hfull.le hs.violation_nonneg) (min_le_left _ _)
        exact hs.inReach_headFor hx hle _ _
      | optimality => exact hs.inReach_headFor hx hover _ _

end Draft

/-! ## Whole stages -/

namespace Pass

variable {p : Pass K n m}

theorem Valid.inReach_run (h : p.Valid L stage) (hx : p.draft.InReach radius) :
    (p.run L radius stage).draft.InReach radius := by
  unfold Pass.run
  cases Progress.count? p.progress (p.value L stage) p.draft.active.size with
  | none => exact hx
  | some progress =>
    dsimp only
    rcases h.change with ⟨e, he, hchanged⟩ | ⟨-, e, he, hrefused⟩
    · rw [he]
      dsimp only
      have he : e.InReach radius := by
        unfold Draft.InReach
        rw [hchanged.step]
        exact hx
      have hadvance := hchanged.sound.inReach_advance hchanged.directed hchanged.pos he
      generalize e.advance L radius stage = out at hadvance ⊢
      obtain ⟨how, d⟩ := out
      cases how with
      | blocked k => exact hadvance
      | ended how => exact hadvance
    · rw [he]
      show coords e.step ⬝ᵥ coords e.step ≤ reachSq n radius
      rw [hrefused.step]
      exact hx

theorem Valid.inReach_runWithin {how : StageEnd} {e : Draft K n m} :
    ∀ (fuel : Nat) {p : Pass K n m}, p.Valid L stage → p.draft.InReach radius →
      p.runWithin L radius stage fuel = some (how, e) → e.InReach radius
  | 0, _, _, _, h => nomatch h
  | fuel + 1, p, hp, hx, h => by
    have hran := hp.run radius
    have hreach := hp.inReach_run hx
    unfold runWithin at h
    generalize p.run L radius stage = result at h hran hreach
    cases result with
    | ended how' e' =>
      cases h
      exact hreach
    | next q =>
      cases hran with
      | next hq _ => exact inReach_runWithin fuel hq hreach h

end Pass

/-! ## The step found -/

namespace Linearization

theorem inReach_firstDraft (L : Linearization K n m) (radius : K) : L.firstDraft.InReach radius := by
  show coords (zeroVec n) ⬝ᵥ coords (zeroVec n) ≤ reachSq n radius
  rw [coords_zeroVec, dotProduct_zero]
  exact mul_nonneg (mul_self_nonneg _) (by positivity)

theorem optimizeWithin_inReach {d : Draft K n m} (h : Pass.Settled L d) (hx : d.InReach radius) {fuel : Nat}
    {s : Step K n} (hs : L.optimizeWithin radius d fuel = some s) : normSq s.move ≤ reachSq n radius := by
  unfold optimizeWithin at hs
  cases hrun : (openOptimality d).runWithin L radius .optimality fuel with
  | none => rw [hrun] at hs; cases hs
  | some result =>
    obtain ⟨how, e⟩ := result
    rw [hrun] at hs
    cases hs
    rw [normSq_eq]
    exact (valid_openOptimality h).inReach_runWithin fuel hx hrun

theorem solveWithin_inReach (hr : 0 < radius) {fuel : Nat} {s : Step K n}
    (hs : L.solveWithin radius fuel = some s) :
    normSq s.move ≤ radius * radius * (1 + (n + 2) / 10 ^ 12) := by
  rw [← reachSq_eq]
  have hfirst := L.inReach_firstDraft radius
  unfold solveWithin at hs
  cases hmost : L.mostViolated.1 with
  | none =>
    rw [hmost] at hs
    exact optimizeWithin_inReach L.settled_firstDraft hfirst hs
  | some k =>
    rw [hmost] at hs
    dsimp only at hs
    cases hrun : (⟨L.firstDraft, k, none⟩ : Pass K n m).runWithin L radius .feasibility fuel with
    | none => rw [hrun] at hs; cases hs
    | some result =>
      obtain ⟨how, d⟩ := result
      have hsettled := ((valid_firstPass hmost).runWithin_feasibility hr fuel hrun).1
      have hd := (valid_firstPass hmost).inReach_runWithin fuel hfirst hrun
      rw [hrun] at hs
      cases how with
      | boundary =>
        cases hs
        rw [normSq_eq]
        exact hd
      | feasible => exact optimizeWithin_inReach hsettled hd hs
      | stalled => exact optimizeWithin_inReach hsettled hd hs

theorem radius_le_of_isFull (hr : 0 < radius) {fuel : Nat} {s : Step K n}
    (hs : L.solveWithin radius fuel = some s) (hfull : s.isFull = true) :
    radius ≤ Scalar.sqrt (normSq s.move) := by
  obtain ⟨e, -, hstep, -, -, hout⟩ := solveWithin_spec hr hs
  refine le_sqrt (normSq_nonneg _) ?_
  rw [normSq_eq, ← hstep]
  exact hout hfull

end Linearization

end

end TrustSimplex
