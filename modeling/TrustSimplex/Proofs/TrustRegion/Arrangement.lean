import TrustSimplex.Proofs.TrustRegion.Heading

/-!
# Where the objective stands

At the top of every pass the constraints stand in some order, and the position of the pass takes part in its stage. The
first stage leaves the objective apart; from the second pass of the second stage on it is the last active constraint, and
no pass removes it. All of this holds whatever the arithmetic yields, as long as the greater of zero and another value is
not below zero.
-/

namespace TrustSimplex

class ClampsAtZero (α : Type) [Scalar α] : Prop where
  not_larger_lt (x : α) : ¬ larger 0 x < 0

instance {K : Type} [EuclideanField K] : ClampsAtZero K where
  not_larger_lt x := by
    rw [larger_eq_max]
    exact not_lt.mpr (le_max_left 0 x)

section
variable {α : Type} [Scalar α] {n m : Nat} {L : Linearization α n m} {radius : α} {stage : Stage}

def ActiveSet.Follows (s : ActiveSet α n m) : Stage → Prop
  | .feasibility => s.ObjectiveApart
  | .optimality => s.ObjectiveLast

omit [Scalar α] in
theorem ActiveSet.Follows.of_order {s t : ActiveSet α n m} (h : s.Follows stage) (horder : t.order = s.order)
    (hsize : t.size = s.size) : t.Follows stage := by
  have hc := constraintAt_of_order horder
  cases stage with
  | feasibility => exact ⟨by rw [hc]; exact h.1, by rw [hsize]; exact h.2⟩
  | optimality => exact ⟨by rw [hsize]; exact h.1, by rw [last, hsize, hc]; exact h.2⟩

/-! ## Changing the active set -/

namespace Draft

variable {d : Draft α n m} {k : Nat}

theorem active_add_feasibility (d : Draft α n m) (k : Nat) :
    (d.add L .feasibility k).1 = (d.active.enter L k).1 ∧
      (d.add L .feasibility k).2.active = (d.active.enter L k).2 := by
  unfold add
  generalize d.active.enter L k = out
  obtain ⟨_ | _, s⟩ := out <;> exact ⟨rfl, rfl⟩

theorem active_add_optimality (d : Draft α n m) (k : Nat) :
    (d.add L .optimality k).1 = (d.active.enter L k).1 ∧
      (d.add L .optimality k).2.active =
        if (d.active.enter L k).1 = false ∨ d.active.constraintAt k = Fin.last m then (d.active.enter L k).2
        else (d.active.enter L k).2.exchange L ((d.active.enter L k).2.last - 1) := by
  unfold add
  generalize d.active.enter L k = out
  obtain ⟨_ | _, s⟩ := out
  · exact ⟨rfl, rfl⟩
  · refine ⟨rfl, ?_⟩
    by_cases hobj : d.active.constraintAt k = Fin.last m <;> simp [hobj, objectiveDirection]

theorem arranged_add_feasibility (h : d.active.Arranged) (ha : d.active.ObjectiveApart) (hk : d.active.size ≤ k)
    (hkm : k < m) : (d.add L .feasibility k).2.active.Arranged ∧ (d.add L .feasibility k).2.active.ObjectiveApart := by
  obtain ⟨ht, hin, hout⟩ := h.enter (L := L) hk (by omega)
  rw [(active_add_feasibility d k).2]
  refine ⟨ht, ?_⟩
  cases hb : (d.active.enter L k).1 with
  | true =>
    have hadmitted := hin hb
    exact ⟨(hadmitted.above m hkm).trans ha.1, hadmitted.size_le.trans hkm⟩
  | false =>
    obtain ⟨hsize, hbehind⟩ := hout hb
    exact ⟨(hbehind m ha.2).trans ha.1, hsize ▸ ha.2⟩

theorem arranged_add_optimality (h : d.active.Arranged)
    (hturn : (d.active.ObjectiveApart ∧ k = m) ∨ (d.active.ObjectiveLast ∧ d.active.size ≤ k ∧ k < m + 1)) :
    (d.add L .optimality k).2.active.Arranged ∧
      ((d.add L .optimality k).1 = true → (d.add L .optimality k).2.active.ObjectiveLast) := by
  have hk : d.active.size ≤ k ∧ k < m + 1 := by
    rcases hturn with ⟨ha, rfl⟩ | ⟨-, hk⟩
    · exact ⟨ha.2, Nat.lt_succ_self k⟩
    · exact hk
  obtain ⟨ht, hin, -⟩ := h.enter (L := L) hk.1 hk.2
  obtain ⟨hb, hactive⟩ := active_add_optimality (L := L) d k
  rw [hb, hactive]
  cases hentered : (d.active.enter L k).1 with
  | false => simpa using ht
  | true =>
    have hadmitted := hin hentered
    by_cases hobj : d.active.constraintAt k = Fin.last m
    · rw [if_pos (Or.inr hobj)]
      exact ⟨ht, fun _ => ⟨hadmitted.pos, hadmitted.entrant.trans hobj⟩⟩
    · rw [if_neg (by simp [hobj])]
      have hlast : d.active.ObjectiveLast := by
        rcases hturn with ⟨ha, rfl⟩ | ⟨hlast, -⟩
        · exact absurd ha.1 hobj
        · exact hlast
      obtain ⟨hpos, hbefore⟩ := hadmitted.objective hlast.1 hlast.2
      refine ⟨ht.exchange (by unfold ActiveSet.last at hpos ⊢; omega), fun _ => ?_⟩
      exact ActiveSet.objectiveLast_exchange ht.size_le hpos hbefore

theorem arranged_remove (h : d.active.Arranged) (hf : d.active.Follows stage) (hk : d.active.size > k)
    (hlast : stage = .optimality → k ≠ d.active.last) :
    (d.remove L stage k).active.Arranged ∧ (d.remove L stage k).active.Follows stage := by
  have hleft := h.leave (L := L) hk
  cases stage with
  | feasibility => exact ⟨hleft, ActiveSet.ObjectiveApart.leave hf h.size_le hk⟩
  | optimality =>
    have hne := hlast rfl
    exact ⟨hleft, ActiveSet.ObjectiveLast.leave hf h.size_le (by unfold ActiveSet.last at hne; omega)⟩

/-! ## Taking the step -/

/-- What blocks takes part in the stage, and is not the objective in the second. -/
theorem blocked_lt [ClampsAtZero α] (h : d.active.Arranged) (hf : d.active.Follows stage) {k : Nat}
    (hb : (d.advance L radius stage).1 = .blocked k) :
    k < stage.width m ∧ (stage = .optimality → k ≠ d.active.last) := by
  rcases advance_cases L radius stage d with ⟨how, he⟩ | ⟨t, v, how, -, he⟩
  · rw [he] at hb
    cases hb
  · rw [he] at hb
    obtain ⟨hlt, hneg⟩ := fraction_blocked _ _ _ (fraction_of_headFor hb)
    refine ⟨hlt, fun hstage hk => ?_⟩
    subst hstage hk
    rw [multipliersAt_last d v _ hf.1 h.size_le] at hneg
    exact ClampsAtZero.not_larger_lt _ hneg

end Draft

/-! ## One pass -/

namespace Pass

variable {p q : Pass α n m}

def Stands : Stage → Pass α n m → Prop
  | .feasibility, p => p.draft.active.ObjectiveApart
  | .optimality, p => (p.progress = none ∧ p.draft.active.ObjectiveApart ∧ p.position = m) ∨
      (p.progress ≠ none ∧ p.draft.active.ObjectiveLast ∧ p.position ≠ p.draft.active.last)

structure Placed (stage : Stage) (p : Pass α n m) : Prop where
  arranged : p.draft.active.Arranged
  position_lt : p.position < stage.width m
  stands : p.Stands stage

omit [Scalar α] in
/-- The constraints of a stage stand at its leading positions, each at one. -/
theorem Placed.perm_leading (h : p.Placed stage) :
    ((List.range (stage.width m)).map fun k => (p.draft.active.constraintAt k).val).Perm
      (List.range (stage.width m)) := by
  have hw : stage.width m ≤ m + 1 := Stage.width_le
  refine List.Subperm.perm_of_length_le (List.subperm_of_subset ?_ ?_) (by simp)
  · refine List.Nodup.map_on (fun i hi j hj e => ?_) List.nodup_range
    rw [List.mem_range] at hi hj
    exact h.arranged.distinct i (by omega) j (by omega) (Fin.ext e)
  · intro c hc
    obtain ⟨k, hk, rfl⟩ := List.mem_map.mp hc
    rw [List.mem_range] at hk ⊢
    cases stage with
    | feasibility =>
      have hk : k < m := hk
      refine lt_of_le_of_ne (Fin.le_last _) fun e => ?_
      have := h.arranged.eq_of_apart h.stands (by omega) (Fin.ext e)
      omega
    | optimality => exact Fin.isLt _

omit [Scalar α] in
theorem Placed.size_le_width (h : p.Placed stage) : p.draft.active.size ≤ stage.width m := by
  cases stage with
  | feasibility => exact h.stands.2
  | optimality => exact h.arranged.size_le

omit [Scalar α] in
theorem Placed.objectiveLast (h : p.Placed stage) (hstage : stage = .optimality)
    (hobj : p.draft.active.constraintAt p.position ≠ Fin.last m) : p.draft.active.ObjectiveLast := by
  subst hstage
  rcases h.stands with ⟨-, hapart, hm⟩ | ⟨-, hlast, -⟩
  · rw [hm] at hobj
    exact absurd hapart.1 hobj
  · exact hlast

omit [Scalar α] in
theorem Placed.follows (h : p.Placed stage) (hk : p.position < p.draft.active.size) : p.draft.active.Follows stage ∧
    (stage = .optimality → p.position ≠ p.draft.active.last) := by
  obtain ⟨-, -, hstands⟩ := h
  cases stage with
  | feasibility => exact ⟨hstands, nofun⟩
  | optimality =>
    rcases hstands with ⟨-, hapart, hm⟩ | ⟨-, hlast, hne⟩
    · have := hapart.2
      omega
    · exact ⟨hlast, fun _ => hne⟩

theorem Placed.change (h : p.Placed stage) :
    (p.change L stage).2.active.Arranged ∧
      ((p.change L stage).1 = true → (p.change L stage).2.active.Follows stage) ∧
      (stage = .feasibility → (p.change L stage).2.active.ObjectiveApart) := by
  have ⟨harranged, hlt, hstands⟩ := h
  unfold Pass.change
  by_cases hk : p.position < p.draft.active.size
  · rw [if_pos hk]
    have hfollows := h.follows hk
    obtain ⟨h₁, h₂⟩ := Draft.arranged_remove (L := L) harranged hfollows.1 hk hfollows.2
    refine ⟨h₁, fun _ => h₂, fun e => ?_⟩
    subst e
    exact h₂
  · rw [if_neg hk]
    have hk := Nat.not_lt.mp hk
    cases stage with
    | feasibility =>
      obtain ⟨h₁, h₂⟩ := Draft.arranged_add_feasibility (L := L) harranged hstands hk hlt
      exact ⟨h₁, fun _ => h₂, fun _ => h₂⟩
    | optimality =>
      obtain ⟨h₁, h₂⟩ := Draft.arranged_add_optimality (L := L) (k := p.position) harranged
        (hstands.imp (fun h => h.2) fun h => ⟨h.2.1, hk, hlt⟩)
      exact ⟨h₁, h₂, nofun⟩

theorem progress_of_next {radius : α} (h : p.run L radius stage = .next q) :
    q.progress = Progress.count? p.progress (p.value L stage) p.draft.active.size ∧ q.progress ≠ none := by
  unfold Pass.run at h
  cases hcount : Progress.count? p.progress (p.value L stage) p.draft.active.size with
  | none => simp [hcount] at h
  | some progress =>
    simp only [hcount] at h
    split at h
    · cases h
    · split at h
      · cases h
        exact ⟨rfl, nofun⟩
      · cases h

inductive InOrder (stage : Stage) : PassResult α n m → Prop
  | next {q : Pass α n m} (hq : q.Placed stage) : InOrder stage (.next q)
  | ended {how : StageEnd} {d : Draft α n m} (harranged : d.active.Arranged)
      (hapart : stage = .feasibility → d.active.ObjectiveApart) : InOrder stage (.ended how d)

theorem Placed.run [ClampsAtZero α] (h : p.Placed stage) (radius : α) : InOrder stage (p.run L radius stage) := by
  obtain ⟨harranged, hfollows, hapart⟩ := h.change (L := L)
  unfold Pass.run
  cases Progress.count? p.progress (p.value L stage) p.draft.active.size with
  | none =>
    refine .ended h.arranged fun e => ?_
    subst e
    exact h.stands
  | some progress =>
    dsimp only
    generalize p.change L stage = changed at harranged hfollows hapart
    obtain ⟨ok, d⟩ := changed
    cases ok with
    | false => exact .ended harranged hapart
    | true =>
      have hfollows : d.active.Follows stage := hfollows rfl
      have hblocked : ∀ k, (d.advance L radius stage).1 = .blocked k →
          k < stage.width m ∧ (stage = .optimality → k ≠ d.active.last) :=
        fun k => Draft.blocked_lt harranged hfollows
      obtain ⟨horder, hsize, -⟩ := d.advance_keeps L radius stage
      dsimp only
      generalize d.advance L radius stage = out at hblocked horder hsize
      obtain ⟨outcome, e⟩ := out
      have he : e.active.Arranged := harranged.of_order horder hsize
      have hf : e.active.Follows stage := hfollows.of_order horder hsize
      have hlast : e.active.last = d.active.last := congrArg (· - 1) hsize
      cases outcome with
      | ended how =>
        refine .ended he fun e' => ?_
        subst e'
        exact hf
      | blocked k =>
        -- the clamp keeps the multiplier of the objective from turning negative, so another position blocks
        obtain ⟨hk, hne⟩ := hblocked k rfl
        refine .next ⟨he, hk, ?_⟩
        cases stage with
        | feasibility => exact hf
        | optimality => exact Or.inr ⟨by simp, hf, by rw [hlast]; exact hne rfl⟩

end Pass

/-! ## The passes of a search -/

namespace Linearization

inductive Reaches (L : Linearization α n m) (radius : α) : Stage → Pass α n m → Prop
  | violated {k : Fin m} (h : L.mostViolated.1 = some k) : Reaches L radius .feasibility ⟨L.firstDraft, k, none⟩
  | satisfied (h : L.mostViolated.1 = none) : Reaches L radius .optimality (openOptimality L.firstDraft)
  | next {stage : Stage} {p q : Pass α n m} (hp : Reaches L radius stage p) (h : p.run L radius stage = .next q) :
      Reaches L radius stage q
  | settled {p : Pass α n m} {how : StageEnd} {d : Draft α n m} (hp : Reaches L radius .feasibility p)
      (h : p.run L radius .feasibility = .ended how d) (hend : how ≠ .boundary) :
      Reaches L radius .optimality (openOptimality d)

theorem Reaches.exists_last {how : StageEnd} {d : Draft α n m} :
    ∀ (fuel : Nat) {p : Pass α n m}, L.Reaches radius stage p →
      p.runWithin L radius stage fuel = some (how, d) →
      ∃ q, L.Reaches radius stage q ∧ q.run L radius stage = .ended how d
  | 0, _, _, h => nomatch h
  | fuel + 1, p, hp, h => by
    unfold Pass.runWithin at h
    cases hrun : p.run L radius stage with
    | ended how' d' =>
      rw [hrun] at h
      cases h
      exact ⟨p, hp, hrun⟩
    | next q =>
      rw [hrun] at h
      exact exists_last fuel (hp.next hrun) h

theorem constraintAt_firstDraft {k : Nat} (hk : k < m + 1) : L.firstDraft.active.constraintAt k = ⟨k, hk⟩ := by
  show (Vector.ofFn id).getD k (Fin.last m) = _
  simp [getD_eq, hk]

theorem objectiveApart_firstDraft (L : Linearization α n m) : L.firstDraft.active.ObjectiveApart :=
  ⟨constraintAt_firstDraft (Nat.lt_succ_self m), Nat.zero_le m⟩

theorem arranged_firstDraft (L : Linearization α n m) : L.firstDraft.active.Arranged := by
  refine ⟨Nat.zero_le n, Nat.zero_le _, ?_⟩
  intro i hi j hj e
  rw [constraintAt_firstDraft hi, constraintAt_firstDraft hj] at e
  exact congrArg Fin.val e

theorem constraintAt_openOptimality {d : Draft α n m} (h : d.active.constraintAt m = Fin.last m) :
    (openOptimality d).draft.active.constraintAt = d.active.constraintAt := by
  funext j
  show (d.active.order.setIfInBounds m (Fin.last m)).getD j (Fin.last m) = _
  rw [getD_setIfInBounds]
  split_ifs with hj
  · rw [← hj.1, h]
  · rfl

theorem placed_openOptimality {d : Draft α n m} (h : d.active.Arranged) (ha : d.active.ObjectiveApart) :
    (openOptimality d).Placed .optimality := by
  have hc := constraintAt_openOptimality ha.1
  refine ⟨⟨h.size_le_vars, h.size_le, ?_⟩, Nat.lt_succ_self m, Or.inl ⟨rfl, ⟨?_, ha.2⟩, rfl⟩⟩
  · rw [hc]
    exact h.distinct
  · rw [hc]
    exact ha.1

/-- At the top of every pass the order, the position and the objective are in place. -/
theorem Reaches.placed [ClampsAtZero α] {p : Pass α n m} (h : L.Reaches radius stage p) : p.Placed stage := by
  induction h with
  | violated hmost => exact ⟨L.arranged_firstDraft, Fin.isLt _, L.objectiveApart_firstDraft⟩
  | satisfied => exact placed_openOptimality L.arranged_firstDraft L.objectiveApart_firstDraft
  | next _ hrun ih =>
    have hran := ih.run (L := L) radius
    rw [hrun] at hran
    cases hran with
    | next hq => exact hq
  | settled _ hrun _ ih =>
    have hran := ih.run (L := L) radius
    rw [hrun] at hran
    cases hran with
    | ended harranged hapart => exact placed_openOptimality harranged (hapart rfl)

end Linearization

end

end TrustSimplex
