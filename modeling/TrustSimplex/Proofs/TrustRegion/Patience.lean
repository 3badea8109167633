import TrustSimplex.Proofs.Double
import TrustSimplex.Proofs.TrustRegion.Arrangement

/-!
# Patience

Without a new record, each pass of a stage uses up some of its patience or widens the active set, and the set can widen no
further than the number of variables. So a stage records again soon or gives up, whatever its scalars are, and its records
fall. Where only finitely many values are below one another, as with doubles, every stage therefore ends.
-/

namespace TrustSimplex

section
variable {α : Type} [Scalar α] {n m : Nat} {L : Linearization α n m} {radius : α} {stage : Stage}

/-! ## The size of the active set -/

theorem ActiveSet.size_enter_le {s : ActiveSet α n m} (h : s.size ≤ n) (k : Nat) : (s.enter L k).2.size ≤ n := by
  have hentering := entering L s k
  generalize s.enter L k = out at hentering
  cases hentering with
  | grown hn _ => exact hn
  | locked => exact h
  | @replaced r q own ratio _ hsize _ _ _ _ =>
    have hmoved := r.size_moveToEnd L q
    exact (hmoved.trans hsize).trans_le h
  | @spoiled r q _ hsize _ _ =>
    rw [size_moveToEnd, hsize]
    exact h

namespace Pass

variable {p q : Pass α n m}

theorem size_change_le (h : p.draft.active.size ≤ n) : (p.change L stage).2.active.size ≤ n := by
  have henter := ActiveSet.size_enter_le (L := L) h p.position
  unfold change
  split
  · have hleft : (p.draft.remove L stage p.position).active = p.draft.active.leave L p.position := by
      cases stage <;> rfl
    rw [hleft, ActiveSet.size_leave]
    exact (Nat.sub_le _ _).trans h
  · cases stage with
    | feasibility => rwa [(Draft.active_add_feasibility p.draft p.position).2]
    | optimality =>
      rw [(Draft.active_add_optimality p.draft p.position).2]
      split
      · exact henter
      · rwa [ActiveSet.size_exchange]

theorem size_run_le (h : p.draft.active.size ≤ n) {result : PassResult α n m} (hrun : p.run L radius stage = result) :
    result.draft.active.size ≤ n := by
  have hchange : (p.change L stage).2.active.size ≤ n := p.size_change_le h
  subst hrun
  unfold run
  cases Progress.count? p.progress (p.value L stage) p.draft.active.size with
  | none => exact h
  | some progress =>
    dsimp only
    generalize p.change L stage = changed at hchange
    obtain ⟨_ | _, d⟩ := changed
    · exact hchange
    · have hsize := (d.advance_keeps L radius stage).2.1
      dsimp only
      generalize d.advance L radius stage = out at hsize
      obtain ⟨_ | _, e⟩ := out <;> exact hsize.trans_le hchange

end Pass

/-! ## Counting -/

namespace Progress

variable {before : Option (Progress α)} {c c' : Progress α} {value : α} {size : Nat}

/-- A bound of the passes without a new record that a count still lets pass. -/
def allowance (n : Nat) (c : Progress α) : Nat := 3 * (n - c.widest) + (c.patience - 1)

omit [Scalar α] in
theorem allowance_le (h : c.patience ≤ 3) : c.allowance n ≤ 3 * n + 2 := by
  unfold allowance
  omega

theorem patience_le (h : ∀ c ∈ before, c.patience ≤ 3) (hcount : count? before value size = some c') :
    c'.patience ≤ 3 := by
  cases before with
  | none =>
    cases hcount
    exact le_rfl
  | some c =>
    have hc := h c rfl
    simp only [count?] at hcount
    split_ifs at hcount <;> cases hcount
    · exact le_rfl
    · exact le_rfl
    · exact (Nat.sub_le _ _).trans hc

theorem count?_of_lt (h : ∀ c ∈ before, value < c.record) : count? before value size = some ⟨value, size, 3⟩ := by
  cases before with
  | none => rfl
  | some c => exact if_pos (h c rfl)

/-- A pass without a new record uses up some of what its count allows. -/
theorem count?_of_not_lt (hsize : size ≤ n) (hlt : ¬ value < c.record) (hcount : count? (some c) value size = some c') :
    c'.record = c.record ∧ c'.allowance n < c.allowance n := by
  simp only [count?, if_neg hlt] at hcount
  unfold allowance
  split_ifs at hcount with hwider hlast
  · cases hcount
    exact ⟨rfl, by dsimp only; omega⟩
  · cases hcount
    exact ⟨rfl, by dsimp only; omega⟩

end Progress

namespace Linearization

theorem Reaches.size_le {p : Pass α n m} (h : L.Reaches radius stage p) : p.draft.active.size ≤ n := by
  induction h with
  | violated => exact Nat.zero_le n
  | satisfied => exact Nat.zero_le n
  | next _ hrun ih => exact Pass.size_run_le ih hrun
  | settled _ hrun _ ih => exact Pass.size_run_le ih hrun

theorem Reaches.patience_le {p : Pass α n m} (h : L.Reaches radius stage p) : ∀ c ∈ p.progress, c.patience ≤ 3 := by
  induction h with
  | violated => exact nofun
  | satisfied => exact nofun
  | next _ hrun ih =>
    intro c hc
    exact Progress.patience_le ih ((Pass.progress_of_next hrun).1.symm.trans hc)
  | settled => exact nofun

end Linearization

/-! ## Records -/

namespace Pass

variable {p q : Pass α n m} {c : Progress α}

def records (L : Linearization α n m) (stage : Stage) (p : Pass α n m) : Bool :=
  p.progress.all fun c => p.value L stage < c.record

def Idles (L : Linearization α n m) (stage : Stage) (p : Pass α n m) : Prop :=
  p.records L stage = false ∧ Progress.count? p.progress (p.value L stage) p.draft.active.size ≠ none

def Consecutive (L : Linearization α n m) (radius : α) (stage : Stage) (passes : List (Pass α n m)) : Prop :=
  passes.IsChain fun p q => p.run L radius stage = .next q

theorem lt_of_records (h : p.records L stage = true) (hc : p.progress = some c) : p.value L stage < c.record := by
  simpa [records, hc] using h

theorem exists_of_not_records (h : p.records L stage = false) : ∃ c, p.progress = some c ∧ ¬ p.value L stage < c.record := by
  cases hc : p.progress with
  | none => simp [records, hc] at h
  | some c => exact ⟨c, rfl, by simpa [records, hc] using h⟩

theorem count?_of_records (h : p.records L stage = true) (size : Nat) :
    Progress.count? p.progress (p.value L stage) size = some ⟨p.value L stage, size, 3⟩ :=
  Progress.count?_of_lt fun _ hc => lt_of_records h hc

theorem progress_of_records (h : p.records L stage = true) (hrun : p.run L radius stage = .next q) :
    q.progress = some ⟨p.value L stage, p.draft.active.size, 3⟩ :=
  (progress_of_next hrun).1.trans (count?_of_records h _)

theorem progress_of_not_records (hsize : p.draft.active.size ≤ n) (h : p.records L stage = false)
    (hrun : p.run L radius stage = .next q) : ∃ c c', p.progress = some c ∧ q.progress = some c' ∧
      c'.record = c.record ∧ c'.allowance n < c.allowance n := by
  obtain ⟨c, hc, hlt⟩ := exists_of_not_records h
  obtain ⟨hcount, hsome⟩ := progress_of_next hrun
  obtain ⟨c', hc'⟩ := Option.ne_none_iff_exists'.mp hsome
  rw [hc, hc'] at hcount
  exact ⟨c, c', hc, hc', Progress.count?_of_not_lt hsize hlt hcount.symm⟩

theorem length_le_allowance : ∀ {passes : List (Pass α n m)} {p : Pass α n m},
    (∀ q ∈ p :: passes, q.draft.active.size ≤ n) → Consecutive L radius stage (p :: passes) →
      (∀ q ∈ p :: passes, q.Idles L stage) → ∃ c, p.progress = some c ∧ (p :: passes).length ≤ c.allowance n
  | [], p, hsize, _, hidle => by
    obtain ⟨hrecords, hsome⟩ := hidle p (by simp)
    obtain ⟨c, hc, hlt⟩ := exists_of_not_records hrecords
    obtain ⟨c', hcount⟩ := Option.ne_none_iff_exists'.mp hsome
    rw [hc] at hcount
    exact ⟨c, hc, Nat.zero_lt_of_lt (Progress.count?_of_not_lt (hsize p (by simp)) hlt hcount).2⟩
  | q :: passes, p, hsize, hchain, hidle => by
    obtain ⟨hrun, hchain⟩ := List.isChain_cons_cons.mp hchain
    obtain ⟨c, c', hc, hc', -, hlt⟩ := progress_of_not_records (hsize p (by simp)) (hidle p (by simp)).1 hrun
    -- the passes behind are bounded by what the next count allows, which is less than what this one does
    obtain ⟨c'', hc'', hlength⟩ := length_le_allowance (fun r hr => hsize r (by simp [hr])) hchain
      fun r hr => hidle r (by simp [hr])
    rw [hc'] at hc''
    cases hc''
    exact ⟨c, hc, hlength.trans_lt hlt⟩

def recorded (L : Linearization α n m) (stage : Stage) (passes : List (Pass α n m)) : List α :=
  (passes.filter (records L stage)).map (value L stage)

theorem recorded_cons (p : Pass α n m) (passes : List (Pass α n m)) : recorded L stage (p :: passes) =
    if p.records L stage then p.value L stage :: recorded L stage passes else recorded L stage passes := by
  unfold recorded
  rw [List.filter_cons]
  split <;> rfl

theorem isChain_recorded_of_progress : ∀ {passes : List (Pass α n m)} {p : Pass α n m} {c : Progress α},
    (∀ q ∈ p :: passes, q.draft.active.size ≤ n) → Consecutive L radius stage (p :: passes) → p.progress = some c →
      (c.record :: recorded L stage (p :: passes)).IsChain fun v w => w < v
  | [], p, c, _, _, hc => by
    rw [recorded_cons]
    split_ifs with hrecords
    · exact List.isChain_cons_cons.mpr ⟨lt_of_records hrecords hc, List.isChain_singleton _⟩
    · exact List.isChain_singleton _
  | q :: passes, p, c, hsize, hchain, hc => by
    obtain ⟨hrun, hchain⟩ := List.isChain_cons_cons.mp hchain
    have hsize' : ∀ r ∈ q :: passes, r.draft.active.size ≤ n := fun r hr => hsize r (by simp [hr])
    rw [recorded_cons]
    cases hrecords : p.records L stage with
    | true =>
      have hrest := isChain_recorded_of_progress hsize' hchain (progress_of_records hrecords hrun)
      exact List.isChain_cons_cons.mpr ⟨lt_of_records hrecords hc, hrest⟩
    | false =>
      obtain ⟨c₀, c', hc₀, hc', hrecord, -⟩ := progress_of_not_records (hsize p (by simp)) hrecords hrun
      rw [hc] at hc₀
      cases hc₀
      have hrest := isChain_recorded_of_progress hsize' hchain hc'
      rwa [hrecord] at hrest

theorem isChain_recorded {passes : List (Pass α n m)} (hsize : ∀ p ∈ passes, p.draft.active.size ≤ n)
    (hchain : Consecutive L radius stage passes) : (recorded L stage passes).IsChain fun v w => w < v := by
  cases passes with
  | nil => exact List.isChain_nil
  | cons p passes =>
    cases hc : p.progress with
    | some c => exact (isChain_recorded_of_progress hsize hchain hc).tail
    | none =>
      have hrecords : p.records L stage = true := by simp [records, hc]
      rw [recorded_cons, if_pos hrecords]
      cases passes with
      | nil => exact List.isChain_singleton _
      | cons q passes =>
        obtain ⟨hrun, hchain⟩ := List.isChain_cons_cons.mp hchain
        exact isChain_recorded_of_progress (fun r hr => hsize r (by simp [hr])) hchain (progress_of_records hrecords hrun)

end Pass

/-! ## Stages end -/

section
variable {rank : α → Nat} (hrank : ∀ {x y : α}, x < y → rank x < rank y)
include hrank

/-- A count bounds the passes to come: each record is of a lower rank, with at most `3 * n + 2` others in between. -/
theorem Linearization.Reaches.isSome_of_progress : ∀ (fuel : Nat) {p : Pass α n m} {c : Progress α},
    L.Reaches radius stage p → p.progress = some c → rank c.record * (3 * n + 3) + c.allowance n < fuel →
      (p.runWithin L radius stage fuel).isSome
  | fuel + 1, p, c, h, hc, hfuel => by
    unfold Pass.runWithin
    cases hrun : p.run L radius stage with
    | ended how d => rfl
    | next q =>
      dsimp only
      cases hrecords : p.records L stage with
      -- the allowance starts again, but for a record of a lower rank
      | true =>
        have hlt := Nat.mul_le_mul_right (3 * n + 3) (hrank (Pass.lt_of_records hrecords hc))
        refine isSome_of_progress fuel (h.next hrun) (Pass.progress_of_records hrecords hrun) ?_
        have hallowance : Progress.allowance n (⟨p.value L stage, p.draft.active.size, 3⟩ : Progress α) ≤ 3 * n + 2 :=
          Progress.allowance_le le_rfl
        rw [Nat.succ_mul] at hlt
        dsimp only
        omega
      | false =>
        obtain ⟨c₀, c', hc₀, hc', hrecord, hlt⟩ := Pass.progress_of_not_records h.size_le hrecords hrun
        rw [hc] at hc₀
        cases hc₀
        refine isSome_of_progress fuel (h.next hrun) hc' ?_
        rw [hrecord]
        omega

theorem Linearization.Reaches.isSome_runWithin {greatest : Nat} (hle : ∀ x, rank x ≤ greatest) {p : Pass α n m}
    (h : L.Reaches radius stage p) :
    (p.runWithin L radius stage ((greatest + 2) * (3 * n + 3))).isSome := by
  have hbound : ∀ c : Progress α, c.patience ≤ 3 →
      rank c.record * (3 * n + 3) + c.allowance n + 1 < (greatest + 2) * (3 * n + 3) := fun c hc => by
    have hrecord := Nat.mul_le_mul_right (3 * n + 3) (hle c.record)
    have hallowance := Progress.allowance_le (n := n) hc
    rw [Nat.add_mul]
    omega
  -- a first pass has no count before it, and takes one more than its own count allows
  cases hc : p.progress with
  | some c => exact h.isSome_of_progress hrank _ hc (Nat.lt_of_succ_lt (hbound c (h.patience_le c hc)))
  | none =>
    have hrecords : p.records L stage = true := by simp [Pass.records, hc]
    have hfirst := hbound ⟨p.value L stage, p.draft.active.size, 3⟩ le_rfl
    obtain ⟨fuel, hfuel⟩ := Nat.exists_eq_add_of_lt (Nat.zero_lt_of_lt hfirst)
    rw [Nat.zero_add] at hfuel
    rw [hfuel] at hfirst ⊢
    unfold Pass.runWithin
    cases hrun : p.run L radius stage with
    | ended how d => rfl
    | next q =>
      exact (h.next hrun).isSome_of_progress hrank _ (Pass.progress_of_records hrecords hrun) (Nat.lt_of_succ_lt_succ hfirst)

end

/-! ## The search returns -/

/-- With fuel on which every stage ends, so do the two of them. -/
theorem Linearization.isSome_solveWithin {fuel : Nat} (h : ∀ {stage : Stage} {p : Pass α n m},
    L.Reaches radius stage p → (p.runWithin L radius stage fuel).isSome) : (L.solveWithin radius fuel).isSome := by
  have hopt : ∀ {d : Draft α n m}, L.Reaches radius .optimality (openOptimality d) →
      (L.optimizeWithin radius d fuel).isSome := fun {d} hd => by
    obtain ⟨⟨how, e⟩, he⟩ := Option.isSome_iff_exists.mp (h hd)
    simp [optimizeWithin, he]
  unfold solveWithin
  cases hmost : L.mostViolated.1 with
  | none => exact hopt (.satisfied hmost)
  | some k =>
    have hreaches : L.Reaches radius .feasibility ⟨L.firstDraft, k, none⟩ := .violated hmost
    obtain ⟨⟨how, d⟩, hran⟩ := Option.isSome_iff_exists.mp (h hreaches)
    obtain ⟨q, hq, hrun⟩ := hreaches.exists_last fuel hran
    dsimp only
    rw [hran]
    cases how with
    | boundary => rfl
    | feasible => exact hopt (.settled hq hrun nofun)
    | stalled => exact hopt (.settled hq hrun nofun)

end

/-- At most `3 * n + 2` passes in a row go on without a new record and the records fall, whatever the scalars are. On doubles
every stage therefore ends, and the search returns a step. -/
theorem search_returns (n m : Nat) :
    (∀ {α : Type} [Scalar α] (L : Linearization α n m) (radius : α) (stage : Stage) (passes : List (Pass α n m)),
      (∀ p ∈ passes, L.Reaches radius stage p) → Pass.Consecutive L radius stage passes →
        ((∀ p ∈ passes, p.Idles L stage) → passes.length ≤ 3 * n + 2) ∧
          (Pass.recorded L stage passes).IsChain fun v w => w < v) ∧
      ∀ (L : Linearization Float n m) (radius : Float),
        (∀ (stage : Stage) (p : Pass Float n m), L.Reaches radius stage p →
          (p.runWithin L radius stage (passLimit n)).isSome) ∧ (L.solve radius).isSome := by
  refine ⟨fun {α} _ L radius stage passes hreaches hchain => ?_, fun L radius => ?_⟩
  · have hsize : ∀ p ∈ passes, p.draft.active.size ≤ n := fun p hp => (hreaches p hp).size_le
    refine ⟨fun hidle => ?_, Pass.isChain_recorded hsize hchain⟩
    cases passes with
    | nil => exact Nat.zero_le _
    | cons p passes =>
      obtain ⟨c, hc, hlength⟩ := Pass.length_le_allowance hsize hchain hidle
      exact hlength.trans (Progress.allowance_le ((hreaches p (by simp)).patience_le c hc))
  · have hends : ∀ {stage : Stage} {p : Pass Float n m}, L.Reaches radius stage p →
        (p.runWithin L radius stage (passLimit n)).isSome := fun {stage p} h => by
      have hsome := h.isSome_runWithin Double.rank_lt_rank fun x => Nat.le_sub_of_add_le (Double.rank_add_two_le x)
      rw [Nat.mul_comm] at hsome
      exact hsome
    exact ⟨fun _ _ => hends, L.isSome_solveWithin hends⟩

/-- Two constraints that are violated alike: the second one blocks the first pass before it makes a step. -/
def twinModel : Linearization Float 2 2 := ⟨⟨#v[#v[2, 0], #v[0, 2], #v[0, 0]]⟩, #v[1, 1, 0]⟩

theorem search_returns_twin : ∃ q, Pass.run twinModel 1 .feasibility ⟨twinModel.firstDraft, 0, none⟩ = .next q ∧
    q.Idles twinModel .feasibility ∧ [q].length ≤ 3 * 2 + 2 ∧
      (Pass.recorded twinModel .feasibility [⟨twinModel.firstDraft, 0, none⟩, q]).IsChain (fun v w => w < v) ∧
      (twinModel.solve 1).isSome := by
  have hmost : twinModel.mostViolated.1 = some 0 := by decide +kernel
  have hidles : (match Pass.run twinModel 1 .feasibility ⟨twinModel.firstDraft, 0, none⟩ with
      | .next q => !q.records twinModel .feasibility &&
        (Progress.count? q.progress (q.value twinModel .feasibility) q.draft.active.size).isSome
      | .ended _ _ => false) = true := by decide +kernel
  obtain ⟨hpasses, hreturns⟩ := search_returns 2 2
  have hfirst : twinModel.Reaches 1 .feasibility ⟨twinModel.firstDraft, 0, none⟩ := .violated hmost
  cases hrun : Pass.run twinModel 1 .feasibility ⟨twinModel.firstDraft, 0, none⟩ with
  | ended how d => simp [hrun] at hidles
  | next q =>
    have hq : twinModel.Reaches 1 .feasibility q := hfirst.next hrun
    have hidles : q.Idles twinModel .feasibility := by
      simpa [hrun, Pass.Idles, Option.isSome_iff_ne_none] using hidles
    refine ⟨q, rfl, hidles, ?_, ?_, (hreturns twinModel 1).2⟩
    · exact (hpasses twinModel 1 .feasibility [q] (by simpa using hq) (List.isChain_singleton q)).1 (by simpa using hidles)
    · exact (hpasses twinModel 1 .feasibility [_, q] (by simpa using ⟨hfirst, hq⟩)
        (List.isChain_cons_cons.mpr ⟨hrun, List.isChain_singleton q⟩)).2

end TrustSimplex
