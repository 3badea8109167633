import TrustSimplex.Proofs.Simplex.Position

/-!
# Samples in two stores

A sample can be kept in two places, its values in one column for each vertex and its snapshot in a list of its
own. Each move of a vertex then moves both by different means: columns are copied and exchanged, snapshots are
pushed and swapped with that of the pole. `Simplex.Stored` makes the moves of a simplex and those of its stores
side by side, and `Simplex.Stored.agrees` shows that the stores say what the samples say.
-/

namespace TrustSimplex

/-! ## What the moves do to the samples -/

namespace Simplex

section
variable {α S : Type} {n m : Nat} {s : Simplex α S n m}

theorem sample?_push_eq {j : Fin n} (hj : s.others.size = j) (r : Sample α S m) :
    ({ s with others := s.others.push r } : Simplex α S n m).sample? =
      Function.update s.sample? (.other j) (some r) := by
  funext v
  cases v with
  | pole => exact (Function.update_of_ne (nofun : Vertex.pole ≠ .other j) _ _).symm
  | other i =>
    rw [sample?_other, Array.getElem?_push, hj]
    by_cases hij : i = j
    · rw [hij, if_pos rfl, Function.update_self]
    · rw [if_neg fun e => hij (Fin.ext e), Function.update_of_ne fun e => hij (Vertex.other.inj e)]
      rfl

theorem sample?_store_eq {j : Fin n} (hj : j < s.others.size) (r : Sample α S m) :
    (s.store j r).sample? = Function.update s.sample? (.other j) (some r) := by
  funext v
  rw [sample?_store s hj, Function.update_apply]

variable [Scalar α]

theorem sample?_pivotTo_eq (hfull : s.others.size = n) (v : Vertex n) :
    (s.pivotTo v).sample? = s.sample? ∘ Equiv.swap .pole v :=
  funext (sample?_pivotTo hfull v)

theorem extend_of_le {r : Sample α S m} (h : s.objective .pole ≤ r.objective) :
    s.extend r = { s with others := s.others.push r } :=
  if_pos h

theorem poleSample_extend {r : Sample α S m} (h : ¬ s.objective .pole ≤ r.objective) :
    (s.extend r).poleSample = r := by
  unfold extend
  rw [if_neg h]

theorem others_extend {r : Sample α S m} (h : ¬ s.objective .pole ≤ r.objective) :
    (s.extend r).others = s.others.push s.poleSample := by
  unfold extend
  rw [if_neg h]

/-- A vertex that is added has its own sample, and may then change places with the pole. -/
theorem sample?_extend {j : Fin n} (hj : s.others.size = j) (r : Sample α S m) :
    (s.extend r).sample? = Function.update s.sample? (.other j) (some r) ∘
      Equiv.swap .pole (if s.objective .pole ≤ r.objective then .pole else .other j) := by
  have hjpole : Vertex.pole ≠ .other j := nofun
  by_cases hle : s.objective .pole ≤ r.objective
  · rw [if_pos hle, Equiv.swap_self, extend_of_le hle, sample?_push_eq hj]
    rfl
  · rw [if_neg hle]
    funext v
    cases v with
    | pole =>
      rw [Function.comp_apply, Equiv.swap_apply_left, Function.update_self]
      exact congrArg some (poleSample_extend hle)
    | other i =>
      have hpush : (s.extend r).sample? (.other i) =
          Function.update s.sample? (.other j) (some s.poleSample) (.other i) := by
        rw [← sample?_push_eq hj, sample?_other, others_extend hle]
        rfl
      rw [hpush, Function.comp_apply]
      by_cases hij : i = j
      · rw [hij, Function.update_self, Equiv.swap_apply_right, Function.update_of_ne hjpole]
        rfl
      · have hne : Vertex.other i ≠ .other j := fun e => hij (Vertex.other.inj e)
        have hipole : Vertex.other i ≠ .pole := nofun
        rw [Equiv.swap_apply_of_ne_of_ne hipole hne, Function.update_of_ne hne, Function.update_of_ne hne]

end

end Simplex

/-! ## Values and snapshots apart -/

structure Column (α : Type) (m : Nat) where
  constraints : Vector α m
  objective : α
  maxViolation : α

def Sample.column {α S : Type} {m : Nat} (r : Sample α S m) : Column α m :=
  ⟨r.constraints, r.objective, r.maxViolation⟩

/-- A column for every vertex, evaluated or not, and the snapshots of those that are. -/
structure Stores (α S : Type) (n m : Nat) where
  columns : Vertex n → Column α m
  poleSnapshot : S
  snapshots : Array S

namespace Stores

section
variable {α S : Type} [Scalar α] {n m : Nat}

omit [Scalar α] in
def snapshot? (t : Stores α S n m) : Vertex n → Option S
  | .pole => some t.poleSnapshot
  | .other j => t.snapshots[j]?

def start (first : Sample α S m) : Stores α S n m where
  columns := Function.update (fun _ => ⟨zeroVec m, 0, 0⟩) .pole first.column
  poleSnapshot := first.snapshot
  snapshots := #[]

def extend (t : Stores α S n m) (j : Fin n) (r : Sample α S m) : Stores α S n m :=
  if (t.columns .pole).objective ≤ r.objective then
    { t with columns := Function.update t.columns (.other j) r.column
             snapshots := t.snapshots.push r.snapshot }
  else
    { columns := Function.update (Function.update t.columns (.other j) (t.columns .pole)) .pole r.column
      poleSnapshot := r.snapshot
      snapshots := t.snapshots.push t.poleSnapshot }

def pivotTo (t : Stores α S n m) : Vertex n → Stores α S n m
  | .pole => t
  | .other j =>
    { columns := t.columns ∘ Equiv.swap .pole (.other j)
      poleSnapshot := t.snapshots.getD j t.poleSnapshot
      snapshots := t.snapshots.setIfInBounds j t.poleSnapshot }

def store (t : Stores α S n m) (j : Fin n) (r : Sample α S m) : Stores α S n m :=
  { t with columns := Function.update t.columns (.other j) r.column
           snapshots := t.snapshots.setIfInBounds j r.snapshot }

end

end Stores

namespace Simplex

section
variable {α S : Type} [Scalar α] {n m : Nat} {s : Simplex α S n m} {t : Stores α S n m}

/-- A simplex that any moves led to, and the stores that the same moves led to. Moving a vertex without its
sample leaves the stores alone. -/
inductive Stored : Simplex α S n m → Stores α S n m → Prop
  | start (x : Vector α n) (radius : α) (first : Sample α S m) : Stored (.start x radius first) (.start first)
  | extend {s : Simplex α S n m} {t : Stores α S n m} (h : Stored s t) {j : Fin n} (hj : s.others.size = j)
      (r : Sample α S m) : Stored (s.extend r) (t.extend j r)
  | pivotTo {s : Simplex α S n m} {t : Stores α S n m} (h : Stored s t) (hfull : s.others.size = n)
      (v : Vertex n) : Stored (s.pivotTo v) (t.pivotTo v)
  | replace {s : Simplex α S n m} {t : Stores α S n m} (h : Stored s t) (j : Fin n) (d : Vector α n) :
      Stored (s.replace j d) t
  | store {s : Simplex α S n m} {t : Stores α S n m} (h : Stored s t) {j : Fin n} (hj : j < s.others.size)
      (r : Sample α S m) : Stored (s.store j r) (t.store j r)

structure Agrees (s : Simplex α S n m) (t : Stores α S n m) : Prop where
  columns : ∀ v r, s.sample? v = some r → t.columns v = r.column
  poleSnapshot : t.poleSnapshot = s.poleSample.snapshot
  snapshots : t.snapshots = s.others.map Sample.snapshot

omit [Scalar α] in
theorem Agrees.snapshot? (h : s.Agrees t) (v : Vertex n) : t.snapshot? v = (s.sample? v).map Sample.snapshot := by
  cases v with
  | pole => exact congrArg some h.poleSnapshot
  | other j =>
    show t.snapshots[j.val]? = s.others[j.val]?.map Sample.snapshot
    rw [h.snapshots, Array.getElem?_map]

omit [Scalar α] in
theorem Agrees.update (h : s.Agrees t) {v : Vertex n} {r : Sample α S m} {w : Vertex n} {r' : Sample α S m}
    (hr : Function.update s.sample? v (some r) w = some r') :
    Function.update t.columns v r.column w = r'.column := by
  by_cases hwv : w = v
  · rw [hwv, Function.update_self] at hr ⊢
    exact congrArg Sample.column (Option.some.inj hr)
  · rw [Function.update_of_ne hwv] at hr ⊢
    exact h.columns w r' hr

theorem Agrees.extend (h : s.Agrees t) {j : Fin n} (hj : s.others.size = j) (r : Sample α S m) :
    (s.extend r).Agrees (t.extend j r) := by
  have hpole : t.columns .pole = s.poleSample.column := h.columns .pole _ rfl
  have hobjective : (t.columns .pole).objective = s.objective .pole := congrArg Column.objective hpole
  unfold Stores.extend
  by_cases hle : s.objective .pole ≤ r.objective
  · rw [hobjective, if_pos hle, extend_of_le hle]
    refine ⟨fun v r' hr => ?_, h.poleSnapshot, ?_⟩
    · rw [sample?_push_eq hj] at hr
      exact h.update hr
    · rw [h.snapshots, Array.map_push]
  · rw [hobjective, if_neg hle]
    refine ⟨fun v r' hr => ?_, (congrArg Sample.snapshot (poleSample_extend hle)).symm, ?_⟩
    · cases v with
      | pole =>
        have hsame : r = r' := (poleSample_extend hle).symm.trans (Option.some.inj hr)
        dsimp only
        rw [Function.update_self, hsame]
      | other i =>
        have hpush := congrFun (sample?_push_eq hj s.poleSample) (.other i)
        rw [sample?_other, others_extend hle] at hr
        dsimp only
        rw [Function.update_of_ne (nofun : Vertex.other i ≠ .pole), hpole]
        exact h.update (hpush.symm.trans hr)
    · rw [others_extend hle, h.snapshots, h.poleSnapshot, Array.map_push]

theorem Agrees.pivotTo (h : s.Agrees t) (hfull : s.others.size = n) (v : Vertex n) :
    (s.pivotTo v).Agrees (t.pivotTo v) := by
  cases v with
  | pole => exact h
  | other j =>
    have hj : j.val < s.others.size := j.isLt.trans_eq hfull.symm
    refine ⟨fun w r hr => ?_, ?_, ?_⟩
    · rw [sample?_pivotTo hfull] at hr
      exact h.columns _ r hr
    · show t.snapshots.getD j t.poleSnapshot = (s.others.getD j s.poleSample).snapshot
      rw [h.snapshots]
      simp [Array.getD, hj]
    · show t.snapshots.setIfInBounds j t.poleSnapshot = (s.others.setIfInBounds j s.poleSample).map Sample.snapshot
      rw [h.snapshots, h.poleSnapshot, Array.map_setIfInBounds]

omit [Scalar α] in
theorem Agrees.store (h : s.Agrees t) {j : Fin n} (hj : j < s.others.size) (r : Sample α S m) :
    (s.store j r).Agrees (t.store j r) := by
  refine ⟨fun v r' hr => ?_, h.poleSnapshot, ?_⟩
  · rw [sample?_store_eq hj] at hr
    exact h.update hr
  · show t.snapshots.setIfInBounds j r.snapshot = (s.others.setIfInBounds j r).map Sample.snapshot
    rw [h.snapshots, Array.map_setIfInBounds]

/-- Whatever the moves, values and snapshots never part. -/
theorem Stored.agrees (h : s.Stored t) : s.Agrees t := by
  induction h with
  | start x radius first =>
    refine ⟨fun v r hr => ?_, rfl, Array.map_empty.symm⟩
    cases v with
    | pole =>
      cases hr
      unfold Stores.start
      dsimp only
      rw [Function.update_self]
      rfl
    | other j => cases hr
  | extend _ hj r ih => exact ih.extend hj r
  | pivotTo _ hfull v ih => exact ih.pivotTo hfull v
  | replace _ _ _ ih => exact ⟨ih.columns, ih.poleSnapshot, ih.snapshots⟩
  | store _ hj r ih => exact ih.store hj r

end

end Simplex

end TrustSimplex
