import Mathlib.Data.List.MinMax
import Mathlib.Data.Prod.Lex
import TrustSimplex.Proofs.Exact
import TrustSimplex.Simplex.Merit

/-!
# The selected vertex

Where vertices are compared by a key in a linear order, the selected one is the first with the least key, and the
pole is beaten exactly if another is selected. In exact arithmetic the key is a rank, the merit and at a zero penalty
the violation after it, and once the selected vertex is the pole nothing beats the pole.
-/

namespace TrustSimplex

/-! ## Samples -/

namespace Simplex

section
variable {α S : Type} {n m : Nat} {s : Simplex α S n m}

theorem sample?_other (s : Simplex α S n m) (j : Fin n) : s.sample? (.other j) = s.others[j.val]? := rfl

theorem exists_sample (hfull : s.others.size = n) (v : Vertex n) : ∃ r, s.sample? v = some r := by
  cases v with
  | pole => exact ⟨_, rfl⟩
  | other j => exact ⟨s.others[j.val], Array.getElem?_eq_getElem _⟩

theorem sample?_store (s : Simplex α S n m) {j : Fin n} (hj : j < s.others.size) (r : Sample α S m)
    (v : Vertex n) : (s.store j r).sample? v = if v = .other j then some r else s.sample? v := by
  cases v with
  | pole => rfl
  | other i =>
    show (s.others.setIfInBounds j r)[i.val]? = _
    by_cases hij : i = j
    · rw [hij, if_pos rfl, Array.getElem?_setIfInBounds_self_of_lt hj]
    · rw [if_neg fun e => hij (Vertex.other.inj e),
        Array.getElem?_setIfInBounds_ne fun e => hij (Fin.ext e.symm)]
      rfl

variable [Scalar α]

theorem objective_of_sample? {v : Vertex n} {r : Sample α S m} (h : s.sample? v = some r) :
    s.objective v = r.objective := by
  unfold objective
  rw [h]

theorem maxViolation_of_sample? {v : Vertex n} {r : Sample α S m} (h : s.sample? v = some r) :
    s.maxViolation v = r.maxViolation := by
  unfold maxViolation
  rw [h]

/-- To turn to a vertex that was evaluated is to exchange its sample with that of the pole. -/
theorem sample?_pivotTo_of_isSome {v : Vertex n} (hv : (s.sample? v).isSome) (w : Vertex n) :
    (s.pivotTo v).sample? w = s.sample? (Equiv.swap .pole v w) := by
  cases v with
  | pole => rw [Equiv.swap_self]; rfl
  | other j =>
    have hj : j.val < s.others.size := by simpa [sample?_other] using hv
    cases w with
    | pole =>
      rw [Equiv.swap_apply_left, sample?_other]
      show some (s.others.getD j s.poleSample) = _
      simp [Array.getD, hj]
    | other i =>
      show (s.others.setIfInBounds j s.poleSample)[i.val]? = _
      by_cases hij : i = j
      · rw [hij, Equiv.swap_apply_right, Array.getElem?_setIfInBounds_self_of_lt hj]
        rfl
      · have hpole : Vertex.other i ≠ .pole := nofun
        rw [Equiv.swap_apply_of_ne_of_ne hpole (fun e => hij (Vertex.other.inj e)), sample?_other,
          Array.getElem?_setIfInBounds_ne fun e => hij (Fin.ext e.symm)]

theorem sample?_pivotTo (hfull : s.others.size = n) (v w : Vertex n) :
    (s.pivotTo v).sample? w = s.sample? (Equiv.swap .pole v w) :=
  sample?_pivotTo_of_isSome (Option.isSome_iff_exists.mpr (exists_sample hfull v)) w

theorem beats_pivotTo {penalty : α} {v : Vertex n} (hv : (s.sample? v).isSome) (w u : Vertex n) :
    (s.pivotTo v).beats penalty w u =
      s.beats penalty (Equiv.swap .pole v w) (Equiv.swap .pole v u) := by
  unfold beats merit objective maxViolation
  simp only [sample?_pivotTo_of_isSome hv]

end

end Simplex

/-! ## Comparisons by a key -/

def Vertex.inOrder (n : Nat) : List (Vertex n) := .pole :: (List.finRange n).map .other

theorem Vertex.mem_inOrder {n : Nat} (v : Vertex n) : v ∈ inOrder n := by
  cases v with
  | pole => exact List.mem_cons_self
  | other j => exact List.mem_cons_of_mem _ (List.mem_map_of_mem (List.mem_finRange j))

namespace Simplex

section
variable {α β S : Type} [Scalar α] {n m : Nat} {s : Simplex α S n m} {penalty : α} {key : Vertex n → β}

def Compares [LT β] (s : Simplex α S n m) (penalty : α) (key : Vertex n → β) : Prop :=
  ∀ v w, s.beats penalty v w = true ↔ key v < key w

namespace Compares

/-- Of the vertices with the least key the first is selected, for only a lower key displaces a vertex. -/
theorem selectBest_mem_argmin [Preorder β] [DecidableLT β] (h : s.Compares penalty key) :
    s.selectBest penalty ∈ (Vertex.inOrder n).argmin key := by
  unfold selectBest List.argmin Vertex.inOrder
  rw [Option.mem_def, List.foldl_cons, List.foldl_map, Fin.foldl_eq_finRange_foldl]
  refine List.foldl_hom some fun best j => ?_
  simp only [h _ _]
  exact (apply_ite some _ _ _).symm

variable [LinearOrder β]

theorem selectBest_le (h : s.Compares penalty key) (v : Vertex n) : key (s.selectBest penalty) ≤ key v :=
  List.le_of_mem_argmin (Vertex.mem_inOrder v) h.selectBest_mem_argmin

theorem selectBest_eq_pole_iff (h : s.Compares penalty key) :
    s.selectBest penalty = .pole ↔ ∀ v, key .pole ≤ key v := by
  constructor
  · intro hpole v
    exact hpole ▸ h.selectBest_le v
  · intro hleast
    -- no vertex stands before the pole
    have hfirst : (Vertex.inOrder n).idxOf (s.selectBest penalty) ≤ (Vertex.inOrder n).idxOf .pole :=
      List.index_of_argmin h.selectBest_mem_argmin (Vertex.mem_inOrder _) (hleast _)
    rw [Vertex.inOrder, List.idxOf_cons_self, Nat.le_zero] at hfirst
    exact (List.idxOf_inj (Vertex.mem_inOrder _)).mp (hfirst.trans List.idxOf_cons_self.symm)

theorem poleIsBeaten_iff (h : s.Compares penalty key) :
    s.poleIsBeaten penalty = true ↔ ∃ v, key v < key .pole := by
  unfold poleIsBeaten
  rw [List.any_eq_true]
  constructor
  · rintro ⟨j, -, hj⟩
    exact ⟨.other j, (h _ _).mp hj⟩
  · rintro ⟨v, hv⟩
    cases v with
    | pole => exact absurd hv (lt_irrefl _)
    | other j => exact ⟨j, List.mem_finRange j, (h _ _).mpr hv⟩

theorem poleIsBeaten_iff_selectBest_ne (h : s.Compares penalty key) :
    s.poleIsBeaten penalty = true ↔ s.selectBest penalty ≠ .pole := by
  rw [h.poleIsBeaten_iff, Ne, h.selectBest_eq_pole_iff, not_forall]
  simp only [not_le]

theorem pivotTo (h : s.Compares penalty key) {v : Vertex n} (hv : (s.sample? v).isSome) :
    (s.pivotTo v).Compares penalty (key ∘ Equiv.swap .pole v) := by
  intro w u
  rw [beats_pivotTo hv]
  exact h _ _

/-- A pole that was selected is selected again. -/
theorem selectBest_pivotTo_selectBest (h : s.Compares penalty key)
    (hv : (s.sample? (s.selectBest penalty)).isSome) :
    (s.pivotTo (s.selectBest penalty)).selectBest penalty = .pole := by
  refine (h.pivotTo hv).selectBest_eq_pole_iff.mpr fun v => ?_
  rw [Function.comp_apply, Equiv.swap_apply_left]
  exact h.selectBest_le _

end Compares

theorem beats_eq_true_iff [LawfulBEq α] {v w : Vertex n} : s.beats penalty v w = true ↔
    s.merit penalty v < s.merit penalty w ∨
      (s.merit penalty v = s.merit penalty w ∧ penalty = 0 ∧ s.maxViolation v < s.maxViolation w) := by
  unfold beats
  simp only [Bool.or_eq_true, Bool.and_eq_true, decide_eq_true_iff, beq_iff_eq, and_assoc]

end

end Simplex

/-! ## Ranks of values -/

section
variable {K S : Type} [EuclideanField K] {n m : Nat}

def Better (penalty f v g w : K) : Prop :=
  f + penalty * v < g + penalty * w ∨ (f + penalty * v = g + penalty * w ∧ penalty = 0 ∧ v < w)

def rank (penalty f v : K) : K ×ₗ K := toLex (f + penalty * v, if penalty = 0 then v else 0)

theorem better_iff {penalty f v g w : K} : Better penalty f v g w ↔ rank penalty f v < rank penalty g w := by
  unfold Better rank
  rw [Prod.Lex.toLex_lt_toLex]
  by_cases h : penalty = 0
  · simp [h]
  · simp [h]

namespace Simplex

variable {s : Simplex K S n m} {penalty : K}

/-! ## Ranks of vertices -/

def rank (s : Simplex K S n m) (penalty : K) (v : Vertex n) : K ×ₗ K :=
  TrustSimplex.rank penalty (s.objective v) (s.maxViolation v)

theorem rank_of_sample? {v : Vertex n} {r : Sample K S m} (h : s.sample? v = some r) :
    s.rank penalty v = TrustSimplex.rank penalty r.objective r.maxViolation := by
  rw [rank, objective_of_sample? h, maxViolation_of_sample? h]

theorem beats_iff {v w : Vertex n} : s.beats penalty v w = true ↔ s.rank penalty v < s.rank penalty w :=
  beats_eq_true_iff.trans better_iff

theorem compares_rank (s : Simplex K S n m) (penalty : K) : s.Compares penalty (s.rank penalty) :=
  fun _ _ => beats_iff

theorem poleIsBeaten_iff : s.poleIsBeaten penalty = true ↔ ∃ v, s.rank penalty v < s.rank penalty .pole :=
  (s.compares_rank penalty).poleIsBeaten_iff

theorem rank_selectBest_le (s : Simplex K S n m) (penalty : K) (v : Vertex n) :
    s.rank penalty (s.selectBest penalty) ≤ s.rank penalty v :=
  (s.compares_rank penalty).selectBest_le v

theorem rank_pivotTo (hfull : s.others.size = n) (penalty : K) (v w : Vertex n) :
    (s.pivotTo v).rank penalty w = s.rank penalty (Equiv.swap .pole v w) := by
  obtain ⟨r, hr⟩ := exists_sample hfull (Equiv.swap .pole v w)
  rw [rank_of_sample? hr, rank_of_sample? ((sample?_pivotTo hfull v w).trans hr)]

theorem rank_pole_pivotTo_selectBest_le (hfull : s.others.size = n) (penalty : K) (v : Vertex n) :
    (s.pivotTo (s.selectBest penalty)).rank penalty .pole ≤
      (s.pivotTo (s.selectBest penalty)).rank penalty v := by
  rw [rank_pivotTo hfull, rank_pivotTo hfull, Equiv.swap_apply_left]
  exact s.rank_selectBest_le penalty _

end Simplex

end

end TrustSimplex
