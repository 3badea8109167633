import Mathlib.Data.Fintype.Option
import TrustSimplex.Proofs.Simplex.Selection

/-!
# Selections without an evaluation

A higher penalty passes the pole on to a vertex that is violated less, and the number of such vertices bounds
how often. A pole that nothing beats is selected again.
-/

namespace TrustSimplex

/-! ## Vertices as a finite type -/

def Vertex.equivOption (n : Nat) : Vertex n ≃ Option (Fin n) where
  toFun
    | .pole => none
    | .other j => some j
  invFun
    | none => .pole
    | some j => .other j
  left_inv := by rintro (_ | _) <;> rfl
  right_inv := by rintro (_ | _) <;> rfl

instance {n : Nat} : Fintype (Vertex n) := .ofEquiv _ (Vertex.equivOption n).symm

theorem card_vertex (n : Nat) : Fintype.card (Vertex n) = n + 1 := by
  rw [Fintype.card_congr (Vertex.equivOption n), Fintype.card_option, Fintype.card_fin]

section
variable {K S : Type} [EuclideanField K] {n m : Nat}

namespace Simplex

variable {s : Simplex K S n m} {penalty raised radius : K}

/-! ## Vertices that are violated less -/

def below (s : Simplex K S n m) (v : Vertex n) : Finset (Vertex n) := {w | s.maxViolation w < s.maxViolation v}

theorem mem_below {v w : Vertex n} : w ∈ s.below v ↔ s.maxViolation w < s.maxViolation v := by
  simp [below]

theorem card_below_le (s : Simplex K S n m) (v : Vertex n) : (s.below v).card ≤ n := by
  have hself : v ∉ s.below v := fun h => lt_irrefl _ (mem_below.mp h)
  have hlt := Finset.card_lt_univ_of_notMem hself
  rw [card_vertex] at hlt
  exact Nat.le_of_lt_succ hlt

theorem card_below_lt {v w : Vertex n} (h : s.maxViolation w < s.maxViolation v) :
    (s.below w).card < (s.below v).card := by
  refine Finset.card_lt_card ⟨fun u hu => mem_below.mpr ((mem_below.mp hu).trans h), fun hsub => ?_⟩
  exact lt_irrefl _ (mem_below.mp (hsub (mem_below.mpr h)))

theorem maxViolation_pivotTo (hfull : s.others.size = n) (v w : Vertex n) :
    (s.pivotTo v).maxViolation w = s.maxViolation (Equiv.swap .pole v w) := by
  obtain ⟨r, hr⟩ := exists_sample hfull (Equiv.swap .pole v w)
  rw [maxViolation_of_sample? hr, maxViolation_of_sample? ((sample?_pivotTo hfull v w).trans hr)]

theorem card_below_pivotTo (hfull : s.others.size = n) (v : Vertex n) :
    ((s.pivotTo v).below .pole).card = (s.below v).card := by
  refine Finset.card_equiv (Equiv.swap .pole v) fun w => ?_
  rw [mem_below, mem_below, maxViolation_pivotTo hfull, maxViolation_pivotTo hfull, Equiv.swap_apply_left]

/-- Under a raised penalty only a vertex that is violated less comes before the best one. -/
theorem maxViolation_lt_of_raised (hbest : ∀ v, s.rank penalty .pole ≤ s.rank penalty v) (hpenalty : 0 ≤ penalty)
    (hraised : penalty < raised) (hbeaten : s.poleIsBeaten raised = true) :
    s.maxViolation (s.selectBest raised) < s.maxViolation .pole := by
  obtain ⟨u, hu⟩ := poleIsBeaten_iff.mp hbeaten
  generalize hw : s.selectBest raised = w
  have hbetter : Better raised (s.objective w) (s.maxViolation w) (s.objective .pole) (s.maxViolation .pole) :=
    better_iff.mpr ((hw ▸ s.rank_selectBest_le raised u).trans_lt hu)
  have hnot : ¬ Better penalty (s.objective w) (s.maxViolation w) (s.objective .pole) (s.maxViolation .pole) :=
    fun h => (better_iff.mp h).not_ge (hbest w)
  have hafter : s.objective w + raised * s.maxViolation w <
      s.objective .pole + raised * s.maxViolation .pole :=
    hbetter.resolve_right fun h => (hpenalty.trans_lt hraised).ne' h.2.1
  have hbefore : s.objective .pole + penalty * s.maxViolation .pole ≤
      s.objective w + penalty * s.maxViolation w :=
    not_lt.mp fun h => hnot (Or.inl h)
  have hgap : (raised - penalty) * s.maxViolation w < (raised - penalty) * s.maxViolation .pole := by linarith
  exact lt_of_mul_lt_mul_left hgap (sub_nonneg.mpr hraised.le)

/-! ## The pole that nothing beats -/

theorem selectBest_eq_pole (h : ∀ v, s.rank penalty .pole ≤ s.rank penalty v) : s.selectBest penalty = .pole :=
  (s.compares_rank penalty).selectBest_eq_pole_iff.mpr h

end Simplex

end

end TrustSimplex
