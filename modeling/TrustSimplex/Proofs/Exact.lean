import Mathlib.Algebra.BigOperators.Fin
import Mathlib.Analysis.Real.Sqrt
import Mathlib.LinearAlgebra.Matrix.DotProduct
import Mathlib.Tactic
import TrustSimplex.ColMatrix

/-!
# Exact arithmetic

Over an ordered field with square roots the scalar operations are those of the field. The scans of
the method are then maxima, its sums are finite sums and its inner products are `⬝ᵥ` of coordinates;
nothing is taken for rounding noise.
-/

namespace TrustSimplex

/-- An ordered field in which every nonnegative element has a square root. -/
class EuclideanField (K : Type) extends Field K, LinearOrder K, IsStrictOrderedRing K where
  sqrt : K → K
  sqrt_nonneg {x : K} : 0 ≤ x → 0 ≤ sqrt x
  sqrt_mul_self {x : K} : 0 ≤ x → sqrt x * sqrt x = x

noncomputable instance : EuclideanField ℝ where
  sqrt := Real.sqrt
  sqrt_nonneg _ := Real.sqrt_nonneg _
  sqrt_mul_self := Real.mul_self_sqrt

instance {K : Type} [EuclideanField K] : Scalar K where
  toOfScientific := NNRatCast.toOfScientific
  toBEq := instBEqOfDecidableEq
  abs x := |x|
  sqrt := EuclideanField.sqrt
  isFinite _ := true
  decideLT := inferInstance
  decideLE := inferInstance

section
variable {K : Type} [EuclideanField K] {n m : Nat}

/-! ## Comparisons and roots -/

theorem larger_eq_max (a b : K) : larger a b = max a b := by
  unfold larger
  split
  · next h => rw [max_eq_right h.le]
  · next h => rw [max_eq_left (not_lt.mp h)]; simp

theorem smaller_eq_min (a b : K) : smaller a b = min a b := by
  unfold smaller
  split
  · next h => rw [min_eq_right h.le]
  · next h => rw [min_eq_left (not_lt.mp h)]; simp

theorem snapToZero_eq (value magnitude : K) : snapToZero value magnitude = value := by
  unfold snapToZero
  by_cases h : value = 0
  · simp [h]
  · have hp : 0 < |value| := abs_pos.mpr h
    have h1 : ¬ (magnitude + 0.1 * |value| ≤ magnitude) := by norm_num; exact h
    have h2 : ¬ (magnitude + 0.2 * |value| ≤ magnitude + 0.1 * |value|) := by norm_num; linarith
    exact if_neg (not_or.mpr ⟨h1, h2⟩)

theorem sqrt_nonneg {x : K} (h : 0 ≤ x) : 0 ≤ Scalar.sqrt x := EuclideanField.sqrt_nonneg h

theorem sqrt_mul_self {x : K} (h : 0 ≤ x) : Scalar.sqrt x * Scalar.sqrt x = x :=
  EuclideanField.sqrt_mul_self h

theorem sqrt_pos {x : K} (h : 0 < x) : 0 < Scalar.sqrt x := by
  refine lt_of_le_of_ne (sqrt_nonneg h.le) fun h0 => ?_
  have := sqrt_mul_self h.le
  rw [← h0, mul_zero] at this
  exact h.ne this

theorem le_sqrt {a x : K} (hx : 0 ≤ x) (h : a * a ≤ x) : a ≤ Scalar.sqrt x := by
  rw [← sqrt_mul_self hx] at h
  exact not_lt.mp fun hlt => (mul_self_lt_mul_self (sqrt_nonneg hx) hlt).not_ge h

theorem sqrt_le_sqrt {x y : K} (hx : 0 ≤ x) (h : x ≤ y) : Scalar.sqrt x ≤ Scalar.sqrt y :=
  le_sqrt (hx.trans h) ((sqrt_mul_self hx).trans_le h)

theorem sqrt_abs_mul {x : K} (c : K) (hx : 0 ≤ x) : Scalar.sqrt (c * c * x) = |c| * Scalar.sqrt x := by
  have hsquare : 0 ≤ c * c * x := mul_nonneg (mul_self_nonneg c) hx
  refine (mul_self_inj (sqrt_nonneg hsquare) (mul_nonneg (abs_nonneg c) (sqrt_nonneg hx))).mp ?_
  rw [sqrt_mul_self hsquare, mul_mul_mul_comm, abs_mul_abs_self, sqrt_mul_self hx]

/-- A root of two squares, as the plane rotations divide by it. -/
theorem hypotenuse (a : K) {b : K} (hb : b ≠ 0) : 0 < Scalar.sqrt (a * a + b * b) ∧
    Scalar.sqrt (a * a + b * b) * Scalar.sqrt (a * a + b * b) = a * a + b * b := by
  have hpos : 0 < a * a + b * b := add_pos_of_nonneg_of_pos (mul_self_nonneg a) (mul_self_pos.mpr hb)
  exact ⟨sqrt_pos hpos, sqrt_mul_self hpos.le⟩

theorem unit_of_hypotenuse {a b length : K} (hpos : 0 < length) (hlen : length * length = a * a + b * b) :
    a / length * (a / length) + b / length * (b / length) = 1 := by
  field_simp
  rw [pow_two, pow_two, pow_two, hlen]

/-! ## Scans and sums -/

theorem foldl_invariant {β : Type} {P : β → Prop} {f : β → Fin n → β} (hf : ∀ b k, P b → P (f b k)) {b : β}
    (hb : P b) : P (Fin.foldl n f b) := by
  induction n generalizing b with
  | zero => exact hb
  | succ n ih =>
    rw [Fin.foldl_succ]
    exact ih (fun b k => hf b k.succ) (hf b 0 hb)

theorem foldl_larger_le_iff (f : Fin n → K) (a c : K) :
    Fin.foldl n (fun worst k => larger worst (f k)) a ≤ c ↔ a ≤ c ∧ ∀ k, f k ≤ c := by
  induction n generalizing a with
  | zero => simp
  | succ n ih =>
    rw [Fin.foldl_succ, ih, larger_eq_max, max_le_iff, Fin.forall_fin_succ, and_assoc]

theorem foldl_larger_eq_fold (f : Fin n → K) (a : K) :
    Fin.foldl n (fun worst k => larger worst (f k)) a = Finset.univ.fold max a f := by
  refine eq_of_forall_ge_iff fun c => ?_
  rw [foldl_larger_le_iff, Finset.fold_max_le]
  simp only [Finset.mem_univ, true_implies]

/-- A scan that keeps two values apart is two scans. -/
theorem foldl_prod {β γ : Type} (f : β → Fin n → β) (g : γ → Fin n → γ) (b : β) (c : γ) :
    Fin.foldl n (fun x k => (f x.1 k, g x.2 k)) (b, c) = (Fin.foldl n f b, Fin.foldl n g c) := by
  induction n with
  | zero => simp
  | succ n ih =>
    have ih := ih (fun x k => f x k.castSucc) fun x k => g x k.castSucc
    rw [Fin.foldl_succ_last, ih, Fin.foldl_succ_last, Fin.foldl_succ_last]

theorem foldl_add_eq_sum (f : Fin n → K) (a : K) :
    Fin.foldl n (fun sum k => sum + f k) a = a + ∑ k, f k := by
  induction n with
  | zero => simp
  | succ n ih => rw [Fin.foldl_succ_last, ih, Fin.sum_univ_castSucc, add_assoc]

theorem foldl_sub_eq_sum {G : Type} [AddCommGroup G] (f : Fin n → G) (a : G) :
    Fin.foldl n (fun sum k => sum - f k) a = a - ∑ k, f k := by
  induction n with
  | zero => simp
  | succ n ih => rw [Fin.foldl_succ_last, ih, Fin.sum_univ_castSucc, sub_sub]

/-- A scan for the first greatest value above a bound finds it, or no value is above. -/
theorem foldl_greatest {V β : Type} [LinearOrder V] (tag : Fin n → β) (f : Fin n → V) (bound : V) :
    let found := Fin.foldl n (fun (found : Option β × V) k =>
      if found.2 < f k then (some (tag k), f k) else found) (none, bound)
    (∀ k, f k ≤ found.2) ∧
      ((found.1 = none ∧ found.2 = bound) ∨ ∃ k, found.1 = some (tag k) ∧ f k = found.2 ∧ bound < f k) := by
  induction n with
  | zero => exact ⟨nofun, Or.inl ⟨rfl, rfl⟩⟩
  | succ n ih =>
    have ih := ih (fun k => tag k.castSucc) fun k => f k.castSucc
    dsimp only at ih ⊢
    rw [Fin.foldl_succ_last]
    generalize Fin.foldl n _ (none, bound) = found at ih ⊢
    obtain ⟨hall, hfound⟩ := ih
    by_cases hlt : found.2 < f (Fin.last n)
    · rw [if_pos hlt]
      refine ⟨Fin.lastCases (le_refl _) fun k => (hall k).trans hlt.le, Or.inr ⟨_, rfl, rfl, ?_⟩⟩
      rcases hfound with ⟨-, hb⟩ | ⟨k, -, hk, hb⟩
      · rwa [hb] at hlt
      · exact hb.trans (hk ▸ hlt)
    · rw [if_neg hlt]
      refine ⟨Fin.lastCases (not_lt.mp hlt) hall, hfound.imp id ?_⟩
      rintro ⟨k, hk⟩
      exact ⟨k.castSucc, hk⟩

theorem range?_concat (values : List K) (v : K) : range? (values ++ [v]) = some
    (match range? values with
      | none => (v, v)
      | some (low, high) => (min v low, max v high)) := by
  unfold range?
  rw [List.foldl_append, List.foldl_cons, List.foldl_nil, if_pos (beq_self_eq_true v)]
  cases List.foldl _ none values with
  | none => rfl
  | some bounds =>
    obtain ⟨low, high⟩ := bounds
    show some (smaller low v, larger high v) = some (min v low, max v high)
    rw [smaller_eq_min, larger_eq_max, min_comm, max_comm]

/-- The bounds of a list of values are its least and its greatest member. -/
theorem range?_spec {values : List K} (h : values ≠ []) : ∃ low high, range? values = some (low, high) ∧
    IsLeast {v | v ∈ values} low ∧ IsGreatest {v | v ∈ values} high := by
  induction values using List.reverseRecOn with
  | nil => exact absurd rfl h
  | append_singleton values v ih =>
    have hset : {w | w ∈ values ++ [v]} = insert v {w | w ∈ values} := by
      ext w
      show w ∈ values ++ [v] ↔ w = v ∨ w ∈ values
      rw [List.mem_append, List.mem_singleton, or_comm]
    rw [range?_concat, hset]
    by_cases hempty : values = []
    · subst hempty
      exact ⟨v, v, rfl, by simp, by simp⟩
    · obtain ⟨low, high, hrange, hlow, hhigh⟩ := ih hempty
      rw [hrange]
      exact ⟨_, _, rfl, hlow.insert v, hhigh.insert v⟩

theorem sumOf_eq_sum (f : Fin n → K) : sumOf n f = ∑ k, f k := by
  unfold sumOf
  rw [foldl_add_eq_sum]
  simp

theorem foldl_pair_eq_sum (f : Fin n → K) (a b : K) :
    Fin.foldl n (fun (sum, magnitude) k => (sum + f k, magnitude + Scalar.abs (f k))) (a, b) =
      (a + ∑ k, f k, b + ∑ k, |f k|) := by
  rw [← foldl_add_eq_sum, ← foldl_add_eq_sum]
  exact foldl_prod (fun sum k => sum + f k) (fun magnitude k => magnitude + |f k|) a b

/-! ## Coordinates of vectors -/

def coords {α : Type} (v : Vector α n) : Fin n → α := fun i => v[i.val]

theorem get_eq_coords {α : Type} (v : Vector α n) (i : Fin n) : v.get i = coords v i := rfl

theorem coords_injective {α : Type} : Function.Injective (coords : Vector α n → Fin n → α) := by
  intro v w h
  ext i hi
  exact congrFun h ⟨i, hi⟩

@[simp] theorem coords_ofFn {α : Type} (f : Fin n → α) : coords (Vector.ofFn f) = f := by
  funext i
  simp [coords]

@[simp] theorem coords_zeroVec : coords (zeroVec n : Vector K n) = 0 := by
  funext i
  simp [coords]

@[simp] theorem coords_scaleVec (s : K) (v : Vector K n) : coords (scaleVec s v) = s • coords v := by
  funext i
  simp [coords]

@[simp] theorem coords_addVec (v w : Vector K n) : coords (addVec v w) = coords v + coords w := by
  funext i
  simp [coords]

@[simp] theorem coords_map_neg (v : Vector K n) : coords (v.map (- ·)) = -coords v := by
  funext i
  simp [coords]

@[simp] theorem coords_subScaled (v : Vector K n) (s : K) (w : Vector K n) :
    coords (subScaled v s w) = coords v - s • coords w := by
  funext i
  simp [coords]

/-! ## Inner products -/

theorem dot_eq (v w : Vector K n) : dot v w = coords v ⬝ᵥ coords w := by
  unfold dot
  rw [sumOf_eq_sum]
  exact Fintype.sum_equiv (finCongr (min_self n)) _ _ fun _ => rfl

theorem normSq_eq (v : Vector K n) : normSq v = coords v ⬝ᵥ coords v := sumOf_eq_sum _

theorem guardedDot_eq (v w : Vector K n) : guardedDot v w = coords v ⬝ᵥ coords w := by
  unfold guardedDot
  rw [foldl_pair_eq_sum]
  dsimp only
  rw [snapToZero_eq, zero_add]
  exact Fintype.sum_equiv (finCongr (min_self n)) _ _ fun _ => rfl

theorem self_dotProduct_nonneg (v : Fin n → K) : 0 ≤ v ⬝ᵥ v :=
  Finset.sum_nonneg fun _ _ => mul_self_nonneg _

theorem normSq_nonneg (v : Vector K n) : 0 ≤ normSq v := by
  rw [normSq_eq]
  exact self_dotProduct_nonneg _

theorem self_dotProduct_pos {v : Fin n → K} (h : v ≠ 0) : 0 < v ⬝ᵥ v :=
  lt_of_le_of_ne (self_dotProduct_nonneg v) fun h0 => h (dotProduct_self_eq_zero.mp h0.symm)

/-! ## Entries of matrices -/

theorem coords_col (A : ColMatrix K n m) (j : Nat) (i : Fin n) :
    coords (A.col j) i = A.entry i j := by
  rw [ColMatrix.entry_eq_getElem A j i.isLt]
  rfl

theorem coords_row (A : ColMatrix K n m) (i : Nat) (j : Fin m) :
    coords (A.row i) j = A.entry i j :=
  A.getElem_row i j.isLt

theorem col_of_le (A : ColMatrix K n m) {j : Nat} (h : m ≤ j) : A.col j = zeroVec n := by
  simp [ColMatrix.col, Vector.getD, Nat.not_lt.mpr h]

end

end TrustSimplex
