import TrustSimplex.Proofs.Exact

/-!
# Changes of units

A problem may be written from another origin and in other units of length, objective and violation. The scans
and inner products of the method are homogeneous, so each of its quantities has a unit of its own, a product of
powers of these three.
-/

namespace TrustSimplex

/-- A new origin of the variables and of the objective, and how many new units make an old one. -/
structure Rescaling (K : Type) [EuclideanField K] (n : Nat) where
  origin : Vector K n
  length : K
  base : K
  objective : K
  violation : K
  length_pos : 0 < length
  objective_pos : 0 < objective
  violation_pos : 0 < violation

section
variable {K : Type} [EuclideanField K] {n m : Nat}

namespace Rescaling

variable (u : Rescaling K n)

def point (x : Vector K n) : Vector K n := addVec (scaleVec u.length x) u.origin

def value (f : K) : K := u.objective * f + u.base

def penalty : K := u.objective / u.violation

def unit (c : Fin (m + 1)) : K := if c = Fin.last m then u.objective else u.violation

def slope (c : Fin (m + 1)) : K := u.unit c / u.length

theorem penalty_pos : 0 < u.penalty := div_pos u.objective_pos u.violation_pos

theorem penalty_mul_violation : u.penalty * u.violation = u.objective :=
  div_mul_cancel₀ _ u.violation_pos.ne'

theorem unit_last : u.unit (Fin.last m) = u.objective := if_pos rfl

theorem unit_of_ne {c : Fin (m + 1)} (h : c ≠ Fin.last m) : u.unit c = u.violation := if_neg h

theorem unit_pos (c : Fin (m + 1)) : 0 < u.unit c := by
  unfold unit
  split
  · exact u.objective_pos
  · exact u.violation_pos

theorem slope_pos (c : Fin (m + 1)) : 0 < u.slope c := div_pos (u.unit_pos c) u.length_pos

theorem slope_mul_length (c : Fin (m + 1)) : u.slope c * u.length = u.unit c :=
  div_mul_cancel₀ _ u.length_pos.ne'

/-- The unit of the multiplier of a constraint: a gradient weighted with it is a step. -/
def weight (c : Fin (m + 1)) : K := u.length / u.slope c

theorem weight_mul_slope (c : Fin (m + 1)) : u.weight c * u.slope c = u.length :=
  div_mul_cancel₀ _ (u.slope_pos c).ne'

theorem weight_pos (c : Fin (m + 1)) : 0 < u.weight c := div_pos u.length_pos (u.slope_pos c)

theorem value_sub_value (f g : K) : u.value f - u.value g = u.objective * (f - g) := by
  unfold value
  ring

theorem value_lt_iff {f g : K} : u.value f < u.value g ↔ f < g := by
  rw [← sub_pos, value_sub_value, mul_pos_iff_of_pos_left u.objective_pos, sub_pos]

theorem value_le_iff {f g : K} : u.value f ≤ u.value g ↔ f ≤ g := by
  rw [← not_lt, value_lt_iff, not_lt]

theorem value_injective : Function.Injective u.value := fun _ _ h =>
  le_antisymm (u.value_le_iff.mp h.le) (u.value_le_iff.mp h.ge)

theorem value_beq_value (f g : K) : (u.value f == u.value g) = (f == g) := by
  rw [Bool.eq_iff_iff, beq_iff_eq, beq_iff_eq, u.value_injective.eq_iff]

theorem monotone_value : Monotone u.value := fun _ _ => u.value_le_iff.mpr

theorem getElem_point (x : Vector K n) {i : Nat} (hi : i < n) :
    (u.point x)[i] = u.length * x[i] + u.origin[i] := by
  unfold point
  rw [getElem_addVec, getElem_scaleVec]

theorem addVec_point (x d : Vector K n) :
    addVec (u.point x) (scaleVec u.length d) = u.point (addVec x d) := by
  apply coords_injective
  unfold point
  simp only [coords_addVec, coords_scaleVec, smul_add]
  abel

end Rescaling

/-! ## Comparisons and roots -/

theorem larger_mul {c : K} (hc : 0 ≤ c) (a b : K) : larger (c * a) (c * b) = c * larger a b := by
  rw [larger_eq_max, larger_eq_max, mul_max_of_nonneg _ _ hc]

theorem smaller_mul {c : K} (hc : 0 ≤ c) (a b : K) : smaller (c * a) (c * b) = c * smaller a b := by
  rw [smaller_eq_min, smaller_eq_min, mul_min_of_nonneg _ _ hc]

theorem mul_beq_mul {c : K} (hc : c ≠ 0) (a b : K) : (c * a == c * b) = (a == b) := by
  rw [Bool.eq_iff_iff, beq_iff_eq, beq_iff_eq]
  exact mul_right_inj' hc

theorem mul_beq_zero {c : K} (hc : c ≠ 0) (a : K) : (c * a == 0) = (a == 0) := by
  rw [← mul_beq_mul hc a 0, mul_zero]

theorem scalarAbs_mul {c : K} (hc : 0 ≤ c) (a : K) : Scalar.abs (c * a) = c * Scalar.abs a := by
  show |c * a| = c * |a|
  rw [abs_mul, abs_of_nonneg hc]

theorem sqrt_mul {c x : K} (hc : 0 ≤ c) (hx : 0 ≤ x) : Scalar.sqrt (c * c * x) = c * Scalar.sqrt x := by
  rw [sqrt_abs_mul c hx, abs_of_nonneg hc]

theorem hypotenuse_mul {c : K} (hc : 0 ≤ c) (a b : K) :
    Scalar.sqrt (c * a * (c * a) + c * b * (c * b)) = c * Scalar.sqrt (a * a + b * b) := by
  rw [mul_mul_mul_comm, mul_mul_mul_comm c b, ← mul_add]
  exact sqrt_mul hc (add_nonneg (mul_self_nonneg a) (mul_self_nonneg b))

/-! ## Scans -/

/-- Two scans whose bodies keep a relation end in it. -/
theorem foldl_rel {β γ : Type} {R : β → γ → Prop} {f : β → Fin n → β} {g : γ → Fin n → γ}
    (hstep : ∀ b c k, R b c → R (f b k) (g c k)) {b : β} {c : γ} (h : R b c) :
    R (Fin.foldl n f b) (Fin.foldl n g c) := by
  induction n generalizing b c with
  | zero => exact h
  | succ n ih =>
    rw [Fin.foldl_succ, Fin.foldl_succ]
    exact ih (fun b c k => hstep b c k.succ) (hstep b c 0 h)

/-- A scan for the best value finds the same when the values are multiplied by `c`. -/
theorem foldl_found {β : Type} (c : K) {f g : β × K → Fin n → β × K} (hstep : ∀ found value k,
      (f (found, c * value) k).1 = (g (found, value) k).1 ∧ (f (found, c * value) k).2 = c * (g (found, value) k).2)
    (found : β) {value' value : K} (hvalue : value' = c * value) :
    (Fin.foldl n f (found, value')).1 = (Fin.foldl n g (found, value)).1 := by
  have hbody : ∀ (a b : β × K) k, a.1 = b.1 ∧ a.2 = c * b.2 → (f a k).1 = (g b k).1 ∧ (f a k).2 = c * (g b k).2 := by
    rintro a ⟨found, value⟩ k ⟨hfound, hvalue⟩
    rw [show a = (found, c * value) from Prod.ext hfound hvalue]
    exact hstep found value k
  exact (foldl_rel (b := (found, value')) (c := (found, value)) hbody ⟨rfl, hvalue⟩).1

theorem foldl_larger_mul {c : K} (hc : 0 ≤ c) (f : Fin n → K) :
    Fin.foldl n (fun worst k => larger worst (c * f k)) 0 =
      c * Fin.foldl n (fun worst k => larger worst (f k)) 0 := by
  refine foldl_rel (R := fun b b' => b = c * b') (fun b b' k hb => ?_) (mul_zero c).symm
  rw [hb, larger_mul hc]

/-! ## Vectors -/

theorem get_scaleVec (c : K) (v : Vector K n) (j : Fin n) : (scaleVec c v).get j = c * v.get j :=
  getElem_scaleVec c v j.isLt

theorem dot_scaleVec (a b : K) (v w : Vector K n) : dot (scaleVec a v) (scaleVec b w) = a * b * dot v w := by
  rw [dot_eq, dot_eq, coords_scaleVec, coords_scaleVec, smul_dotProduct, dotProduct_smul, smul_eq_mul,
    smul_eq_mul, mul_assoc]

theorem dot_scaleVec_right (c : K) (v w : Vector K n) : dot v (scaleVec c w) = c * dot v w := by
  rw [dot_eq, dot_eq, coords_scaleVec, dotProduct_smul, smul_eq_mul]

theorem guardedDot_scaleVec_right (c : K) (v w : Vector K n) :
    guardedDot v (scaleVec c w) = c * guardedDot v w := by
  rw [guardedDot_eq, guardedDot_eq, ← dot_eq, ← dot_eq, dot_scaleVec_right]

theorem normSq_scaleVec (a : K) (v : Vector K n) : normSq (scaleVec a v) = a * a * normSq v := by
  rw [normSq_eq, normSq_eq, ← dot_eq, ← dot_eq, dot_scaleVec]

theorem distSq_eq (v w : Vector K n) : distSq v w = (coords v - coords w) ⬝ᵥ (coords v - coords w) := by
  unfold distSq
  rw [sumOf_eq_sum]
  exact Fintype.sum_equiv (finCongr (min_self n)) _ _ fun _ => rfl

theorem distSq_nonneg (v w : Vector K n) : 0 ≤ distSq v w := by
  rw [distSq_eq]
  exact self_dotProduct_nonneg _

theorem distSq_scaleVec (a : K) (v w : Vector K n) :
    distSq (scaleVec a v) (scaleVec a w) = a * a * distSq v w := by
  rw [distSq_eq, distSq_eq, coords_scaleVec, coords_scaleVec, ← smul_sub, smul_dotProduct, dotProduct_smul,
    smul_eq_mul, smul_eq_mul, mul_assoc]

/-! ## Matrices -/

namespace ColMatrix

def Scaled (c : K) (A B : ColMatrix K n n) : Prop := ∀ i < n, ∀ j < n, B.entry i j = c * A.entry i j

variable {c : K} {A B : ColMatrix K n n}

theorem Scaled.col (h : Scaled c A B) {j : Nat} (hj : j < n) : B.col j = scaleVec c (A.col j) := by
  ext i hi
  rw [getElem_scaleVec, ← entry_eq_getElem B j hi, ← entry_eq_getElem A j hi, h i hi j hj]

theorem Scaled.row (h : Scaled c A B) {i : Nat} (hi : i < n) : B.row i = scaleVec c (A.row i) := by
  ext j hj
  rw [getElem_scaleVec, getElem_row B i hj, getElem_row A i hj, h i hi j hj]

theorem scaled_ofFn {f g : Fin n → Fin n → K} (h : ∀ i j, g i j = c * f i j) : Scaled c (ofFn f) (ofFn g) := by
  intro i hi j hj
  rw [entry_ofFn g hi hj, entry_ofFn f hi hj, h]

theorem Scaled.setCol (h : Scaled c A B) (j : Fin n) (v : Vector K n) :
    Scaled c (A.setCol j v) (B.setCol j (scaleVec c v)) := by
  intro i hi k hk
  rw [entry_eq_getElem _ _ hi, entry_eq_getElem _ _ hi]
  by_cases hjk : j.val = k
  · subst hjk
    rw [col_setCol_self _ _ j.isLt, col_setCol_self _ _ j.isLt, getElem_scaleVec]
  · rw [col_setCol_of_ne _ _ hjk, col_setCol_of_ne _ _ hjk, h.col hk, getElem_scaleVec]

end ColMatrix

end

end TrustSimplex
