import TrustSimplex.Proofs.Simplex.Penalty
import TrustSimplex.Proofs.TrustRegion.Alike

/-!
# Simplices in other units

The edges of a rescaled simplex are those of the first times the unit of length, and its inverse is that of the
first divided by it. Growing, turning and moving keep this; linear models, heights, merits and spreads follow it,
so both simplices choose the same vertices.
-/

namespace TrustSimplex

section
variable {K S S' : Type} [EuclideanField K] {n m : Nat} {u : Rescaling K n}

/-! ## Samples -/

structure Sample.Rescaled (u : Rescaling K n) (r : Sample K S m) (r' : Sample K S' m) : Prop where
  constraint : ∀ k, r'.constraints.get k = u.violation * r.constraints.get k
  objective : r'.objective = u.value r.objective
  maxViolation : r'.maxViolation = u.violation * r.maxViolation

theorem greatestViolation_scaleVec {c : K} (hc : 0 ≤ c) (v : Vector K m) :
    greatestViolation (scaleVec c v) = c * greatestViolation v := by
  unfold greatestViolation scaleVec
  rw [Vector.foldl_map, ← mul_zero c]
  refine (Vector.foldl_hom (c * ·) fun worst b => ?_).trans (by rw [mul_zero])
  rw [neg_mul_eq_mul_neg, larger_mul hc]

theorem forall₂_set {α β : Type} {R : α → β → Prop} {as : List α} {bs : List β} (h : List.Forall₂ R as bs) (j : Nat)
    {a : α} {b : β} (hab : R a b) : List.Forall₂ R (as.set j a) (bs.set j b) := by
  induction h generalizing j with
  | nil => exact .nil
  | cons hhead htail ih =>
    cases j with
    | zero => exact .cons hab htail
    | succ j => exact .cons hhead (ih j)

/-! ## Shapes -/

namespace Geometry

variable {c : K} {g : Geometry K n}

def rescaled (c : K) (g : Geometry K n) : Geometry K n := ⟨c * g.radius, scaleVec c g.heights, scaleVec c g.lengths⟩

theorem leastHeight_rescaled : (g.rescaled c).leastHeight = c * g.leastHeight := mul_left_comm _ _ _

theorem greatestLength_rescaled : (g.rescaled c).greatestLength = c * g.greatestLength := mul_left_comm _ _ _

theorem isAcceptable_rescaled (hc : 0 < c) : (g.rescaled c).isAcceptable = g.isAcceptable := by
  unfold isAcceptable
  rw [leastHeight_rescaled, greatestLength_rescaled]
  unfold rescaled scaleVec
  simp only [Vector.all_map, Function.comp_def, mul_le_mul_iff_right₀ hc]

theorem longest?_scaleVec (hc : 0 < c) (lengths : Vector K n) (bound : K) :
    longest? (scaleVec c lengths) (c * bound) = longest? lengths bound := by
  unfold longest?
  refine foldl_found c (fun found value j => ?_) none rfl
  dsimp only
  rw [get_scaleVec]
  simp only [mul_lt_mul_iff_right₀ hc]
  split <;> exact ⟨rfl, rfl⟩

theorem lowest?_scaleVec (hc : 0 < c) (heights : Vector K n) (bound : K) :
    lowest? (scaleVec c heights) (c * bound) = lowest? heights bound := by
  unfold lowest?
  refine foldl_found c (fun found value j => ?_) none rfl
  dsimp only
  rw [get_scaleVec]
  simp only [mul_lt_mul_iff_right₀ hc]
  split <;> exact ⟨rfl, rfl⟩

theorem vertexToRepair?_rescaled (hc : 0 < c) : (g.rescaled c).vertexToRepair? = g.vertexToRepair? := by
  unfold vertexToRepair?
  rw [isAcceptable_rescaled hc, greatestLength_rescaled]
  unfold rescaled
  dsimp only
  rw [longest?_scaleVec hc, lowest?_scaleVec hc]

end Geometry

namespace Simplex

/-! ## Rescaled simplices -/

structure Rescaled (u : Rescaling K n) (s : Simplex K S n m) (s' : Simplex K S' n m) : Prop where
  pole : s'.pole = u.point s.pole
  edges : ColMatrix.Scaled u.length s.edges s'.edges
  inverse : ColMatrix.Scaled u.length⁻¹ s.inverse s'.inverse
  poleSample : s.poleSample.Rescaled u s'.poleSample
  others : List.Forall₂ (Sample.Rescaled u) s.others.toList s'.others.toList

namespace Rescaled

variable {s : Simplex K S n m} {s' : Simplex K S' n m} {r : Sample K S m} {r' : Sample K S' m}

theorem size (h : Rescaled u s s') : s'.others.size = s.others.size := by
  rw [← Array.length_toList, ← Array.length_toList, h.others.length_eq]

theorem offset (h : Rescaled u s s') (d : Vector K n) :
    s'.offset (scaleVec u.length d) = u.point (s.offset d) := by
  unfold Simplex.offset
  rw [h.pole, u.addVec_point]

theorem samples (h : Rescaled u s s') (hfull : s.others.size = n) (v : Vertex n) :
    ∃ r r', s.sample? v = some r ∧ s'.sample? v = some r' ∧ r.Rescaled u r' := by
  cases v with
  | pole => exact ⟨_, _, rfl, rfl, h.poleSample⟩
  | other j =>
    have hj : j.val < s.others.toList.length := by rw [Array.length_toList, hfull]; exact j.isLt
    have hj' : j.val < s'.others.toList.length := h.others.length_eq ▸ hj
    refine ⟨s.others.toList[j.val], s'.others.toList[j.val], ?_, ?_, h.others.get hj hj'⟩
    · rw [sample?_other, ← Array.getElem?_toList, List.getElem?_eq_getElem hj]
    · rw [sample?_other, ← Array.getElem?_toList, List.getElem?_eq_getElem hj']

theorem objective (h : Rescaled u s s') (hfull : s.others.size = n) (v : Vertex n) :
    s'.objective v = u.value (s.objective v) := by
  obtain ⟨r, r', hr, hr', hrescaled⟩ := h.samples hfull v
  rw [objective_of_sample? hr, objective_of_sample? hr', hrescaled.objective]

theorem maxViolation (h : Rescaled u s s') (hfull : s.others.size = n) (v : Vertex n) :
    s'.maxViolation v = u.violation * s.maxViolation v := by
  obtain ⟨r, r', hr, hr', hrescaled⟩ := h.samples hfull v
  rw [maxViolation_of_sample? hr, maxViolation_of_sample? hr', hrescaled.maxViolation]

theorem constraint (h : Rescaled u s s') (hfull : s.others.size = n) (v : Vertex n) (k : Fin m) :
    s'.constraint v k = u.violation * s.constraint v k := by
  obtain ⟨r, r', hr, hr', hrescaled⟩ := h.samples hfull v
  unfold Simplex.constraint
  rw [hr, hr']
  exact hrescaled.constraint k

/-! ## Growing the first simplex -/

theorem start (x : Vector K n) (radius : K) (hr : r.Rescaled u r') :
    Rescaled u (Simplex.start x radius r) (Simplex.start (u.point x) (u.length * radius) r') := by
  refine ⟨rfl, ColMatrix.scaled_ofFn fun i j => ?_, ColMatrix.scaled_ofFn fun i j => ?_, hr, .nil⟩
  · rw [mul_ite, mul_zero]
  · rw [mul_ite, mul_zero, one_div, one_div, mul_inv]

theorem nextInitial (h : Rescaled u s s') (hn : s.others.size < n) : s'.nextInitial = u.point s.nextInitial := by
  have hstep : (zeroVec n).setIfInBounds s.others.size (s'.edges.entry s.others.size s.others.size) =
      scaleVec u.length ((zeroVec n).setIfInBounds s.others.size (s.edges.entry s.others.size s.others.size)) := by
    ext i hi
    rw [getElem_scaleVec, Vector.getElem_setIfInBounds, Vector.getElem_setIfInBounds, h.edges _ hn _ hn]
    split
    · rfl
    · rw [getElem_zeroVec, mul_zero]
  unfold Simplex.nextInitial
  dsimp only
  rw [h.size, hstep, h.offset]

theorem extend (h : Rescaled u s s') (hn : s.others.size < n) (hr : r.Rescaled u r') :
    Rescaled u (s.extend r) (s'.extend r') := by
  have hlength := h.edges _ hn _ hn
  have hle : s'.objective .pole ≤ r'.objective ↔ s.objective .pole ≤ r.objective := by
    show s'.poleSample.objective ≤ _ ↔ s.poleSample.objective ≤ _
    rw [h.poleSample.objective, hr.objective, u.value_le_iff]
  unfold Simplex.extend
  dsimp only
  rw [h.size, hlength]
  by_cases hkeep : s.objective .pole ≤ r.objective
  · rw [if_pos hkeep, if_pos (hle.mpr hkeep)]
    refine ⟨h.pole, h.edges, h.inverse, h.poleSample, ?_⟩
    rw [Array.toList_push, Array.toList_push]
    exact List.rel_append h.others (.cons hr .nil)
  · rw [if_neg hkeep, if_neg (mt hle.mp hkeep)]
    refine ⟨?_, ColMatrix.scaled_ofFn fun i k => ?_, ColMatrix.scaled_ofFn fun i k => ?_, hr, ?_⟩
    · dsimp only
      rw [h.pole]
      ext i hi
      rw [u.getElem_point, Vector.getElem_setIfInBounds, Vector.getElem_setIfInBounds]
      split
      · next heq =>
        subst heq
        rw [getD_eq, dif_pos hi, getD_eq, dif_pos hi, u.getElem_point]
        ring
      · rw [u.getElem_point]
    · split
      · rw [mul_neg]
      · exact h.edges i i.isLt k k.isLt
    · split
      · next hik =>
        rw [mul_neg, sumOf_eq_sum, sumOf_eq_sum, Finset.mul_sum]
        congr 1
        refine Finset.sum_congr rfl fun l _ => h.inverse _ ?_ _ k.isLt
        omega
      · exact h.inverse i i.isLt k k.isLt
    · rw [Array.toList_push, Array.toList_push]
      exact List.rel_append h.others (.cons h.poleSample .nil)

/-! ## Moving vertices -/

theorem pivot (h : Rescaled u s s') (hfull : s.others.size = n) (j : Fin n) :
    Rescaled u (s.pivot j) (s'.pivot j) := by
  have hshift := h.edges.col j.isLt
  unfold Simplex.pivot
  refine ⟨?_, ColMatrix.scaled_ofFn fun i k => ?_, ColMatrix.scaled_ofFn fun i k => ?_, ?_, ?_⟩
  · show addVec s'.pole (s'.edges.col j) = u.point (addVec s.pole (s.edges.col j))
    rw [hshift, h.pole, u.addVec_point]
  · have hentry : (s'.edges.col j).get i = u.length * (s.edges.col j).get i := by
      rw [hshift, get_scaleVec]
    rw [hentry, h.edges i i.isLt k k.isLt, mul_sub, mul_ite, mul_zero]
  · split
    · rw [foldl_sub_eq_sum, foldl_sub_eq_sum, mul_sub, mul_zero, Finset.mul_sum]
      congr 1
      exact Finset.sum_congr rfl fun l _ => h.inverse l l.isLt k k.isLt
    · exact h.inverse i i.isLt k k.isLt
  · obtain ⟨r, r', hr, hr', hrescaled⟩ := h.samples hfull (.other j)
    rw [sample?_other] at hr hr'
    show (s.others.getD j s.poleSample).Rescaled u (s'.others.getD j s'.poleSample)
    rw [Array.getD_eq_getD_getElem?, Array.getD_eq_getD_getElem?, hr, hr']
    exact hrescaled
  · rw [Array.toList_setIfInBounds, Array.toList_setIfInBounds]
    exact forall₂_set h.others j h.poleSample

theorem pivotTo (h : Rescaled u s s') (hfull : s.others.size = n) (v : Vertex n) :
    Rescaled u (s.pivotTo v) (s'.pivotTo v) := by
  cases v with
  | pole => exact h
  | other j => exact h.pivot hfull j

theorem dot_row (h : Rescaled u s s') (j : Fin n) (d : Vector K n) :
    dot (s'.inverse.row j) (scaleVec u.length d) = dot (s.inverse.row j) d := by
  rw [h.inverse.row j.isLt, dot_scaleVec, inv_mul_cancel₀ u.length_pos.ne', one_mul]

theorem replace (h : Rescaled u s s') (j : Fin n) (d : Vector K n) :
    Rescaled u (s.replace j d) (s'.replace j (scaleVec u.length d)) := by
  have hpivot : ∀ (divisor : K) (k : Fin n), ((s'.inverse.row j).map (· / divisor)).get k =
      u.length⁻¹ * ((s.inverse.row j).map (· / divisor)).get k := fun divisor k => by
    rw [h.inverse.row j.isLt, get_eq_coords, get_eq_coords]
    simp [coords, mul_div_assoc]
  have hinverse : ColMatrix.Scaled u.length⁻¹ (s.replace j d).inverse
      (s'.replace j (scaleVec u.length d)).inverse := by
    unfold Simplex.replace
    dsimp only
    simp only [h.dot_row]
    refine ColMatrix.scaled_ofFn fun i k => ?_
    rw [hpivot, h.inverse i i.isLt k k.isLt]
    split
    · rfl
    · ring
  exact ⟨h.pole, h.edges.setCol j d, hinverse, h.poleSample, h.others⟩

theorem store (h : Rescaled u s s') (j : Fin n) (hr : r.Rescaled u r') :
    Rescaled u (s.store j r) (s'.store j r') := by
  have hothers : List.Forall₂ (Sample.Rescaled u) (s.store j r).others.toList (s'.store j r').others.toList := by
    unfold Simplex.store
    dsimp only
    rw [Array.toList_setIfInBounds, Array.toList_setIfInBounds]
    exact forall₂_set h.others j hr
  exact ⟨h.pole, h.edges, h.inverse, h.poleSample, hothers⟩

theorem inverseError (h : Rescaled u s s') : s'.inverseError = s.inverseError := by
  unfold Simplex.inverseError
  refine foldl_rel (R := (· = ·)) (fun error' error i herror => ?_) rfl
  refine foldl_rel (R := (· = ·)) (fun error' error j herror => ?_) herror
  rw [herror, h.edges.col j.isLt, h.dot_row]

/-! ## Linear models -/

theorem value_of_ne (h : Rescaled u s s') (hfull : s.others.size = n) (v : Vertex n) {k : Fin (m + 1)}
    (hk : k ≠ Fin.last m) : s'.value v k = u.violation * s.value v k := by
  have hlt : k.val < m := ActiveSet.val_lt_iff_ne_last k |>.mpr hk
  unfold Simplex.value
  rw [dif_pos hlt, dif_pos hlt, h.constraint hfull]

theorem value_last (h : Rescaled u s s') (hfull : s.others.size = n) (v : Vertex n) :
    s'.value v (Fin.last m) = u.value (s.value v (Fin.last m)) := by
  have hnot : ¬ (Fin.last m).val < m := Nat.lt_irrefl m
  unfold Simplex.value
  rw [dif_neg hnot, dif_neg hnot, h.objective hfull]

/-- The rise of a value from one vertex to another does not depend on the origin. -/
theorem value_sub (h : Rescaled u s s') (hfull : s.others.size = n) (v w : Vertex n) (k : Fin (m + 1)) :
    s'.value v k - s'.value w k = u.unit k * (s.value v k - s.value w k) := by
  by_cases hk : k = Fin.last m
  · subst hk
    rw [h.value_last hfull, h.value_last hfull, u.value_sub_value, u.unit_last]
  · rw [h.value_of_ne hfull v hk, h.value_of_ne hfull w hk, u.unit_of_ne hk, mul_sub]

theorem linearize (h : Rescaled u s s') (hfull : s.others.size = n) :
    Linearization.Rescaled u s.linearize s'.linearize := by
  constructor
  · intro c
    have hrises : s'.rises c = scaleVec (u.unit c) (s.rises c) := by
      ext j hj
      unfold rises
      rw [getElem_scaleVec, Vector.getElem_ofFn, Vector.getElem_ofFn, h.value_sub hfull]
    rw [gradient_linearize, gradient_linearize]
    ext i hi
    rw [getElem_scaleVec, Vector.getElem_ofFn, Vector.getElem_ofFn, hrises, h.inverse.col hi, dot_scaleVec,
      ← div_eq_mul_inv, ← Rescaling.slope, mul_ite, mul_neg]
  · intro c hc
    rw [bound_linearize, bound_linearize, h.value_of_ne hfull _ hc, mul_neg]

/-! ## Shape and repair -/

theorem geometry (h : Rescaled u s s') (radius : K) :
    s'.geometry (u.length * radius) = (s.geometry radius).rescaled u.length := by
  unfold Simplex.geometry Geometry.rescaled
  congr 1
  · ext j hj
    have hinv : 0 ≤ u.length⁻¹ := inv_nonneg.mpr u.length_pos.le
    rw [getElem_scaleVec, Vector.getElem_ofFn, Vector.getElem_ofFn, h.inverse.row hj, normSq_scaleVec,
      sqrt_mul hinv (normSq_nonneg _), one_div, one_div, mul_inv, inv_inv]
  · ext j hj
    rw [getElem_scaleVec, Vector.getElem_ofFn, Vector.getElem_ofFn, h.edges.col hj, normSq_scaleVec,
      sqrt_mul u.length_pos.le (normSq_nonneg _)]

theorem violationBothWays (h : Rescaled u s s') {L L' : Linearization K n m} (hL : L.Rescaled u L') (d : Vector K n) :
    s'.violationBothWays L' (scaleVec u.length d) =
      (u.violation * (s.violationBothWays L d).1, u.violation * (s.violationBothWays L d).2) := by
  unfold Simplex.violationBothWays
  refine foldl_rel (R := fun found' found : K × K => found' = (u.violation * found.1, u.violation * found.2))
    (fun found' found k hfound => ?_) (by rw [mul_zero])
  have hconstraint : s'.constraint .pole k = u.violation * s.constraint .pole k := h.poleSample.constraint k
  rw [hfound, hL.dot, u.unit_of_ne (Fin.castSucc_lt_last k).ne, hconstraint]
  dsimp only
  rw [neg_mul_eq_mul_neg, ← mul_sub, ← mul_sub, larger_mul u.violation_pos.le, larger_mul u.violation_pos.le]

theorem repairStep (h : Rescaled u s s') {L L' : Linearization K n m} (hL : L.Rescaled u L') (g : Geometry K n)
    (j : Fin n) (penalty : K) : s'.repairStep (g.rescaled u.length) j L' (u.penalty * penalty) =
      scaleVec u.length (s.repairStep g j L penalty) := by
  have hstep : scaleVec (0.5 * (u.length * g.radius) * (u.length * g.heights.get j)) (s'.inverse.row j) =
      scaleVec u.length (scaleVec (0.5 * g.radius * g.heights.get j) (s.inverse.row j)) := by
    have hne := u.length_pos.ne'
    rw [h.inverse.row j.isLt]
    ext i hi
    simp only [getElem_scaleVec]
    field_simp
  unfold Simplex.repairStep
  dsimp only [Geometry.rescaled]
  rw [get_scaleVec, hstep]
  generalize scaleVec (0.5 * g.radius * g.heights.get j) (s.inverse.row j) = d
  rw [h.violationBothWays hL, hL.dot, u.unit_last]
  dsimp only
  have hmerit : u.penalty * penalty * (u.violation * (s.violationBothWays L d).1 -
      u.violation * (s.violationBothWays L d).2) =
      u.objective * (penalty * ((s.violationBothWays L d).1 - (s.violationBothWays L d).2)) := by
    rw [← u.penalty_mul_violation]
    ring
  rw [hmerit, ← mul_add]
  simp only [mul_lt_mul_iff_right₀ u.objective_pos]
  split
  · ext i hi
    simp
  · rfl

/-! ## Replacement -/

theorem volumeRatios (h : Rescaled u s s') (d : Vector K n) :
    s'.volumeRatios (scaleVec u.length d) = s.volumeRatios d := by
  unfold Simplex.volumeRatios
  simp only [h.dot_row]

theorem edgeFrom (h : Rescaled u s s') (g : Geometry K n) (d : Vector K n) (improves : Bool) (j : Fin n) :
    s'.edgeFrom (g.rescaled u.length) (scaleVec u.length d) improves j = u.length * s.edgeFrom g d improves j := by
  unfold Simplex.edgeFrom
  cases improves with
  | true =>
    rw [if_pos rfl, if_pos rfl, h.edges.col j.isLt, distSq_scaleVec, sqrt_mul u.length_pos.le (distSq_nonneg _ _)]
  | false => exact get_scaleVec _ _ j

/-- The same vertex is replaced, whatever unit the reduction is measured in. -/
theorem vertexToReplace? (h : Rescaled u s s') (g : Geometry K n) (d : Vector K n) {c : K} (hc : 0 < c)
    (reduction : K) : s'.vertexToReplace? (g.rescaled u.length) (scaleVec u.length d) (c * reduction) =
      s.vertexToReplace? g d reduction := by
  have hpos : 0 < c * reduction ↔ 0 < reduction := mul_pos_iff_of_pos_left hc
  have hle : c * reduction ≤ 0 ↔ reduction ≤ 0 := by rw [← not_lt, hpos, not_lt]
  unfold Simplex.vertexToReplace?
  dsimp only
  rw [h.volumeRatios, Geometry.leastHeight_rescaled]
  simp only [hpos, hle, h.edgeFrom]
  congr 1
  refine foldl_found u.length (fun found value j => ?_) none (mul_left_comm _ _ _)
  have hheight : (g.rescaled u.length).heights.get j = u.length * g.heights.get j := get_scaleVec _ _ j
  dsimp only
  rw [hheight, mul_left_comm]
  simp only [mul_le_mul_iff_right₀ u.length_pos, mul_lt_mul_iff_right₀ u.length_pos]
  split
  · split <;> exact ⟨rfl, rfl⟩
  · exact ⟨rfl, rfl⟩

/-! ## Merits -/

theorem merit (h : Rescaled u s s') (hfull : s.others.size = n) (penalty : K) (v : Vertex n) :
    s'.merit (u.penalty * penalty) v = u.value (s.merit penalty v) := by
  unfold Simplex.merit
  rw [h.objective hfull, h.maxViolation hfull, mul_mul_mul_comm, u.penalty_mul_violation]
  unfold Rescaling.value
  ring

theorem beats (h : Rescaled u s s') (hfull : s.others.size = n) (penalty : K) (v w : Vertex n) :
    s'.beats (u.penalty * penalty) v w = s.beats penalty v w := by
  unfold Simplex.beats
  rw [h.merit hfull, h.merit hfull, h.maxViolation hfull, h.maxViolation hfull, u.value_beq_value,
    mul_beq_zero u.penalty_pos.ne']
  simp only [u.value_lt_iff, mul_lt_mul_iff_right₀ u.violation_pos]

theorem selectBest (h : Rescaled u s s') (hfull : s.others.size = n) (penalty : K) :
    s'.selectBest (u.penalty * penalty) = s.selectBest penalty := by
  unfold Simplex.selectBest
  simp only [h.beats hfull]

theorem poleIsBeaten (h : Rescaled u s s') (hfull : s.others.size = n) (penalty : K) :
    s'.poleIsBeaten (u.penalty * penalty) = s.poleIsBeaten penalty := by
  unfold Simplex.poleIsBeaten
  simp only [h.beats hfull]

/-! ## Spreads -/

theorem least_constraint (h : Rescaled u s s') (hfull : s.others.size = n) (k : Fin m) :
    Vertex.least (s'.constraint · k) = u.violation * Vertex.least (s.constraint · k) := by
  rw [← Vertex.least_comp (monotone_mul_left_of_nonneg u.violation_pos.le)]
  exact congrArg Vertex.least (funext fun v => h.constraint hfull v k)

theorem greatest_constraint (h : Rescaled u s s') (hfull : s.others.size = n) (k : Fin m) :
    Vertex.greatest (s'.constraint · k) = u.violation * Vertex.greatest (s.constraint · k) := by
  rw [← Vertex.greatest_comp (monotone_mul_left_of_nonneg u.violation_pos.le)]
  exact congrArg Vertex.greatest (funext fun v => h.constraint hfull v k)

theorem tight (h : Rescaled u s s') (hfull : s.others.size = n) : s'.tight = s.tight := by
  ext k
  rw [mem_tight, mem_tight, h.least_constraint hfull, h.greatest_constraint hfull, mul_left_comm,
    mul_lt_mul_iff_right₀ u.violation_pos]

theorem tightSpread (h : Rescaled u s s') (hfull : s.others.size = n) (k : Fin m) :
    s'.tightSpread k = u.violation * s.tightSpread k := by
  unfold Simplex.tightSpread
  rw [h.least_constraint hfull, h.greatest_constraint hfull, mul_sub, mul_max_of_nonneg _ _ u.violation_pos.le,
    mul_zero]

theorem leastTightSpread (h : Rescaled u s s') (hfull : s.others.size = n) :
    s'.leastTightSpread = u.violation * s.leastTightSpread := by
  have hspread : s'.tightSpread = (u.violation * ·) ∘ s.tightSpread := funext (h.tightSpread hfull)
  rw [leastTightSpread_eq, leastTightSpread_eq]
  simp only [h.tight hfull, hspread, mul_dite, mul_zero]
  congr 1
  ext hs
  exact (Finset.apply_inf'_eq_inf'_comp hs (u.violation * ·) fun _ _ => mul_min_of_nonneg _ _ u.violation_pos.le).symm

theorem objectiveSpread (h : Rescaled u s s') (hfull : s.others.size = n) :
    s'.objectiveSpread = u.objective * s.objectiveSpread := by
  have hobjective : s'.objective = u.value ∘ s.objective := funext (h.objective hfull)
  rw [objectiveSpread_eq, objectiveSpread_eq, hobjective, Vertex.least_comp u.monotone_value,
    Vertex.greatest_comp u.monotone_value, u.value_sub_value]

theorem rescaledPenalty (h : Rescaled u s s') (hfull : s.others.size = n) (penalty : K) :
    s'.rescaledPenalty (u.penalty * penalty) = u.penalty * s.rescaledPenalty penalty := by
  unfold Simplex.rescaledPenalty
  dsimp only
  rw [h.leastTightSpread hfull, h.objectiveSpread hfull, mul_beq_zero u.violation_pos.ne',
    mul_mul_mul_comm, u.penalty_mul_violation]
  simp only [mul_lt_mul_iff_right₀ u.objective_pos]
  split
  · rw [mul_zero]
  · split
    · rw [mul_div_mul_comm, Rescaling.penalty]
    · rfl

end Rescaled

end Simplex

end

end TrustSimplex
