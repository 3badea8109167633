import TrustSimplex.Proofs.Search.Solution
import TrustSimplex.Proofs.Simplex.Faces

/-!
# The vertex that a trial replaces

A trial that lowers the merit always takes the place of some vertex. The vertex is one off whose opposite face the
step leads, so the inverse stays exact; and where the trial is no better it is kept only if the new vertex is as far
from that face as the old one was, or at a sound height.
-/

namespace TrustSimplex

namespace Simplex

section
variable {K S : Type} [EuclideanField K] {n m : Nat} {s : Simplex K S n m} {radius : K} {d : Vector K n}
variable {reduction : K} {j : Fin n}

/-- A point that does not lower the merit is as high over its face as the vertex it replaces, or soundly high. -/
theorem Exact.height_le_or (h : s.Exact) (hreduction : reduction ≤ 0)
    (hj : s.vertexToReplace? (s.geometry radius) d reduction = some j) :
    (s.geometry radius).heights.get j ≤ (s.volumeRatios d).get j * (s.geometry radius).heights.get j ∨
      0.25 * radius ≤ (s.volumeRatios d).get j * (s.geometry radius).heights.get j := by
  rcases vertexToReplace?_spec hj with hheight | hratio
  · exact hheight.symm
  · rw [if_pos hreduction] at hratio
    exact Or.inl (le_mul_of_one_le_left (h.height_pos radius j).le hratio.le)

end

/-- A step along the first axis stays in the face opposite the second vertex. -/
theorem vertexToReplace?_rightAngle :
    rightAngle.vertexToReplace? (rightAngle.geometry 1) #v[2, 0] 0 = some 0 := by
  have hratio : ∀ j, (rightAngle.volumeRatios #v[2, 0]).get j = if j = 0 then 2 else 0 := by
    intro j
    rw [get_volumeRatios, dot_eq, coords_row_rightAngle, single_dotProduct, one_mul]
    fin_cases j <;> simp [coords]
  have hheight : 0 < (rightAngle.geometry 1).heights.get 1 := growing_rightAngle.exact.height_pos 1 1
  have hgreater : (if (0 : ℝ) ≤ 0 then 1 else 0) < (rightAngle.volumeRatios #v[2, 0]).get 0 := by
    rw [hratio]
    norm_num
  obtain ⟨j, hj⟩ := exists_vertexToReplace_of_lt (g := rightAngle.geometry 1) hgreater
  suffices hfirst : j ≠ 1 by rwa [show j = 0 by omega] at hj
  rintro rfl
  have hspec := vertexToReplace?_spec hj
  rw [hratio, if_neg one_ne_zero, zero_mul, leastHeight_geometry] at hspec
  rcases hspec with (hsound | hhigh) | hvolume
  · linarith
  · exact hheight.not_ge hhigh
  · norm_num at hvolume

end Simplex

namespace Search

section
variable {K I O ε σ : Type} [EuclideanField K] {n m : Nat}

theorem exists_accept_eq {u : State K I O σ n m} {step : Vector K n} {p : Prediction K}
    {r : Sample K (Snapshot I O) m} (h : u.simplex.Exact) (hstep : coords step ≠ 0)
    (hreduction : 0 < (reductions u p r).2) :
    ∃ (phase : Phase K ε n) (j : Fin n), u.simplex.vertexToReplace? u.geometry step (reductions u p r).2 = some j ∧
      accept u u.geometry step p r = (phase, { u with simplex := (u.simplex.replace j step).store j r }) := by
  have ho : Accepted u u.geometry step p r (accept u u.geometry step p r : Phase K ε n × State K I O σ n m) :=
    accepted ..
  generalize accept u u.geometry step p r = out at ho ⊢
  cases ho with
  | dropped hj =>
    obtain ⟨j, hsome⟩ := h.exists_vertexToReplace u.geometry hstep hreduction
    cases hj.symm.trans hsome
  | gained hj => exact ⟨_, _, hj, rfl⟩
  | stored hj => exact ⟨_, _, hj, rfl⟩

end

/-- A step that lowers the merit replaces a vertex, and its point takes that vertex's place with its sample, all others
staying as they are. The row of the inverse for the vertex that is replaced does not vanish along the step, so the
inverse is exact for the new edges. If the merit is not lowered, the new vertex is no nearer to the face opposite it
than the old one was, or at least a quarter of the radius away. -/
theorem replacement_sound (K : Type) [EuclideanField K] (n m : Nat) :
    (∀ (S : Type) (s : Simplex K S n m) (radius : K) (d : Vector K n) (reduction : K),
      s.Exact → 0 < radius → coords d ≠ 0 →
      (0 < reduction → ∃ j, s.vertexToReplace? (s.geometry radius) d reduction = some j) ∧
      ∀ j, s.vertexToReplace? (s.geometry radius) d reduction = some j →
        dot (s.inverse.row j) d ≠ 0 ∧ s.Replaced (s.replace j d) j d ∧
        (s.replace j d).inverse.toMatrix * (s.edges.setCol j d).toMatrix = 1 ∧
        (s.replace j d).face j = s.face j ∧
        IsDistance (s.position (.other j)) (s.face j) ((s.geometry radius).heights.get j) ∧
        (reduction ≤ 0 → ∃ δ, IsDistance (s.offset d) (s.face j) δ ∧
          ((s.geometry radius).heights.get j ≤ δ ∨ 0.25 * radius ≤ δ))) ∧
    ∀ (I O ε σ : Type) (u : State K I O σ n m) (step : Vector K n) (p : Prediction K)
      (r : Sample K (Snapshot I O) m),
      u.simplex.Exact → 0 < u.radius → coords step ≠ 0 → 0 < (reductions u p r).2 →
      ∃ (phase : Phase K ε n) (j : Fin n) (t : Simplex K (Snapshot I O) n m),
        accept u u.geometry step p r = (phase, { u with simplex := t }) ∧ u.simplex.Replaced t j step ∧
        (u.simplex.others.size = n → ∀ v, t.sample? v = if v = .other j then some r else u.simplex.sample? v) := by
  constructor
  · intro S s radius d reduction h hr hd
    refine ⟨h.exists_vertexToReplace _ hd, fun j hj => ?_⟩
    have hdot := h.dot_vertexToReplace_ne hr hj
    exact ⟨hdot, h.replaced hdot, h.replace hdot, s.face_replace j d, h.isDistance_vertex radius j,
      fun hreduction => ⟨_, h.isDistance_offset radius j d, h.height_le_or hreduction hj⟩⟩
  · intro I O ε σ u step p r h hr hstep hreduction
    obtain ⟨phase, j, hj, hkept⟩ := exists_accept_eq (ε := ε) h hstep hreduction
    have hreplaced := h.replaced (h.dot_vertexToReplace_ne hr hj)
    exact ⟨phase, j, _, hkept, hreplaced.store r, fun hfull v => Simplex.sample?_replace_store hfull j step r v⟩

/-- A point twice as far along the first edge as the vertex there takes its place, though the merit stays; and the last
trial on the cubic takes the place of the vertex at two. -/
theorem replacement_sound_rightAngle : let s := Simplex.rightAngle
    s.Exact ∧ (0 : ℝ) < 1 ∧ coords (#v[2, 0] : Vector ℝ 2) ≠ 0 ∧
    (∃ j, s.vertexToReplace? (s.geometry 1) #v[2, 0] 1 = some j) ∧
    s.vertexToReplace? (s.geometry 1) #v[2, 0] 0 = some 0 ∧ dot (s.inverse.row 0) #v[2, 0] ≠ 0 ∧
    (s.replace 0 #v[2, 0]).Exact ∧ (s.replace 0 #v[2, 0]).edges = s.edges.setCol 0 #v[2, 0] ∧
    (s.replace 0 #v[2, 0]).position (.other 0) = #v[2, 0] ∧
    (s.replace 0 #v[2, 0]).position (.other 1) = s.position (.other 1) ∧
    (∃ δ, IsDistance (s.offset #v[2, 0]) (s.face 0) δ ∧ ((s.geometry 1).heights.get 0 ≤ δ ∨ 0.25 * 1 ≤ δ)) ∧
    let u := cubicState 1 (.start ())
    u.simplex.Exact ∧ 0 < u.radius ∧ 0 < (reductions u ⟨0, 0⟩ (cubicSample (-1))).2 ∧
    ∃ (phase : Phase ℝ Empty 1) (t : Simplex ℝ (Snapshot (Vector ℝ 1) Unit) 1 0),
      accept u u.geometry #v[-1] ⟨0, 0⟩ (cubicSample (-1)) = (phase, { u with simplex := t }) ∧
      t.position (.other 0) = #v[-1] ∧ t.sample? (.other 0) = some (cubicSample (-1)) := by
  intro s
  have hexact : s.Exact := Simplex.growing_rightAngle.exact
  have hstep : coords (#v[2, 0] : Vector ℝ 2) ≠ 0 := fun h => by
    have := congrFun h 0
    simp [coords] at this
  have hfirst := Simplex.vertexToReplace?_rightAngle
  obtain ⟨hlower, -⟩ := (replacement_sound ℝ 2 0).1 Unit s 1 #v[2, 0] 1 hexact one_pos hstep
  obtain ⟨-, hany⟩ := (replacement_sound ℝ 2 0).1 Unit s 1 #v[2, 0] 0 hexact one_pos hstep
  obtain ⟨hdot, hreplaced, -, -, -, hdistance⟩ := hany 0 hfirst
  have hmoved : s.offset #v[2, 0] = #v[2, 0] := Simplex.offset_eq_self coords_zeroVec _
  have hback : coords (#v[-1] : Vector ℝ 1) ≠ 0 := Linearization.coords_singleton_ne_zero (by norm_num)
  have hgain : 0 < (reductions (cubicState 1 (.start ())) ⟨0, 0⟩ (cubicSample (-1))).2 := by
    rw [reductions_cubic_neg_one]
    norm_num
  obtain ⟨phase, j, t, haccept, hkept, hsamples⟩ :=
    (replacement_sound ℝ 1 0).2 _ _ Empty _ (cubicState 1 (.start ())) #v[-1] ⟨0, 0⟩ (cubicSample (-1))
      exact_cubicSimplex one_pos hback hgain
  obtain rfl : j = 0 := Subsingleton.elim j 0
  have hsample := hsamples rfl (.other 0)
  rw [if_pos rfl] at hsample
  exact ⟨hexact, one_pos, hstep, hlower one_pos, hfirst, hdot, hreplaced.exact, hreplaced.edges,
    hreplaced.moved.trans hmoved, hreplaced.stays _ (by decide), hdistance (le_refl 0), exact_cubicSimplex, one_pos,
    hgain, phase, t, haccept, hkept.moved.trans (offset_cubicSimplex _), hsample⟩

end Search

end TrustSimplex
