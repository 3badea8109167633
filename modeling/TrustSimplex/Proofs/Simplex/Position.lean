import TrustSimplex.Proofs.Simplex.Inverse
import TrustSimplex.Proofs.Simplex.Selection

/-!
# Where the vertices are

Edges are measured from the pole, and growing the simplex or turning to another pole measures all of them
anew. No vertex moves by it: what holds of the place and the sample of every vertex holds of them after
`extend` and `pivotTo`, and a vertex that is replaced and stored brings its own.
-/

namespace TrustSimplex

namespace Simplex

/-! ## Samples of a growing simplex -/

section
variable {α S : Type} {n m : Nat} {s : Simplex α S n m}

theorem sample?_push {r r' : Sample α S m} {j : Fin n}
    (h : ({ s with others := s.others.push r } : Simplex α S n m).sample? (.other j) = some r') :
    (j.val = s.others.size ∧ r' = r) ∨ (j.val < s.others.size ∧ s.sample? (.other j) = some r') := by
  rw [sample?_other, Array.getElem?_push] at h
  split at h
  · next hj => cases h; exact Or.inl ⟨hj, rfl⟩
  · exact Or.inr ⟨(Array.getElem?_eq_some_iff.mp h).1, h⟩

end

section
variable {K S : Type} [EuclideanField K] {n m : Nat} {s : Simplex K S n m} {r : Sample K S m} {radius : K}

/-! ## Positions as coordinates -/

def edge (s : Simplex K S n m) : Vertex n → Fin n → K
  | .pole => 0
  | .other j => coords (s.edges.col j)

theorem coords_position (s : Simplex K S n m) (v : Vertex n) :
    coords (s.position v) = coords s.pole + s.edge v := by
  cases v with
  | pole => exact (add_zero _).symm
  | other j => exact coords_addVec _ _

theorem position_eq_iff {t : Simplex K S n m} {v w : Vertex n} :
    t.position v = s.position w ↔ coords t.pole + t.edge v = coords s.pole + s.edge w := by
  rw [← coords_position, ← coords_position, coords_injective.eq_iff]

theorem offset_zeroVec (s : Simplex K S n m) : s.offset (zeroVec n) = s.pole := by
  apply coords_injective
  simp [offset]

theorem offset_eq_self (h : coords s.pole = 0) (d : Vector K n) : s.offset d = d := by
  apply coords_injective
  rw [offset, coords_addVec, h, zero_add]

/-! ## Everything at the vertices -/

/-- `P` holds of the place and the sample of every vertex that was evaluated. -/
def Everywhere (P : Vector K n → Sample K S m → Prop) (s : Simplex K S n m) : Prop :=
  ∀ v r, s.sample? v = some r → P (s.position v) r

theorem Everywhere.imp {P Q : Vector K n → Sample K S m → Prop} (h : s.Everywhere P) (hPQ : ∀ x r, P x r → Q x r) :
    s.Everywhere Q :=
  fun v r hr => hPQ _ _ (h v r hr)

theorem Everywhere.pole {P : Vector K n → Sample K S m → Prop} (h : s.Everywhere P) : P s.pole s.poleSample :=
  h .pole _ rfl

theorem everywhere_start {P : Vector K n → Sample K S m → Prop} {x : Vector K n} (h : P x r) :
    (start x radius r).Everywhere P := by
  intro v r' hr
  cases v with
  | pole => cases hr; exact h
  | other j => cases hr

/-! ## Growing the first simplex -/

def AxesAhead (s : Simplex K S n m) (radius : K) : Prop :=
  ∀ c : Fin n, s.others.size ≤ c → coords (s.edges.col c) = Pi.single c radius

theorem axesAhead_start (x : Vector K n) (first : Sample K S m) : (start x radius first).AxesAhead radius := by
  intro c _
  funext i
  rw [coords_col, Pi.single_apply]
  show (ColMatrix.identity n radius).entry i c = _
  rw [ColMatrix.entry_identity n radius i.isLt c.isLt]
  simp only [Fin.ext_iff]

theorem AxesAhead.extend (h : s.AxesAhead radius) (hgrowing : s.Growing radius) (hbuilding : s.isBuilding = true)
    (r : Sample K S m) : (s.extend r).AxesAhead radius := by
  have hn : s.others.size < n := of_decide_eq_true hbuilding
  intro c hc
  rw [size_others_extend] at hc
  by_cases hle : s.objective .pole ≤ r.objective
  · have hsame : s.extend r = { s with others := s.others.push r } := if_pos hle
    rw [hsame]
    exact h c (Nat.le_of_succ_le hc)
  · have hahead : ¬ c ≤ (⟨s.others.size, hn⟩ : Fin n) := not_le.mpr hc
    rw [(hgrowing.turned (j := ⟨s.others.size, hn⟩) rfl hle).edge c, if_neg hahead, zero_smul, sub_zero]
    exact h c (Nat.le_of_succ_le hc)

theorem coords_nextInitial (h : s.AxesAhead radius) {j : Fin n} (hj : s.others.size = j) :
    coords s.nextInitial = coords s.pole + Pi.single j radius := by
  have hlength : s.edges.entry j j = radius := by
    rw [← coords_col, h j hj.le, Pi.single_eq_same]
  have hstep : coords ((zeroVec n).setIfInBounds j.val radius) = Pi.single j radius := by
    funext i
    rw [Pi.single_apply]
    simp [coords, Vector.getElem_setIfInBounds, Fin.ext_iff, eq_comm]
  unfold nextInitial
  dsimp only
  rw [hj, hlength, offset, coords_addVec, hstep]

theorem position_next (h : s.AxesAhead radius) {j : Fin n} (hj : s.others.size = j) :
    s.position (.other j) = s.nextInitial := by
  apply coords_injective
  rw [coords_position, coords_nextInitial h hj]
  show _ + coords (s.edges.col j) = _
  rw [h j hj.le]

theorem pole_extend (h : s.AxesAhead radius) {j : Fin n} (hj : s.others.size = j)
    (hlt : ¬ s.objective .pole ≤ r.objective) : (s.extend r).pole = s.nextInitial := by
  have hlength : s.edges.entry j j = radius := by
    rw [← coords_col, h j hj.le, Pi.single_eq_same]
  apply coords_injective
  rw [coords_nextInitial h hj]
  unfold extend
  rw [if_neg hlt]
  dsimp only
  rw [hj, hlength]
  funext i
  by_cases hi : j = i
  · subst hi
    simp [coords, Vector.getD]
  · have hne : j.val ≠ i.val := fun e => hi (Fin.ext e)
    simp [coords, hne, Ne.symm hi]

/-- The vertices so far stay where they are when the new one becomes the pole. -/
theorem position_turned (h : s.AxesAhead radius) (hgrowing : s.Growing radius) {j : Fin n} (hj : s.others.size = j)
    (hlt : ¬ s.objective .pole ≤ r.objective) {c : Fin n} (hc : c ≤ j) :
    (s.extend r).position (.other c) = s.position (if c = j then .pole else .other c) := by
  have hpole : coords (s.extend r).pole = coords s.pole + Pi.single j radius := by
    rw [pole_extend h hj hlt, coords_nextInitial h hj]
  have hedge : (s.extend r).edge (.other c) = coords (s.edges.col c) -
      (if c ≤ j then (if j = c then radius else 0) + radius else 0) • Pi.single j 1 :=
    (hgrowing.turned hj hlt).edge c
  rw [position_eq_iff, hpole, hedge, if_pos hc]
  by_cases hcj : c = j
  · have htwice : (radius + radius) • (Pi.single j 1 : Fin n → K) = Pi.single j radius + Pi.single j radius := by
      rw [← Pi.single_smul', smul_eq_mul, mul_one, Pi.single_add]
    rw [if_pos hcj, if_pos hcj.symm, hcj, h j hj.le, htwice, show s.edge .pole = 0 from rfl]
    abel
  · have honce : (0 + radius) • (Pi.single j 1 : Fin n → K) = Pi.single j radius := by
      rw [zero_add, ← Pi.single_smul', smul_eq_mul, mul_one]
    rw [if_neg hcj, if_neg (Ne.symm hcj), honce, show s.edge (.other c) = coords (s.edges.col c) from rfl]
    abel

theorem Everywhere.extend {P : Vector K n → Sample K S m → Prop} (h : s.Everywhere P) (haxes : s.AxesAhead radius)
    (hgrowing : s.Growing radius) (hbuilding : s.isBuilding = true) (hr : P s.nextInitial r) :
    (s.extend r).Everywhere P := by
  have hn : s.others.size < n := of_decide_eq_true hbuilding
  intro v r' hr'
  by_cases hle : s.objective .pole ≤ r.objective
  · have hsame : s.extend r = { s with others := s.others.push r } := if_pos hle
    rw [hsame] at hr' ⊢
    cases v with
    | pole => exact h .pole r' hr'
    | other c =>
      rcases sample?_push hr' with ⟨hc, rfl⟩ | ⟨-, hold⟩
      · rw [← position_next haxes hc.symm] at hr
        exact hr
      · exact h (.other c) r' hold
  · have hothers : (s.extend r).others = s.others.push s.poleSample := by
      unfold Simplex.extend
      rw [if_neg hle]
    cases v with
    | pole =>
      have hsample : (s.extend r).poleSample = r := by
        unfold Simplex.extend
        rw [if_neg hle]
      cases hr'
      rw [hsample]
      show P (s.extend r).pole r
      rw [pole_extend haxes (j := ⟨s.others.size, hn⟩) rfl hle]
      exact hr
    | other c =>
      have hpushed : ({ s with others := s.others.push s.poleSample } : Simplex K S n m).sample? (.other c) =
          some r' := by
        rw [sample?_other, ← hothers]
        exact hr'
      rcases sample?_push hpushed with ⟨hc, rfl⟩ | ⟨hc, hold⟩
      · rw [position_turned haxes hgrowing hc.symm hle (le_refl c), if_pos rfl]
        exact h.pole
      · have hbehind : c < (⟨s.others.size, hn⟩ : Fin n) := hc
        rw [position_turned haxes hgrowing rfl hle hbehind.le, if_neg hbehind.ne]
        exact h (.other c) r' hold

/-! ## Turning to another pole -/

theorem edge_pivotTo (s : Simplex K S n m) (v w : Vertex n) :
    (s.pivotTo v).edge w = s.edge (Equiv.swap .pole v w) - s.edge v := by
  cases v with
  | pole => rw [Equiv.swap_self]; exact (sub_zero _).symm
  | other j =>
    cases w with
    | pole => rw [Equiv.swap_apply_left, sub_self]; rfl
    | other c =>
      show coords ((s.pivot j).edges.col c) = _ - coords (s.edges.col j)
      rw [edge_pivot]
      by_cases hc : c = j
      · rw [if_pos hc, hc, Equiv.swap_apply_right]
        rfl
      · have hpole : Vertex.other c ≠ .pole := nofun
        rw [if_neg hc, Equiv.swap_apply_of_ne_of_ne hpole (fun e => hc (Vertex.other.inj e))]
        rfl

theorem position_pivotTo (s : Simplex K S n m) (v w : Vertex n) :
    (s.pivotTo v).position w = s.position (Equiv.swap .pole v w) := by
  have hpole : coords (s.pivotTo v).pole = coords s.pole + s.edge v := by
    cases v with
    | pole => exact (add_zero _).symm
    | other j => exact coords_addVec _ _
  rw [position_eq_iff, hpole, edge_pivotTo]
  abel

theorem Everywhere.pivotTo {P : Vector K n → Sample K S m → Prop} (h : s.Everywhere P)
    (hfull : s.others.size = n) (v : Vertex n) : (s.pivotTo v).Everywhere P := by
  intro w r hr
  rw [sample?_pivotTo hfull] at hr
  rw [position_pivotTo]
  exact h _ r hr

/-! ## Moving a vertex -/

theorem position_replace (s : Simplex K S n m) (j : Fin n) (d : Vector K n) (v : Vertex n) :
    (s.replace j d).position v = if v = .other j then s.offset d else s.position v := by
  cases v with
  | pole => rfl
  | other c =>
    show s.offset ((s.edges.setCol j d).col c) = _
    by_cases hc : c = j
    · rw [hc, if_pos rfl, ColMatrix.col_setCol_self _ _ j.isLt]
    · rw [if_neg fun e => hc (Vertex.other.inj e), ColMatrix.col_setCol_of_ne _ _ fun e => hc (Fin.ext e.symm)]
      rfl

/-- `t` is `s` with vertex `j` moved to where the step `d` leads from the pole, and its inverse is exact. -/
structure Replaced (s t : Simplex K S n m) (j : Fin n) (d : Vector K n) : Prop where
  edges : t.edges = s.edges.setCol j d
  exact : t.Exact
  moved : t.position (.other j) = s.offset d
  stays : ∀ v, v ≠ .other j → t.position v = s.position v

theorem Exact.replaced (h : s.Exact) {j : Fin n} {d : Vector K n} (hd : dot (s.inverse.row j) d ≠ 0) :
    s.Replaced (s.replace j d) j d where
  edges := rfl
  exact := h.replace hd
  moved := by rw [position_replace, if_pos rfl]
  stays v hv := by rw [position_replace, if_neg hv]

theorem position_store (s : Simplex K S n m) (j : Fin n) (r : Sample K S m) (v : Vertex n) :
    (s.store j r).position v = s.position v := by
  cases v <;> rfl

theorem Replaced.store {t : Simplex K S n m} {j : Fin n} {d : Vector K n} (h : s.Replaced t j d)
    (r : Sample K S m) : s.Replaced (t.store j r) j d where
  edges := h.edges
  exact := h.exact
  moved := (t.position_store j r _).trans h.moved
  stays v hv := (t.position_store j r v).trans (h.stays v hv)

theorem sample?_replace_store (hfull : s.others.size = n) (j : Fin n) (d : Vector K n) (r : Sample K S m)
    (v : Vertex n) : ((s.replace j d).store j r).sample? v = if v = .other j then some r else s.sample? v := by
  have hj : j.val < (s.replace j d).others.size := j.isLt.trans_eq hfull.symm
  have hsame : (s.replace j d).sample? v = s.sample? v := by cases v <;> rfl
  rw [sample?_store _ hj, hsame]

theorem Everywhere.replace_store {P : Vector K n → Sample K S m → Prop} (h : s.Everywhere P)
    (hfull : s.others.size = n) (j : Fin n) {d : Vector K n} (hr : P (s.offset d) r) :
    ((s.replace j d).store j r).Everywhere P := by
  intro v r' hr'
  rw [sample?_replace_store hfull] at hr'
  rw [position_store, position_replace]
  split_ifs at hr' ⊢ with hv
  · cases hr'
    exact hr
  · exact h v r' hr'

end

end Simplex

end TrustSimplex
