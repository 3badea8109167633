import TrustSimplex.Proofs.TrustRegion.Frame

/-!
# The order of an active set

Exchange of neighbours, entry and removal permute the constraints of an active set, whatever the scalars are. An entry
puts the new constraint last, and the objective, if it was last, right before it.
-/

namespace TrustSimplex

/-! ## Loops downwards -/

section
variable {β : Type} (f : β → Nat → β) (b : β)

theorem foldl_descending_self (k : Nat) : (descending k k).foldl f b = b := by simp [descending]

theorem foldl_descending_of_lt {low high : Nat} (h : low < high) :
    (descending low high).foldl f b = f ((descending (low + 1) high).foldl f b) low := by
  have e : high - low = (high - (low + 1)) + 1 := by omega
  simp only [descending, e, List.range'_succ, List.reverse_cons, List.foldl_append, List.foldl_cons,
    List.foldl_nil]

theorem mem_descending {low high k : Nat} : k ∈ descending low high ↔ low ≤ k ∧ k < high := by
  simp only [descending, List.mem_reverse, List.mem_range'_1]
  omega

theorem forall_ge_of_succ {P : Nat → Prop} {low : Nat} (h₀ : P low) (h₁ : ∀ j, low + 1 ≤ j → P j) :
    ∀ j, low ≤ j → P j := by
  intro j hj
  rcases Nat.lt_or_ge low j with hlt | hge
  · exact h₁ j hlt
  · exact (Nat.le_antisymm hj hge) ▸ h₀

end

/-! ## Cycles of positions -/

def cycleFrom (k : Nat) : Nat → Equiv.Perm Nat
  | 0 => 1
  | count + 1 => Equiv.swap k (k + 1) * cycleFrom (k + 1) count

theorem cycleFrom_of_lt (count : Nat) : ∀ {k j : Nat}, j < k → cycleFrom k count j = j := by
  induction count with
  | zero => intro k j _; rfl
  | succ count ih =>
    intro k j h
    rw [cycleFrom, Equiv.Perm.mul_apply, ih (by omega), Equiv.swap_apply_of_ne_of_ne] <;> omega

theorem cycleFrom_of_gt (count : Nat) : ∀ {k j : Nat}, k + count < j → cycleFrom k count j = j := by
  induction count with
  | zero => intro k j _; rfl
  | succ count ih =>
    intro k j h
    rw [cycleFrom, Equiv.Perm.mul_apply, ih (by omega), Equiv.swap_apply_of_ne_of_ne] <;> omega

theorem cycleFrom_end (count : Nat) : ∀ k : Nat, cycleFrom k count (k + count) = k := by
  induction count with
  | zero => intro k; rfl
  | succ count ih =>
    intro k
    rw [cycleFrom, Equiv.Perm.mul_apply, show k + (count + 1) = k + 1 + count by omega, ih,
      Equiv.swap_apply_right]

theorem cycleFrom_between (count : Nat) :
    ∀ {k j : Nat}, k ≤ j → j < k + count → cycleFrom k count j = j + 1 := by
  induction count with
  | zero => intro k j h₁ h₂; omega
  | succ count ih =>
    intro k j h₁ h₂
    rw [cycleFrom, Equiv.Perm.mul_apply]
    by_cases hj : j = k
    · subst hj; rw [cycleFrom_of_lt count (Nat.lt_succ_self j), Equiv.swap_apply_left]
    · rw [ih (by omega) (by omega), Equiv.swap_apply_of_ne_of_ne] <;> omega

theorem cycleFrom_lt_iff {k count size : Nat} (h : k + count < size) (j : Nat) :
    cycleFrom k count j < size ↔ j < size := by
  rcases Nat.lt_or_ge j k with h₁ | h₁
  · rw [cycleFrom_of_lt count h₁]
  rcases Nat.lt_or_ge j (k + count) with h₂ | h₂
  · rw [cycleFrom_between count h₁ h₂]; omega
  rcases Nat.lt_or_ge (k + count) j with h₃ | h₃
  · rw [cycleFrom_of_gt count h₃]
  · have : j = k + count := by omega
    subst this; rw [cycleFrom_end]; omega

theorem swap_lt_iff {i j size : Nat} (hi : i < size) (hj : j < size) (k : Nat) :
    Equiv.swap i j k < size ↔ k < size := by
  rw [Equiv.swap_apply_def]
  split_ifs <;> omega

namespace ActiveSet

section
variable {α : Type} {n m : Nat} {s t : ActiveSet α n m}

theorem add_last_sub_lt {k : Nat} (hk : k < s.size) : k + (s.last - k) < s.size := by
  unfold last
  omega

theorem cycleFrom_last {k : Nat} (hk : k < s.size) : cycleFrom k (s.last - k) s.last = k := by
  have := cycleFrom_end (s.last - k) k
  rwa [Nat.add_sub_of_le (by unfold last; omega)] at this

theorem constraintAt_placeLast (s : ActiveSet α n m) {k : Nat} (hk : k < m + 1) (hl : s.last < m + 1)
    (j : Nat) : (s.placeLast k).constraintAt j = s.constraintAt (Equiv.swap k s.last j) := by
  show ((s.order.setIfInBounds _ _).setIfInBounds _ _).getD j _ = _
  rw [getD_setIfInBounds, getD_setIfInBounds, Equiv.swap_apply_def]
  by_cases hjl : j = s.last
  · subst hjl
    rw [if_pos ⟨rfl, hl⟩]
    by_cases hjk : s.last = k
    · rw [if_pos hjk, hjk]
    · rw [if_neg hjk, if_pos rfl]
  by_cases hjk : j = k
  · subst hjk; rw [if_neg (by omega), if_pos ⟨rfl, hk⟩, if_pos rfl]
  · rw [if_neg (by omega), if_neg (by omega), if_neg hjk, if_neg hjl]; rfl

/-- The objective stands last of all, behind the active constraints. -/
def ObjectiveApart {K : Type} {n m : Nat} (s : ActiveSet K n m) : Prop :=
  s.constraintAt m = Fin.last m ∧ s.size ≤ m

def ObjectiveLast {K : Type} {n m : Nat} (s : ActiveSet K n m) : Prop :=
  0 < s.size ∧ s.constraintAt s.last = Fin.last m

/-! ## Orders -/

structure Arranged (s : ActiveSet α n m) : Prop where
  size_le_vars : s.size ≤ n
  size_le : s.size ≤ m + 1
  distinct : ∀ i < m + 1, ∀ j < m + 1, s.constraintAt i = s.constraintAt j → i = j

theorem Arranged.permute (h : s.Arranged) (hn : t.size ≤ n) (hm : t.size ≤ m + 1) (σ : Equiv.Perm Nat)
    (hall : ∀ j, σ j < m + 1 ↔ j < m + 1) (hc : ∀ j, t.constraintAt j = s.constraintAt (σ j)) :
    t.Arranged := by
  refine ⟨hn, hm, fun i hi j hj e => ?_⟩
  rw [hc, hc] at e
  exact σ.injective (h.distinct _ ((hall i).mpr hi) _ ((hall j).mpr hj) e)

theorem constraintAt_of_order (horder : t.order = s.order) : t.constraintAt = s.constraintAt := by
  funext j
  simp only [constraintAt, horder]

/-- A set that differs in none but its basis and its numbers is arranged alike. -/
theorem Arranged.of_order (h : s.Arranged) (horder : t.order = s.order) (hsize : t.size = s.size) :
    t.Arranged := by
  refine ⟨hsize ▸ h.size_le_vars, hsize ▸ h.size_le, ?_⟩
  simpa only [constraintAt_of_order horder] using h.distinct

theorem Arranged.eq_of_last (h : s.Arranged) (hl : s.ObjectiveLast) {k : Nat} (hk : k < m + 1)
    (hobj : s.constraintAt k = Fin.last m) : k = s.last := by
  have hlt := last_lt hl.1
  have hm := h.size_le
  exact h.distinct k hk s.last (by omega) (hobj.trans hl.2.symm)

theorem Arranged.eq_of_apart (h : s.Arranged) (ha : s.ObjectiveApart) {k : Nat} (hk : k < m + 1)
    (hobj : s.constraintAt k = Fin.last m) : k = m :=
  h.distinct k hk m (Nat.lt_succ_self m) (hobj.trans ha.1.symm)

structure Admitted (s t : ActiveSet α n m) (k : Nat) : Prop where
  pos : 0 < t.size
  size_le : t.size ≤ k + 1
  entrant : t.constraintAt t.last = s.constraintAt k
  kept : ∀ j < t.last, ∃ i < s.size, t.constraintAt j = s.constraintAt i
  above : ∀ j, k < j → t.constraintAt j = s.constraintAt j
  objective : 0 < s.size → s.constraintAt s.last = Fin.last m →
    0 < t.last ∧ t.constraintAt (t.last - 1) = Fin.last m

theorem Admitted.of_order {r : ActiveSet α n m} {k : Nat} (h : Admitted r t k) (horder : r.order = s.order)
    (hsize : r.size = s.size) : Admitted s t k := by
  have hl : r.last = s.last := congrArg (· - 1) hsize
  obtain ⟨hpos, hle, hentrant, hkept, habove, hobjective⟩ := h
  simp only [constraintAt_of_order horder, hsize, hl] at hentrant hkept habove hobjective
  exact ⟨hpos, hle, hentrant, hkept, habove, hobjective⟩

end

section
variable {α : Type} [Scalar α] {n m : Nat} {L : Linearization α n m} {s t : ActiveSet α n m}

theorem nonzero?_of_some {x y : α} (h : nonzero? x = some y) : x = y ∧ (y == 0) = false := by
  unfold nonzero? at h
  by_cases hx : (x == 0) = true
  · simp [hx] at h
  · simp only [hx, if_false, Option.some.injEq, Bool.false_eq_true] at h
    exact ⟨h, by simpa [h] using hx⟩

/-! ## Exchanging neighbours -/

theorem constraintAt_exchange (s : ActiveSet α n m) {k : Nat} (hk : k + 1 < m + 1) (j : Nat) :
    (s.exchange L k).constraintAt j = s.constraintAt (Equiv.swap k (k + 1) j) :=
  getD_swapIfInBounds _ (by omega) hk j _

theorem multiplier_exchange (s : ActiveSet α n m) {k : Nat} (hk : k + 1 < m + 1) (j : Nat) :
    (s.exchange L k).multiplier j = s.multiplier (Equiv.swap k (k + 1) j) :=
  getD_swapIfInBounds _ (by omega) hk j _

def exchangeLength (L : Linearization α n m) (s : ActiveSet α n m) (k : Nat) : α :=
  let product := dot (s.basis.col k) (L.gradient (s.constraintAt (k + 1)))
  Scalar.sqrt (product * product + s.diagonalAt (k + 1) * s.diagonalAt (k + 1))

theorem diagonalAt_exchange (s : ActiveSet α n m) {k : Nat} (hk : k + 1 < m + 1) (j : Nat) :
    (s.exchange L k).diagonalAt j =
      if j = k then s.exchangeLength L k
      else if j = k + 1 then s.diagonalAt (k + 1) / s.exchangeLength L k * s.diagonalAt k
      else s.diagonalAt j := by
  show ((s.diagonal.setIfInBounds _ _).setIfInBounds _ _).getD j 0 = _
  rw [getD_setIfInBounds, getD_setIfInBounds]
  by_cases hj : j = k
  · subst hj; rw [if_pos ⟨rfl, by omega⟩, if_pos rfl]; rfl
  by_cases hj' : j = k + 1
  · subst hj'; rw [if_neg (by omega), if_pos ⟨rfl, hk⟩, if_neg hj, if_pos rfl]; rfl
  rw [if_neg (by omega), if_neg (by omega), if_neg hj, if_neg hj']; rfl

theorem Arranged.exchange (h : s.Arranged) {k : Nat} (hk : k + 1 < s.size) : (s.exchange L k).Arranged := by
  have hm := h.size_le
  exact h.permute h.size_le_vars hm (Equiv.swap k (k + 1)) (swap_lt_iff (by omega) (by omega))
    (s.constraintAt_exchange (by omega))

theorem read_foldl_exchange {β : Type} (read : ActiveSet α n m → Nat → β)
    (hread : ∀ s k j, k + 1 < m + 1 → read (s.exchange L k) j = read s (Equiv.swap k (k + 1) j)) :
    ∀ (count : Nat) {k : Nat} (s : ActiveSet α n m) (j : Nat), k + count < m + 1 →
      read ((List.range' k count).foldl (ActiveSet.exchange L) s) j = read s (cycleFrom k count j)
  | 0, _, _, _, _ => rfl
  | count + 1, k, s, j, h => by
    rw [List.range'_succ, List.foldl_cons, read_foldl_exchange read hread count _ j (by omega),
      hread s k _ (by omega), cycleFrom, Equiv.Perm.mul_apply]

theorem constraintAt_moveToEnd (s : ActiveSet α n m) {k : Nat} (hk : k < s.size) (hm : s.size ≤ m + 1)
    (j : Nat) : (s.moveToEnd L k).constraintAt j = s.constraintAt (cycleFrom k (s.last - k) j) :=
  read_foldl_exchange constraintAt (fun s _ j h => s.constraintAt_exchange h j) _ s j
    ((add_last_sub_lt hk).trans_le hm)

theorem multiplier_moveToEnd (s : ActiveSet α n m) {k : Nat} (hk : k < s.size) (hm : s.size ≤ m + 1)
    (j : Nat) : (s.moveToEnd L k).multiplier j = s.multiplier (cycleFrom k (s.last - k) j) :=
  read_foldl_exchange multiplier (fun s _ j h => s.multiplier_exchange h j) _ s j
    ((add_last_sub_lt hk).trans_le hm)

theorem Arranged.moveToEnd (h : s.Arranged) {k : Nat} (hk : k < s.size) : (s.moveToEnd L k).Arranged := by
  have hm := h.size_le
  have hlast := add_last_sub_lt hk
  refine h.permute ?_ ?_ (cycleFrom k (s.last - k)) (cycleFrom_lt_iff (by omega)) (s.constraintAt_moveToEnd hk hm)
  · simpa using h.size_le_vars
  · simpa using hm

theorem Arranged.leave (h : s.Arranged) {k : Nat} (hk : k < s.size) : (s.leave L k).Arranged := by
  have hn := h.size_le_vars
  have hm := h.size_le
  have hsize := s.size_leave L k
  exact ⟨by omega, by omega, (h.moveToEnd hk).distinct⟩

theorem ObjectiveApart.leave (ha : s.ObjectiveApart) (hm : s.size ≤ m + 1) {k : Nat} (hk : k < s.size) :
    (s.leave L k).ObjectiveApart := by
  have hle := ha.2
  have hsize := s.size_leave L k
  refine ⟨(s.constraintAt_moveToEnd hk hm m).trans ?_, by omega⟩
  rw [cycleFrom_of_gt _ ((add_last_sub_lt hk).trans_le hle), ha.1]

/-- The objective stays last when a constraint before it leaves. -/
theorem ObjectiveLast.leave (hl : s.ObjectiveLast) (hm : s.size ≤ m + 1) {k : Nat} (hk : k + 1 < s.size) :
    (s.leave L k).ObjectiveLast := by
  have hsize := s.size_leave L k
  refine ⟨by omega, (s.constraintAt_moveToEnd (by omega) hm _).trans ?_⟩
  unfold last
  rw [hsize, cycleFrom_between _ (by omega) (by omega), Nat.sub_add_cancel (by omega)]
  exact hl.2

theorem objectiveLast_exchange (hm : s.size ≤ m + 1) (hpos : 0 < s.last)
    (hbefore : s.constraintAt (s.last - 1) = Fin.last m) : (s.exchange L (s.last - 1)).ObjectiveLast := by
  have hlt : s.last - 1 + 1 < s.size := by unfold last at hpos ⊢; omega
  refine ⟨Nat.zero_lt_of_lt hlt, (s.constraintAt_exchange (by omega) _).trans ?_⟩
  have hlast : (s.exchange L (s.last - 1)).last = s.last - 1 + 1 := by
    rw [Nat.sub_add_cancel hpos]
    rfl
  rw [hlast, Equiv.swap_apply_right, hbefore]

/-! ## Entering -/

theorem diagonalAt_setDiagonal (s : ActiveSet α n m) {k : Nat} (hk : k < m + 1) (x : α) (j : Nat) :
    (s.setDiagonal k x).diagonalAt j = if j = k then x else s.diagonalAt j := by
  show (s.diagonal.setIfInBounds _ _).getD j 0 = _
  rw [getD_setIfInBounds]
  by_cases hj : j = k
  · subst hj; rw [if_pos ⟨rfl, hk⟩, if_pos rfl]
  · rw [if_neg (by omega), if_neg hj]; rfl

theorem multiplier_setMultiplier (s : ActiveSet α n m) {k : Nat} (hk : k < m + 1) (y : α) (j : Nat) :
    (s.setMultiplier k y).multiplier j = if j = k then y else s.multiplier j := by
  show (s.multipliers.setIfInBounds _ _).getD j 0 = _
  rw [getD_setIfInBounds]
  by_cases hj : j = k
  · subst hj; rw [if_pos ⟨rfl, hk⟩, if_pos rfl]
  · rw [if_neg (by omega), if_neg hj]; rfl

theorem constraintAt_grow {k : Nat} (y : α) (hk : s.size ≤ k) (hkm : k < m + 1) (j : Nat) :
    ((s.grow k y).placeLast k).constraintAt j = s.constraintAt (Equiv.swap k s.size j) :=
  constraintAt_placeLast (s.grow k y) hkm (by show s.size < m + 1; omega) j

def supplant (s : ActiveSet α n m) (k : Nat) (own ratio : α) : ActiveSet α n m :=
  (((s.setDiagonal s.last own).setMultiplier k 0).setMultiplier s.last ratio).placeLast k

theorem constraintAt_supplant (hpos : 0 < s.size) {k : Nat} (own ratio : α) (hk : s.size ≤ k)
    (hkm : k < m + 1) (j : Nat) :
    (s.supplant k own ratio).constraintAt j = s.constraintAt (Equiv.swap k s.last j) :=
  constraintAt_placeLast (((s.setDiagonal s.last own).setMultiplier k 0).setMultiplier s.last ratio) hkm
    (by show s.size - 1 < m + 1; omega) j

theorem admitted_grow (s : ActiveSet α n m) {k : Nat} (y : α) (hk : s.size ≤ k) (hkm : k < m + 1) :
    Admitted s ((s.grow k y).placeLast k) k := by
  have hc := constraintAt_grow y hk hkm
  have hlt : ∀ j < s.size, Equiv.swap k s.size j = j := fun j hj => by
    rw [Equiv.swap_apply_of_ne_of_ne] <;> omega
  refine ⟨Nat.succ_pos _, Nat.succ_le_succ hk, ?_, fun j hj => ⟨j, hj, ?_⟩, fun j hj => ?_,
    fun hpos hobj => ⟨hpos, ?_⟩⟩
  · rw [hc]
    exact congrArg s.constraintAt (Equiv.swap_apply_right _ _)
  · rw [hc, hlt j hj]
  · rw [hc, Equiv.swap_apply_of_ne_of_ne] <;> omega
  · rw [hc]
    have hj : s.size + 1 - 1 - 1 < s.size := by omega
    exact (congrArg s.constraintAt (hlt _ hj)).trans hobj

theorem Arranged.grow (h : s.Arranged) {k : Nat} {y : α} (hk : s.size ≤ k) (hkm : k < m + 1) (hn : s.size < n) :
    ((s.grow k y).placeLast k).Arranged := by
  refine h.permute (by exact hn) ?_ (Equiv.swap k s.size) (swap_lt_iff hkm (by omega)) (constraintAt_grow y hk hkm)
  show s.size + 1 ≤ m + 1
  omega

theorem admitted_supplant (s : ActiveSet α n m) {k q : Nat} (own ratio : α) (hm : s.size ≤ m + 1) (hq : q < s.size)
    (hobj : s.constraintAt q ≠ Fin.last m) (hk : s.size ≤ k) (hkm : k < m + 1) :
    Admitted s ((s.moveToEnd L q).supplant k own ratio) k := by
  have hsize : (s.moveToEnd L q).size = s.size := s.size_moveToEnd L q
  have hlast : (s.moveToEnd L q).last = s.last := s.last_moveToEnd L q
  have ht : ((s.moveToEnd L q).supplant k own ratio).size = s.size := hsize
  have htl : ((s.moveToEnd L q).supplant k own ratio).last = s.last := hlast
  have hlt : s.last < s.size := last_lt (by omega)
  have hc : ∀ j, ((s.moveToEnd L q).supplant k own ratio).constraintAt j =
      s.constraintAt (cycleFrom q (s.last - q) (Equiv.swap k s.last j)) := fun j => by
    rw [constraintAt_supplant (by omega) _ _ (by omega) hkm, s.constraintAt_moveToEnd hq hm, hlast]
  have hcycle := cycleFrom_lt_iff (add_last_sub_lt hq)
  have hout : ∀ j, s.size ≤ j → cycleFrom q (s.last - q) j = j := fun j hj =>
    cycleFrom_of_gt _ ((add_last_sub_lt hq).trans_le hj)
  refine ⟨by omega, by omega, ?_, fun j hj => ⟨cycleFrom q (s.last - q) j, ?_, ?_⟩, fun j hj => ?_,
    fun hpos hobjective => ?_⟩
  · rw [htl, hc, Equiv.swap_apply_right, hout k hk]
  · rw [hcycle]
    rw [htl] at hj
    exact hj.trans hlt
  · rw [htl] at hj
    rw [hc, Equiv.swap_apply_of_ne_of_ne (by omega) hj.ne]
  · rw [hc, Equiv.swap_apply_of_ne_of_ne (by omega) (by omega), hout j (by omega)]
  · rw [htl]
    have hne : q ≠ s.last := fun e => hobj (e ▸ hobjective)
    have hql : q < s.last := by unfold last at hne ⊢; omega
    refine ⟨by omega, ?_⟩
    rw [hc, Equiv.swap_apply_of_ne_of_ne (by omega) (by omega),
      cycleFrom_between _ (by omega) (by omega), Nat.sub_add_cancel (by omega)]
    exact hobjective

theorem Arranged.supplant (h : s.Arranged) (hpos : 0 < s.size) {k : Nat} {own ratio : α} (hk : s.size ≤ k)
    (hkm : k < m + 1) : (s.supplant k own ratio).Arranged := by
  have hlt := last_lt hpos
  exact h.permute h.size_le_vars h.size_le (Equiv.swap k s.last) (swap_lt_iff hkm (by omega))
    (constraintAt_supplant hpos own ratio hk hkm)

/-! ## What an entry does -/

theorem component_of_absorb {gradient : Vector α n} {found : ColMatrix α n n × Option α} {k : Nat} {y : α}
    (h : (absorb gradient found k).2 = some y) : (y == 0) = false := by
  obtain ⟨basis, component⟩ := found
  cases component with
  | none => exact (nonzero?_of_some h).2
  | some rest => exact (nonzero?_of_some h).2

/-- A gradient has a component of its own only if a column is free. -/
theorem component_of_alignBasis {gradient : Vector α n} {y : α} (h : (s.alignBasis gradient).2 = some y) :
    s.size < n ∧ (y == 0) = false := by
  unfold alignBasis at h
  rcases Nat.lt_or_ge s.size n with hlt | hge
  · rw [foldl_descending_of_lt _ _ hlt] at h
    exact ⟨hlt, component_of_absorb h⟩
  · simp [descending, Nat.sub_eq_zero_of_le hge] at h

/-- The constraint that leaves for a dependent one is active, and not the objective. -/
theorem leaving_of_dependence {gradient : Vector α n} {q : Nat} {ratio : α}
    (h : (s.dependence L gradient).leaving = some (q, ratio)) :
    q < s.size ∧ s.constraintAt q ≠ Fin.last m := by
  have hall : ∀ k ∈ descending 0 s.size, k < s.size := fun k hk => (mem_descending.mp hk).2
  have hnone : ∀ found ∈ (⟨gradient, zeroVec (m + 1), none⟩ : Dependence α n m).leaving,
      found.1 < s.size ∧ s.constraintAt found.1 ≠ Fin.last m := by simp
  unfold dependence at h
  generalize (⟨gradient, zeroVec (m + 1), none⟩ : Dependence α n m) = d at h hnone
  generalize descending 0 s.size = ks at h hall
  induction ks generalizing d with
  | nil => exact hnone _ h
  | cons k ks ih =>
    refine ih (s.splitOff L d k) (fun found hfound => ?_) h fun j hj => hall j (by simp [hj])
    unfold splitOff at hfound
    cases hz : nonzero? (guardedDot (s.basis.col k) d.rest) with
    | none =>
      rw [hz] at hfound
      exact hnone found hfound
    | some product =>
      rw [hz] at hfound
      dsimp only at hfound
      split at hfound
      · next htest =>
        simp only [Bool.and_eq_true, decide_eq_true_eq] at htest
        simp only [Option.mem_def, Option.some.injEq] at hfound
        subst hfound
        refine ⟨hall k (by simp), fun e => ?_⟩
        have hlt := htest.1.2
        simp [e] at hlt
      · exact hnone found hfound

def dependenceAt (L : Linearization α n m) (s : ActiveSet α n m) (k : Nat) : Dependence α n m :=
  let gradient := L.gradient (s.constraintAt k)
  ({ s with basis := (s.alignBasis gradient).1 } : ActiveSet α n m).dependence L gradient

/-- What the entrant at position `k` keeps along the last axis once the constraint at `q` has made room for it. -/
def ownComponent (L : Linearization α n m) (s : ActiveSet α n m) (k q : Nat) (ratio : α) : α :=
  let gradient := L.gradient (s.constraintAt k)
  let r := ({ s with basis := (s.alignBasis gradient).1 } : ActiveSet α n m).shiftMultipliers ratio
    (s.dependenceAt L k).coefficients
  let u := r.moveToEnd L q
  dot (u.basis.col u.last) gradient

theorem enter_of_leaving {k q : Nat} {ratio : α} (halign : (s.alignBasis (L.gradient (s.constraintAt k))).2 = none)
    (hleaving : (s.dependenceAt L k).leaving = some (q, ratio)) :
    (s.enter L k).1 = (nonzero? (s.ownComponent L k q ratio)).isSome := by
  unfold ownComponent
  unfold dependenceAt at hleaving ⊢
  unfold enter
  dsimp only at hleaving ⊢
  generalize s.alignBasis (L.gradient (s.constraintAt k)) = found at halign hleaving ⊢
  obtain ⟨B, component⟩ := found
  cases halign
  dsimp only at hleaving ⊢
  rw [hleaving]
  dsimp only
  split <;> next hown => rw [hown]; rfl

inductive Entering (L : Linearization α n m) (s : ActiveSet α n m) (k : Nat) : Bool × ActiveSet α n m → Prop
  | grown {B : ColMatrix α n n} {y : α} (hn : s.size < n) (hy : (y == 0) = false) :
      Entering L s k (true, (({ s with basis := B } : ActiveSet α n m).grow k y).placeLast k)
  | locked {B : ColMatrix α n n} : Entering L s k (false, { s with basis := B })
  | replaced {r : ActiveSet α n m} {q : Nat} {own ratio : α} (horder : r.order = s.order) (hsize : r.size = s.size)
      (hdiagonal : r.diagonal = s.diagonal) (hq : q < s.size) (hobj : s.constraintAt q ≠ Fin.last m)
      (hown : (own == 0) = false) : Entering L s k (true, (r.moveToEnd L q).supplant k own ratio)
  | spoiled {r : ActiveSet α n m} {q : Nat} (horder : r.order = s.order) (hsize : r.size = s.size)
      (hdiagonal : r.diagonal = s.diagonal) (hq : q < s.size) : Entering L s k (false, r.moveToEnd L q)

theorem entering (L : Linearization α n m) (s : ActiveSet α n m) (k : Nat) : Entering L s k (s.enter L k) := by
  unfold enter
  dsimp only
  generalize hfound : s.alignBasis (L.gradient (s.constraintAt k)) = found
  obtain ⟨B, component⟩ := found
  dsimp only
  cases component with
  | some y =>
    have hcomponent := component_of_alignBasis (congrArg Prod.snd hfound)
    exact .grown hcomponent.1 hcomponent.2
  | none =>
    cases hd : (dependence L { s with basis := B } (L.gradient (s.constraintAt k))).leaving with
    | none => exact .locked
    | some leaving =>
      obtain ⟨q, ratio⟩ := leaving
      have hleaving := leaving_of_dependence hd
      dsimp only
      split
      · exact .spoiled rfl rfl rfl hleaving.1
      · next hown => exact .replaced rfl rfl rfl hleaving.1 hleaving.2 (nonzero?_of_some hown).2

/-- An entry keeps the order of all constraints. If it succeeds, the entrant is last. -/
theorem Arranged.enter (h : s.Arranged) {k : Nat} (hk : s.size ≤ k) (hkm : k < m + 1) :
    (s.enter L k).2.Arranged ∧ ((s.enter L k).1 = true → Admitted s (s.enter L k).2 k) ∧
      ((s.enter L k).1 = false → (s.enter L k).2.size = s.size ∧
        ∀ j, s.size ≤ j → (s.enter L k).2.constraintAt j = s.constraintAt j) := by
  have hentering := entering L s k
  generalize s.enter L k = out at hentering
  cases hentering with
  | @grown B y hn _ =>
    have hB : ({ s with basis := B } : ActiveSet α n m).Arranged := h.of_order rfl rfl
    exact ⟨hB.grow hk hkm hn, fun _ => (admitted_grow { s with basis := B } y hk hkm).of_order rfl rfl, nofun⟩
  | locked => exact ⟨h.of_order rfl rfl, nofun, fun _ => ⟨rfl, fun _ _ => rfl⟩⟩
  | @replaced r q own ratio horder hsize _ hq hobj _ =>
    have hr := h.of_order horder hsize
    have hqr : q < r.size := by omega
    have hobj : r.constraintAt q ≠ Fin.last m := by rwa [constraintAt_of_order horder]
    have hmoved : (r.moveToEnd L q).size = s.size := by rw [size_moveToEnd, hsize]
    have hadmitted := admitted_supplant (L := L) r own ratio hr.size_le hqr hobj (by omega) hkm
    exact ⟨(hr.moveToEnd hqr).supplant (by omega) (by omega) hkm, fun _ => hadmitted.of_order horder hsize, nofun⟩
  | @spoiled r q horder hsize _ hq =>
    have hr := h.of_order horder hsize
    refine ⟨hr.moveToEnd (by omega), nofun, fun _ => ⟨by rw [size_moveToEnd, hsize], fun j hj => ?_⟩⟩
    have hlast := add_last_sub_lt (s := r) (k := q) (by omega)
    rw [r.constraintAt_moveToEnd (by omega) hr.size_le, cycleFrom_of_gt _ (by omega), constraintAt_of_order horder]

end

end ActiveSet

end TrustSimplex
