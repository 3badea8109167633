import TrustSimplex.Proofs.TrustRegion.Order

/-!
# The factorization of an active set

The basis of an active set is a frame in which the active gradients are triangular, with the diagonal
that the set holds and nothing zero on it. Exchanges of neighbours, growth, replacement and removal
of an active constraint all keep it so.
-/

namespace TrustSimplex

def Linearization.slope {K : Type} [EuclideanField K] {n m : Nat} (L : Linearization K n m)
    (c : Fin (m + 1)) : Fin n → K :=
  coords (L.gradient c)

section
variable {K : Type} [EuclideanField K]

theorem nonzero?_eq_none_iff {x : K} : nonzero? x = none ↔ x = 0 := by
  unfold nonzero?
  by_cases h : x = 0 <;> simp [h]

theorem nonzero?_eq_some_iff {x y : K} : nonzero? x = some y ↔ x = y ∧ y ≠ 0 := by
  unfold nonzero?
  by_cases h : x = 0
  · subst h
    constructor
    · intro e; simp at e
    · intro e; exact absurd e.1.symm e.2
  · simp only [beq_iff_eq, h, if_false, Option.some.injEq]
    exact ⟨fun e => ⟨e, e ▸ h⟩, And.left⟩

end

namespace ActiveSet

section
variable {K : Type} [EuclideanField K] {n m : Nat} (L : Linearization K n m)

def axis (s : ActiveSet K n m) (k : Nat) : Fin n → K := coords (s.basis.col k)

def normal (s : ActiveSet K n m) (k : Nat) : Fin n → K := L.slope (s.constraintAt k)

/-- The basis is a frame in which the active gradients are triangular with a diagonal off zero. -/
structure Factored (s : ActiveSet K n m) : Prop where
  size_le_vars : s.size ≤ n
  size_le : s.size ≤ m + 1
  frame : IsFrame s.axis
  diagonal : ∀ i < s.size, s.axis i ⬝ᵥ s.normal L i = s.diagonalAt i
  diagonal_ne : ∀ i < s.size, s.diagonalAt i ≠ 0
  triangular : ∀ i < s.size, ∀ j, i < j → s.axis j ⬝ᵥ s.normal L i = 0

theorem axis_of_le (s : ActiveSet K n m) {k : Nat} (h : n ≤ k) : s.axis k = 0 := by
  rw [axis, col_of_le _ h, coords_zeroVec]

variable {L}

/-- The basis has zeros past its columns, so its vectors are orthogonal at all positions. -/
theorem Factored.axis_dot_axis {s : ActiveSet K n m} (h : s.Factored L) {j k : Nat} (hk : k < n)
    (hjk : j ≠ k) : s.axis j ⬝ᵥ s.axis k = 0 := by
  rcases Nat.lt_or_ge j n with hj | hj
  · exact h.frame.dot_of_ne hj hk hjk
  · rw [s.axis_of_le hj, zero_dotProduct]

/-! ## Exchanging neighbours -/

theorem axis_exchange_of_ne (s : ActiveSet K n m) {k j : Nat} (hjk : j ≠ k) (hjl : j ≠ k + 1) :
    (s.exchange L k).axis j = s.axis j := by
  unfold axis exchange
  dsimp only
  rw [col_exchangeCols_of_ne _ _ _ hjk hjl]

theorem exchangeLength_eq (s : ActiveSet K n m) (k : Nat) : s.exchangeLength L k =
    Scalar.sqrt ((s.axis k ⬝ᵥ s.normal L (k + 1)) * (s.axis k ⬝ᵥ s.normal L (k + 1)) +
      s.diagonalAt (k + 1) * s.diagonalAt (k + 1)) := by
  unfold exchangeLength
  rw [dot_eq]
  rfl

theorem axis_exchange_fst (s : ActiveSet K n m) {k : Nat} (hk : k + 1 < n) :
    (s.exchange L k).axis k =
      (s.axis k ⬝ᵥ s.normal L (k + 1) / s.exchangeLength L k) • s.axis k +
        (s.diagonalAt (k + 1) / s.exchangeLength L k) • s.axis (k + 1) := by
  unfold axis exchange
  dsimp only
  rw [coords_col_exchangeCols_fst _ _ _ (by omega) (by omega), exchangeLength_eq, dot_eq]
  rfl

theorem axis_exchange_snd (s : ActiveSet K n m) {k : Nat} (hk : k + 1 < n) :
    (s.exchange L k).axis (k + 1) =
      (s.diagonalAt (k + 1) / s.exchangeLength L k) • s.axis k +
        (-(s.axis k ⬝ᵥ s.normal L (k + 1) / s.exchangeLength L k)) • s.axis (k + 1) := by
  unfold axis exchange
  dsimp only
  rw [coords_col_exchangeCols_snd _ _ _ hk, exchangeLength_eq, dot_eq]
  rfl

theorem normal_exchange (s : ActiveSet K n m) {k : Nat} (hk : k + 1 < m + 1) (j : Nat) :
    (s.exchange L k).normal L j = s.normal L (Equiv.swap k (k + 1) j) :=
  congrArg L.slope (s.constraintAt_exchange hk j)

theorem Factored.exchange {s : ActiveSet K n m} (h : s.Factored L) {k : Nat} (hk : k + 1 < s.size) :
    (s.exchange L k).Factored L := by
  have hn := h.size_le_vars
  have hm := h.size_le
  have hfst := s.axis_exchange_fst (L := L) (k := k) (by omega)
  have hsnd := s.axis_exchange_snd (L := L) (k := k) (by omega)
  have hdiag := s.diagonalAt_exchange (L := L) (k := k) (by omega)
  have hnormal := s.normal_exchange (L := L) (k := k) (by omega)
  have hown : s.diagonalAt (k + 1) ≠ 0 := h.diagonal_ne _ hk
  have hkk : s.axis k ⬝ᵥ s.normal L k = s.diagonalAt k := h.diagonal k (by omega)
  have hlk : s.axis (k + 1) ⬝ᵥ s.normal L k = 0 := h.triangular k (by omega) _ (Nat.lt_succ_self k)
  have hll : s.axis (k + 1) ⬝ᵥ s.normal L (k + 1) = s.diagonalAt (k + 1) := h.diagonal _ hk
  obtain ⟨hpos, hlen⟩ : 0 < s.exchangeLength L k ∧ s.exchangeLength L k * s.exchangeLength L k =
      (s.axis k ⬝ᵥ s.normal L (k + 1)) * (s.axis k ⬝ᵥ s.normal L (k + 1)) +
        s.diagonalAt (k + 1) * s.diagonalAt (k + 1) := by
    rw [exchangeLength_eq]
    exact hypotenuse _ hown
  generalize s.exchangeLength L k = length at *
  generalize hkl : s.axis k ⬝ᵥ s.normal L (k + 1) = product at *
  generalize s.diagonalAt (k + 1) = own at *
  have hunit := unit_of_hypotenuse hpos hlen
  refine ⟨hn, hm, ?_, ?_, ?_, ?_⟩
  · refine h.frame.mix (k := k) (l := k + 1) (by omega) (by omega) (by omega) hunit ?_ ?_ hfst hsnd
      fun j hjk hjl => s.axis_exchange_of_ne hjk hjl
    · rw [← hunit]; ring
    · ring
  · intro i hi
    rw [hnormal, hdiag]
    by_cases hik : i = k
    · subst hik
      rw [Equiv.swap_apply_left, hfst, add_dotProduct, smul_dotProduct, smul_dotProduct, hkl, hll,
        if_pos rfl, smul_eq_mul, smul_eq_mul]
      field_simp
      rw [pow_two, pow_two, pow_two, hlen]
    by_cases hil : i = k + 1
    · subst hil
      rw [Equiv.swap_apply_right, hsnd, add_dotProduct, smul_dotProduct, smul_dotProduct, hkk, hlk,
        if_neg hik, if_pos rfl, smul_zero, add_zero, smul_eq_mul]
    rw [Equiv.swap_apply_of_ne_of_ne hik hil, s.axis_exchange_of_ne hik hil, if_neg hik, if_neg hil]
    exact h.diagonal i hi
  · intro i hi
    rw [hdiag]
    split_ifs
    · exact hpos.ne'
    · exact mul_ne_zero (div_ne_zero hown hpos.ne') (h.diagonal_ne k (by omega))
    · exact h.diagonal_ne i hi
  · intro i hi j hij
    rw [hnormal]
    by_cases hik : i = k
    · subst hik
      rw [Equiv.swap_apply_left]
      by_cases hj : j = i + 1
      · subst hj
        rw [hsnd, add_dotProduct, smul_dotProduct, smul_dotProduct, hkl, hll, smul_eq_mul, smul_eq_mul]
        ring
      · rw [s.axis_exchange_of_ne (by omega) hj]
        exact h.triangular _ hk j (by omega)
    by_cases hil : i = k + 1
    · subst hil
      rw [Equiv.swap_apply_right, s.axis_exchange_of_ne (by omega) (by omega)]
      exact h.triangular k (by omega) j (by omega)
    rw [Equiv.swap_apply_of_ne_of_ne hik hil]
    by_cases hjk : j = k
    · subst hjk
      rw [hfst, add_dotProduct, smul_dotProduct, smul_dotProduct, h.triangular i hi j hij,
        h.triangular i hi (j + 1) (by omega), smul_zero, smul_zero, add_zero]
    by_cases hjl : j = k + 1
    · subst hjl
      rw [hsnd, add_dotProduct, smul_dotProduct, smul_dotProduct, h.triangular i hi k (by omega),
        h.triangular i hi _ hij, smul_zero, smul_zero, add_zero]
    rw [s.axis_exchange_of_ne hjk hjl]
    exact h.triangular i hi j hij

/-! ## Moving a position to the end -/

theorem axis_foldl_exchange : ∀ (count : Nat) {k : Nat} (s : ActiveSet K n m) {j : Nat}, k + count < j →
    ((List.range' k count).foldl (ActiveSet.exchange L) s).axis j = s.axis j
  | 0, _, _, _, _ => rfl
  | count + 1, k, s, j, h => by
    rw [List.range'_succ, List.foldl_cons, axis_foldl_exchange count _ (by omega),
      s.axis_exchange_of_ne (by omega) (by omega)]

theorem axis_moveToEnd (s : ActiveSet K n m) {k j : Nat} (hk : k < s.size) (hj : s.size ≤ j) :
    (s.moveToEnd L k).axis j = s.axis j :=
  axis_foldl_exchange _ s ((add_last_sub_lt hk).trans_le hj)

theorem Factored.foldl_exchange : ∀ (count : Nat) {k : Nat} {s : ActiveSet K n m}, s.Factored L →
    k + count < s.size → ((List.range' k count).foldl (ActiveSet.exchange L) s).Factored L
  | 0, _, _, h, _ => h
  | count + 1, k, s, h, hk => by
    rw [List.range'_succ, List.foldl_cons]
    exact foldl_exchange count (h.exchange (by omega)) (by rw [size_exchange]; omega)

theorem Factored.moveToEnd {s : ActiveSet K n m} (h : s.Factored L) {k : Nat} (hk : k < s.size) :
    (s.moveToEnd L k).Factored L :=
  h.foldl_exchange _ (add_last_sub_lt hk)

theorem Factored.leave {s : ActiveSet K n m} (h : s.Factored L) {k : Nat} (hk : k < s.size) :
    (s.leave L k).Factored L := by
  have h' := h.moveToEnd hk
  have hs : (s.leave L k).size = s.size - 1 := s.size_leave L k
  have hs' : (s.moveToEnd L k).size = s.size := s.size_moveToEnd L k
  refine ⟨?_, ?_, h'.frame, fun i hi => h'.diagonal i ?_, fun i hi => h'.diagonal_ne i ?_,
    fun i hi => h'.triangular i ?_⟩
  · have := h.size_le_vars; omega
  · have := h.size_le; omega
  all_goals omega

/-! ## Aligning the basis with a gradient -/

/-- The columns of `B` from `low` on are those of `A` rotated, so that only the first of them has a
component along `g`; the component is given unless it is zero. -/
structure Aligned (A B : ColMatrix K n n) (g : Fin n → K) (low : Nat) (component : Option K) :
    Prop where
  frame : IsFrame fun j => coords (B.col j)
  col_of_lt : ∀ j < low, B.col j = A.col j
  orthogonal : ∀ w : Fin n → K, (∀ j, low ≤ j → coords (A.col j) ⬝ᵥ w = 0) →
    ∀ j, low ≤ j → coords (B.col j) ⬝ᵥ w = 0
  dependent : component = none → ∀ j, low ≤ j → coords (B.col j) ⬝ᵥ g = 0
  independent : ∀ x, component = some x → low < n ∧ x ≠ 0 ∧ coords (B.col low) ⬝ᵥ g = x ∧
    ∀ j, low < j → coords (B.col j) ⬝ᵥ g = 0

theorem dot_rotated {g z w : Fin n → K} {product rest length : K} (hz : z ⬝ᵥ g = product)
    (hw : w ⬝ᵥ g = rest) (hpos : 0 < length) (hlen : length * length = product * product + rest * rest) :
    ((product / length) • z + (rest / length) • w) ⬝ᵥ g = length ∧
      ((-(rest / length)) • z + (product / length) • w) ⬝ᵥ g = 0 := by
  simp only [add_dotProduct, smul_dotProduct, hz, hw, smul_eq_mul]
  constructor
  · field_simp
    rw [pow_two, pow_two, pow_two, hlen]
  · ring

theorem Aligned.absorb {A B : ColMatrix K n n} {gradient : Vector K n} {low : Nat}
    {component : Option K} (h : Aligned A B (coords gradient) (low + 1) component) (hlow : low < n) :
    Aligned A (absorb gradient (B, component) low).1 (coords gradient) low
      (absorb gradient (B, component) low).2 := by
  have hcol : B.col low = A.col low := h.col_of_lt low (Nat.lt_succ_self low)
  cases component with
  -- the columns behind have no component along the gradient, so only the one at `low` counts
  | none =>
    have hzero := h.dependent rfl
    refine ⟨h.frame, fun j hj => h.col_of_lt j (by omega), ?_, ?_, ?_⟩
    · intro w hw
      exact forall_ge_of_succ (by rw [ActiveSet.absorb, hcol]; exact hw low (Nat.le_refl low))
        (h.orthogonal w fun j hj => hw j (by omega))
    · intro hnone
      have := nonzero?_eq_none_iff.mp hnone
      rw [guardedDot_eq] at this
      exact forall_ge_of_succ this hzero
    · intro x hx
      obtain ⟨hp, hx0⟩ := nonzero?_eq_some_iff.mp hx
      rw [guardedDot_eq] at hp
      exact ⟨hlow, hx0, hp, hzero⟩
  -- the component of the column behind is rotated into the one at `low`
  | some rest =>
    obtain ⟨hlow', hrest, hdot, hzero⟩ := h.independent rest rfl
    unfold ActiveSet.absorb
    dsimp only
    rw [guardedDot_eq]
    generalize hproduct : coords (B.col low) ⬝ᵥ coords gradient = product
    obtain ⟨hpos, hlen⟩ := hypotenuse product hrest
    generalize Scalar.sqrt (product * product + rest * rest) = length at hlen hpos
    obtain ⟨hone, hnull⟩ := dot_rotated hproduct hdot hpos hlen
    have hunit := unit_of_hypotenuse hpos hlen
    have hfst := coords_col_rotateCols_fst B (k := low) (l := low + 1) (product / length)
      (rest / length) hlow (by omega)
    have hsnd := coords_col_rotateCols_snd B (k := low) (l := low + 1) (product / length)
      (rest / length) hlow'
    have hne := fun j => col_rotateCols_of_ne B (k := low) (l := low + 1) (product / length)
      (rest / length) (j := j)
    refine ⟨?_, ?_, ?_, ?_, ?_⟩
    · refine h.frame.mix (k := low) (l := low + 1) hlow hlow' (by omega) hunit ?_ ?_ hfst hsnd
        fun j hjk hjl => by rw [hne j hjk hjl]
      · rw [← hunit]; ring
      · ring
    · intro j hj
      rw [hne j (by omega) (by omega)]
      exact h.col_of_lt j (by omega)
    · intro w hw
      have hw' := forall_ge_of_succ (P := fun j => coords (B.col j) ⬝ᵥ w = 0)
        (by rw [hcol]; exact hw low (Nat.le_refl low)) (h.orthogonal w fun j hj => hw j (by omega))
      have hz := hw' low (Nat.le_refl low)
      have hz' := hw' (low + 1) (Nat.le_succ low)
      intro j hj
      by_cases hjk : j = low
      · subst hjk; rw [hfst, add_dotProduct, smul_dotProduct, smul_dotProduct, hz, hz']; simp
      by_cases hjl : j = low + 1
      · subst hjl; rw [hsnd, add_dotProduct, smul_dotProduct, smul_dotProduct, hz, hz']; simp
      rw [hne j hjk hjl]
      exact hw' j hj
    · intro hnone
      exact absurd (nonzero?_eq_none_iff.mp hnone) hpos.ne'
    · intro x hx
      obtain ⟨rfl, hx0⟩ := nonzero?_eq_some_iff.mp hx
      refine ⟨hlow, hx0, by rw [hfst]; exact hone, fun j hj => ?_⟩
      by_cases hjl : j = low + 1
      · subst hjl; rw [hsnd]; exact hnull
      · rw [hne j (by omega) hjl]; exact hzero j (by omega)

theorem aligned_foldl_absorb {A : ColMatrix K n n} (hA : IsFrame fun j => coords (A.col j))
    (gradient : Vector K n) : ∀ (count low : Nat), low + count = n →
      let found := (descending low n).foldl (ActiveSet.absorb gradient) (A, none)
      Aligned A found.1 (coords gradient) low found.2
  | 0, low, h => by
    have hl : low = n := by omega
    subst hl
    rw [foldl_descending_self]
    have hzero : ∀ j, low ≤ j → coords (A.col j) ⬝ᵥ coords gradient = 0 := fun j hj => by
      rw [col_of_le _ hj, coords_zeroVec, zero_dotProduct]
    exact ⟨hA, fun _ _ => rfl, fun _ hw => hw, fun _ => hzero, fun _ hx => nomatch hx⟩
  | count + 1, low, h => by
    rw [foldl_descending_of_lt _ _ (by omega)]
    exact (aligned_foldl_absorb hA gradient count (low + 1) (by omega)).absorb (by omega)

theorem Factored.aligned {s : ActiveSet K n m} (h : s.Factored L) (gradient : Vector K n) :
    Aligned s.basis (s.alignBasis gradient).1 (coords gradient) s.size (s.alignBasis gradient).2 :=
  aligned_foldl_absorb h.frame gradient (n - s.size) s.size (by have := h.size_le_vars; omega)

theorem Factored.withBasis {s : ActiveSet K n m} (h : s.Factored L) {B : ColMatrix K n n}
    {g : Fin n → K} {component : Option K} (hB : Aligned s.basis B g s.size component) :
    ({ s with basis := B } : ActiveSet K n m).Factored L := by
  have hlt : ∀ i < s.size, coords (B.col i) = s.axis i := fun i hi => by rw [hB.col_of_lt i hi]; rfl
  refine ⟨h.size_le_vars, h.size_le, hB.frame, fun i hi => ?_, h.diagonal_ne, fun i hi j hij => ?_⟩
  · show coords (B.col i) ⬝ᵥ _ = _
    rw [hlt i hi]
    exact h.diagonal i hi
  · have hi : i < s.size := hi
    show coords (B.col j) ⬝ᵥ _ = _
    rcases Nat.lt_or_ge j s.size with hj | hj
    · rw [hlt j hj]
      exact h.triangular i hi j hij
    · exact hB.orthogonal _ (fun l hl => h.triangular i hi l (by omega)) j hj

/-! ## Taking a place among the active ones -/

/-- A constraint whose gradient has a component along the last active column and none along those
behind it may take the last active position. -/
theorem Factored.placeLast {s t : ActiveSet K n m} {k : Nat} (hframe : IsFrame s.axis)
    (hn : s.size ≤ n) (hm : s.size ≤ m + 1) (hpos : 0 < s.size) (hk : s.last ≤ k) (hkm : k < m + 1)
    (hdiag : ∀ i < s.last, s.axis i ⬝ᵥ s.normal L i = s.diagonalAt i ∧ s.diagonalAt i ≠ 0)
    (htri : ∀ i < s.last, ∀ j, i < j → s.axis j ⬝ᵥ s.normal L i = 0)
    (hown : s.axis s.last ⬝ᵥ s.normal L k = s.diagonalAt s.last) (hne : s.diagonalAt s.last ≠ 0)
    (hzero : ∀ j, s.last < j → s.axis j ⬝ᵥ s.normal L k = 0) (ht : t = s.placeLast k) :
    t.Factored L := by
  subst ht
  have hlast : s.last < m + 1 := (last_lt hpos).trans_le hm
  have hnormal : ∀ j, (s.placeLast k).normal L j = s.normal L (Equiv.swap k s.last j) := fun j =>
    congrArg L.slope (s.constraintAt_placeLast hkm hlast j)
  have hlt : ∀ i < s.last, (s.placeLast k).normal L i = s.normal L i := fun i hi => by
    rw [hnormal, Equiv.swap_apply_of_ne_of_ne] <;> omega
  have hl : (s.placeLast k).normal L s.last = s.normal L k := by
    rw [hnormal, Equiv.swap_apply_right]
  have hsucc : s.size = s.last + 1 := (Nat.sub_add_cancel hpos).symm
  have split : ∀ {P : Nat → Prop}, (∀ i < s.last, P i) → P s.last → ∀ i < s.size, P i := by
    intro P h₁ h₂
    rw [hsucc]
    exact Nat.forall_lt_succ_right.mpr ⟨h₁, h₂⟩
  refine ⟨hn, hm, hframe, split (fun i hi => ?_) ?_, split (fun i hi => (hdiag i hi).2) hne,
    split (fun i hi j hij => ?_) fun j hj => ?_⟩
  · rw [hlt i hi]; exact (hdiag i hi).1
  · rw [hl]; exact hown
  · rw [hlt i hi]; exact htri i hi j hij
  · rw [hl]; exact hzero j hj

theorem Factored.grow {s : ActiveSet K n m} (h : s.Factored L) {k : Nat} {x : K} (hk : s.size ≤ k)
    (hkm : k < m + 1) (hn : s.size < n) (hx : x ≠ 0) (hown : s.axis s.size ⬝ᵥ s.normal L k = x)
    (hzero : ∀ j, s.size < j → s.axis j ⬝ᵥ s.normal L k = 0) :
    ((s.grow k x).placeLast k).Factored L := by
  have hd : ∀ j, (s.grow k x).diagonalAt j = if j = s.size then x else s.diagonalAt j := fun j =>
    diagonalAt_setDiagonal { s with size := s.size + 1 } (by omega) x j
  have hl : (s.grow k x).last = s.size := rfl
  have hs : (s.grow k x).size = s.size + 1 := s.size_grow k x
  refine Factored.placeLast (s := s.grow k x) h.frame (by omega) (by omega) (by omega) (by omega) hkm
    (fun i hi => ?_) (fun i hi => h.triangular i (by omega)) ?_ ?_ (fun j hj => hzero j (by omega)) rfl
  · rw [hd, if_neg (by omega)]
    exact ⟨h.diagonal i (by omega), h.diagonal_ne i (by omega)⟩
  · rw [hd, hl, if_pos rfl]
    exact hown
  · rw [hd, hl, if_pos rfl]
    exact hx

theorem Factored.supplant {s : ActiveSet K n m} (h : s.Factored L) (hpos : 0 < s.size) {k : Nat}
    {own ratio : K} (hk : s.size ≤ k) (hkm : k < m + 1) (hne : own ≠ 0)
    (hown : s.axis s.last ⬝ᵥ s.normal L k = own)
    (hzero : ∀ j, s.size ≤ j → s.axis j ⬝ᵥ s.normal L k = 0) : (s.supplant k own ratio).Factored L := by
  have hlt := last_lt hpos
  have hm := h.size_le
  let t := ((s.setDiagonal s.last own).setMultiplier k 0).setMultiplier s.last ratio
  have hd : ∀ j, t.diagonalAt j = if j = s.last then own else s.diagonalAt j := fun j =>
    s.diagonalAt_setDiagonal (by omega) own j
  have hl : t.last = s.last := rfl
  refine Factored.placeLast (s := t) h.frame h.size_le_vars hm hpos (by omega) hkm
    (fun i hi => ?_) (fun i hi => h.triangular i (by omega)) ?_ ?_
    (fun j hj => hzero j (by unfold last at hj hl; omega)) rfl
  · rw [hd, if_neg (by omega)]
    exact ⟨h.diagonal i (by omega), h.diagonal_ne i (by omega)⟩
  · rw [hd, hl, if_pos rfl]
    exact hown
  · rw [hd, hl, if_pos rfl]
    exact hne

end

end ActiveSet

end TrustSimplex
