import TrustSimplex.Proofs.Double
import TrustSimplex.Proofs.TrustRegion.Checked
import TrustSimplex.Proofs.TrustRegion.Divisors

/-!
# No check fails

At the top of every pass the constraints are in order and the diagonal passes any test of divisors, so no check of the pass
fails, provided that the other values it tests pass; and then the checked search is the search.
-/

namespace TrustSimplex

section
variable {α : Type} [Scalar α] {n m : Nat}

/-! ## Values clamped at zero -/

inductive ActiveSet.Shifted (L : Linearization α n m) (s : ActiveSet α n m) (k : Nat) : α → Prop
  | intro {q j : Nat} {ratio : α} (halign : (s.alignBasis (L.gradient (s.constraintAt k))).2 = none)
      (hleaving : (s.dependenceAt L k).leaving = some (q, ratio)) (hj : j < s.size) :
      Shifted L s k (s.multiplier j - ratio * (s.dependenceAt L k).coefficients.getD j 0)

inductive Draft.Tested (L : Linearization α n m) (radius : α) (d : Draft α n m) : Stage → Fault → α → Prop
  | part {stage : Stage} {t v : α} {k : Nat} (h : d.Heads L radius stage t v) (hk : k < stage.width m)
      (hneg : (d.multipliersAt L stage v (d.targetAt t)).getD k 0 < 0) : Tested L radius d stage .divisor
        (d.active.multiplier k - (d.multipliersAt L stage v (d.targetAt t)).getD k 0)
  | objective {t v : α} (h : d.Heads L radius .optimality t v) : Tested L radius d .optimality .clamp
        ((d.active.multipliersAt L (d.targetAt t)).getD d.active.last 0)
  | moved {stage : Stage} {t v ratio : α} {k : Nat} (h : d.Heads L radius stage t v)
      (hratio : ratio = (fraction d.active (d.multipliersAt L stage v (d.targetAt t)) (stage.width m)).1)
      (hk : k < stage.width m) : Tested L radius d stage .clamp
        ((1 - ratio) * d.active.multiplier k + ratio * (d.multipliersAt L stage v (d.targetAt t)).getD k 0)

inductive Pass.Tested (L : Linearization α n m) (radius : α) (stage : Stage) (p : Pass α n m) : Fault → α → Prop
  | shifted {x : α} (hk : p.draft.active.size ≤ p.position) (h : p.draft.active.Shifted L p.position x) :
      Tested L radius stage p .clamp x
  | moved {d : Draft α n m} {fault : Fault} {x : α} (hchange : p.change L stage = (true, d))
      (h : d.Tested L radius stage fault x) : Tested L radius stage p fault x

end

namespace Checked

/-! ## Single checks -/

theorem ok_bind {β γ : Type} (x : β) (f : β → Except Fault γ) : (Except.ok x >>= f) = f x := rfl

theorem pure_eq {β : Type} (x : β) : (pure x : Except Fault β) = .ok x := rfl

theorem map_eq {β γ : Type} {x : Except Fault β} {y : β} (h : x = .ok y) (f : β → γ) :
    (x >>= fun z => pure (f z)) = .ok (f y) := by
  rw [h]
  rfl

section
variable {β γ : Type} {size : Nat} {f : β → γ → β} {g : β → γ → Except Fault β}

theorem read_eq (v : Vector β size) {k : Nat} (h : k < size) (d : β) : read v k = .ok (v.getD k d) := by
  simp [read, getD_eq, h]

theorem write_eq (v : Vector β size) {k : Nat} (h : k < size) (x : β) :
    write v k x = .ok (v.setIfInBounds k x) := if_pos h

theorem swap_eq (v : Vector β size) {k l : Nat} (hk : k < size) (hl : l < size) :
    swap v k l = .ok (v.swapIfInBounds k l) := if_pos ⟨hk, hl⟩

theorem pred_eq {k : Nat} (h : 0 < k) : pred k = .ok (k - 1) := by
  cases k with
  | zero => exact absurd h (Nat.lt_irrefl 0)
  | succ k => rfl

theorem foldlM_eq {P : β → Prop} : ∀ {ks : List γ} {b : β},
    (∀ b, ∀ k ∈ ks, P b → g b k = .ok (f b k) ∧ P (f b k)) → P b →
      ks.foldlM g b = .ok (ks.foldl f b) ∧ P (ks.foldl f b)
  | [], _, _, hb => ⟨rfl, hb⟩
  | k :: ks, b, hstep, hb => by
    obtain ⟨he, hnext⟩ := hstep b k (List.mem_cons_self ..) hb
    rw [List.foldlM_cons, he, ok_bind]
    exact foldlM_eq (fun b j hj => hstep b j (List.mem_cons_of_mem k hj)) hnext

theorem foldlM_descending {f : β → Nat → β} {g : β → Nat → Except Fault β} {P : Nat → β → Prop} {low high : Nat}
    (hlow : low ≤ high) {b : β} (hb : P high b)
    (hstep : ∀ b k, low ≤ k → k < high → P (k + 1) b → g b k = .ok (f b k) ∧ P k (f b k)) :
    (descending low high).foldlM g b = .ok ((descending low high).foldl f b) ∧
      P low ((descending low high).foldl f b) := by
  induction hlow using Nat.decreasingInduction with
  | self =>
    rw [foldl_descending_self]
    exact ⟨by simp [descending, pure_eq], hb⟩
  | of_succ low hlt ih =>
    obtain ⟨he, hnext⟩ := ih fun b k hk => hstep b k (Nat.le_of_succ_le hk)
    obtain ⟨hlast, hend⟩ := hstep _ low (Nat.le_refl low) hlt hnext
    have hsplit : descending low high = descending (low + 1) high ++ [low] := by
      rw [descending, descending, show high - low = (high - (low + 1)) + 1 by omega, List.range'_succ,
        List.reverse_cons]
    rw [hsplit, List.foldlM_append, he, ok_bind, List.foldlM_cons, List.foldl_append]
    exact ⟨by rw [hlast, ok_bind]; rfl, hend⟩

theorem foldlM_mapBetween {f : Nat → β → Except Fault β} {g : Nat → β} : ∀ (count : Nat) {low : Nat}
    {v : Vector β size}, low + count ≤ size →
    (∀ k (hk : k < size), low ≤ k → k < low + count → f k v[k] = .ok (g k)) →
      (List.range' low count).foldlM (fun v k => do write v k (← f k (← read v k))) v =
        .ok (Vector.ofFn fun k => if low ≤ k.val ∧ k.val < low + count then g k else v.get k)
  | 0, low, v, _, _ => by
    refine congrArg Except.ok ?_
    ext k hk
    rw [Vector.getElem_ofFn, if_neg (by dsimp only; omega)]
    rfl
  | count + 1, low, v, hle, hf => by
    have hlow : low < size := by omega
    have hread : read v low = .ok v[low] := dif_pos hlow
    have hset : ∀ k (hk : k < size), k ≠ low → (v.setIfInBounds low (g low))[k] = v[k] := fun k hk hne => by
      rw [Vector.getElem_setIfInBounds, if_neg hne.symm]
    rw [List.range'_succ, List.foldlM_cons, hread, ok_bind, hf low hlow (Nat.le_refl low) (by omega), ok_bind,
      write_eq _ hlow, ok_bind, foldlM_mapBetween count (by omega) fun k hk hlk hkh => by
        rw [hset k hk (by omega)]
        exact hf k hk (by omega) (by omega)]
    refine congrArg Except.ok ?_
    ext k hk
    rw [Vector.getElem_ofFn, Vector.getElem_ofFn]
    dsimp only
    by_cases hkl : k = low
    · subst hkl
      rw [if_neg (by omega), if_pos (by omega)]
      exact Vector.getElem_setIfInBounds_self hlow
    · exact (if_congr (by omega) rfl (hset k hk hkl))

theorem mapBetween_eq {f : Nat → β → Except Fault β} {g : Nat → β} {low high : Nat} {v : Vector β size}
    (hlow : low ≤ high) (hhigh : high ≤ size)
    (hf : ∀ k (hk : k < size), low ≤ k → k < high → f k v[k] = .ok (g k)) :
    mapBetween low high f v = .ok (Vector.ofFn fun k => if low ≤ k.val ∧ k.val < high then g k else v.get k) := by
  rw [mapBetween, foldlM_mapBetween (high - low) (by omega) fun k hk hlk hkh => hf k hk hlk (by omega),
    Nat.add_sub_of_le hlow]

end

section
variable {α : Type} [Scalar α] {n m : Nat} {checks : Checks α}

theorem quotient_eq {y : α} (h : checks.divisor y = true) (x : α) : quotient checks x y = .ok (x / y) := if_pos h

theorem clamp_eq {x : α} (h : checks.clamp x = true) : clamp checks x = .ok (larger 0 x) := if_pos h

theorem read_col (A : ColMatrix α n n) {k : Nat} (h : k < n) : read A.columns k = .ok (A.col k) :=
  read_eq _ h _

omit [Scalar α] in
theorem read_order (s : ActiveSet α n m) {k : Nat} (h : k < m + 1) : read s.order k = .ok (s.constraintAt k) :=
  read_eq _ h _

theorem read_diagonal (s : ActiveSet α n m) {k : Nat} (h : k < m + 1) : read s.diagonal k = .ok (s.diagonalAt k) :=
  read_eq _ h _

theorem read_multipliers (s : ActiveSet α n m) {k : Nat} (h : k < m + 1) :
    read s.multipliers k = .ok (s.multiplier k) :=
  read_eq _ h _

omit [Scalar α] in
theorem pred_size {s : ActiveSet α n m} (h : 0 < s.size) : pred s.size = .ok s.last := pred_eq h

theorem rotateCols_eq (A : ColMatrix α n n) {k l : Nat} (hk : k < n) (hl : l < n) (c s : α) :
    rotateCols A k l c s = .ok (A.rotateCols k l c s) := by
  simp only [rotateCols, read_col, write_eq, hk, hl, ok_bind]
  rfl

theorem exchangeCols_eq (A : ColMatrix α n n) {k l : Nat} (hk : k < n) (hl : l < n) (c s : α) :
    exchangeCols A k l c s = .ok (A.exchangeCols k l c s) := by
  simp only [exchangeCols, read_col, write_eq, hk, hl, ok_bind]
  rfl

variable {L : Linearization α n m} {s : ActiveSet α n m}

/-! ## Active sets -/

theorem get_eq_getD {β : Type} {size : Nat} (v : Vector β size) (k : Fin size) (d : β) : v.get k = v.getD k d := by
  rw [getD_eq, dif_pos k.isLt]
  rfl

theorem exchange_eq (hd : Divisors checks.divisor) (h : s.Arranged) (hs : s.Divisible checks.divisor) {k : Nat}
    (hk : k + 1 < s.size) : exchange checks L s k = .ok (s.exchange L k) := by
  have hn := h.size_le_vars
  have hm := h.size_le
  have hlength := fun a => hd.root a (hs (k + 1) hk)
  simp only [exchange, read_col _ (show k < n by omega), read_order s (show k + 1 < m + 1 by omega),
    read_diagonal s (show k + 1 < m + 1 by omega), read_diagonal s (show k < m + 1 by omega), quotient_eq (hlength _),
    write_eq _ (show k + 1 < m + 1 by omega), write_eq _ (show k < m + 1 by omega),
    exchangeCols_eq _ (show k < n by omega) (show k + 1 < n by omega),
    swap_eq _ (show k < m + 1 by omega) (show k + 1 < m + 1 by omega), ok_bind]
  rfl

theorem moveToEnd_eq (hd : Divisors checks.divisor) (h : s.Arranged) (hs : s.Divisible checks.divisor) {k : Nat}
    (hk : k < s.size) : moveToEnd checks L s k = .ok (s.moveToEnd L k) := by
  rw [moveToEnd, pred_size (by omega), ok_bind]
  refine (foldlM_eq (P := fun t => t.Arranged ∧ t.Divisible checks.divisor ∧ t.size = s.size) (fun t j hj ht => ?_)
    ⟨h, hs, rfl⟩).1
  obtain ⟨harranged, hdivisible, hsize⟩ := ht
  have hj : j + 1 < t.size := by
    rw [List.mem_range'_1] at hj
    unfold ActiveSet.last at hj
    omega
  exact ⟨exchange_eq hd harranged hdivisible hj, harranged.exchange hj, hdivisible.exchange hd harranged.size_le hj, hsize⟩

theorem leave_eq (hd : Divisors checks.divisor) (h : s.Arranged) (hs : s.Divisible checks.divisor) {k : Nat}
    (hk : k < s.size) : leave checks L s k = .ok (s.leave L k) := by
  rw [leave, moveToEnd_eq hd h hs hk, ok_bind, pred_eq (by rw [ActiveSet.size_moveToEnd]; omega)]
  rfl

theorem absorb_eq (hd : Divisors checks.divisor) {gradient : Vector α n} {found : ColMatrix α n n × Option α} {k : Nat}
    (hk : k < n) (hfound : ∀ y, found.2 = some y → checks.divisor y = true ∧ k + 1 < n) :
    absorb checks gradient found k = .ok (ActiveSet.absorb gradient found k) := by
  obtain ⟨B, component⟩ := found
  cases component with
  | none =>
    simp only [absorb, read_col _ hk, ok_bind]
    rfl
  | some rest =>
    obtain ⟨hrest, hk'⟩ := hfound rest rfl
    simp only [absorb, read_col _ hk, quotient_eq (hd.root _ hrest), rotateCols_eq _ hk hk', ok_bind]
    rfl

theorem alignBasis_eq (hd : Divisors checks.divisor) (hn : s.size ≤ n) (gradient : Vector α n) :
    alignBasis checks s gradient = .ok (s.alignBasis gradient) := by
  refine (foldlM_descending (P := fun j found => ∀ y, found.2 = some y → checks.divisor y = true ∧ j < n) hn (by simp)
    fun found k _ hk hfound => ⟨absorb_eq hd hk hfound, fun y hy => ?_⟩).1
  exact ⟨hd.nonzero (ActiveSet.component_of_absorb hy), hk⟩

theorem splitOff_eq (hd : Divisors checks.divisor) (h : s.Arranged) (hs : s.Divisible checks.divisor)
    (d : ActiveSet.Dependence α n m) {k : Nat} (hk : k < s.size) :
    splitOff checks L s d k = .ok (s.splitOff L d k) := by
  have hn := h.size_le_vars
  have hm := h.size_le
  simp only [splitOff, read_col _ (show k < n by omega), read_order s (show k < m + 1 by omega),
    read_diagonal s (show k < m + 1 by omega), ok_bind]
  unfold ActiveSet.splitOff
  cases nonzero? (guardedDot (s.basis.col k) d.rest) with
  | none =>
    dsimp only
    rw [write_eq _ (by omega)]
    rfl
  | some product =>
    dsimp only
    rw [quotient_eq (hs k hk), ok_bind]
    generalize product / s.diagonalAt k = coefficient
    by_cases hleaves : (0 < coefficient && (s.constraintAt k).val < m) = true
    · have hpos : 0 < coefficient := by simpa using (Bool.and_eq_true_iff.mp hleaves).1
      rw [if_pos hleaves, read_multipliers s (by omega), ok_bind, quotient_eq (hd.positive hpos), ok_bind, pure_eq,
        ok_bind, write_eq _ (by omega), hleaves, Bool.true_and]
      rfl
    · rw [if_neg hleaves, pure_eq, ok_bind, write_eq _ (by omega), Bool.eq_false_iff.mpr hleaves, Bool.false_and]
      rfl

theorem dependence_eq (hd : Divisors checks.divisor) (h : s.Arranged) (hs : s.Divisible checks.divisor)
    (gradient : Vector α n) : dependence checks L s gradient = .ok (s.dependence L gradient) :=
  (foldlM_eq (P := fun _ => True) (fun d _ hk _ => ⟨splitOff_eq hd h hs d (mem_descending.mp hk).2, trivial⟩) trivial).1

theorem shiftMultipliers_eq (hm : s.size ≤ m + 1) {ratio : α} {coefficients : Vector α (m + 1)}
    (hclamp : ∀ j < s.size, checks.clamp (s.multiplier j - ratio * coefficients.getD j 0) = true) :
    shiftMultipliers checks s ratio coefficients = .ok (s.shiftMultipliers ratio coefficients) := by
  rw [shiftMultipliers, mapBetween_eq (g := fun k => larger 0 (s.multiplier k - ratio * coefficients.getD k 0))
    (Nat.zero_le _) hm fun k hk _ hks => by
      rw [read_eq coefficients hk 0, ok_bind]
      have hread : s.multipliers[k] = s.multiplier k := get_eq_getD s.multipliers ⟨k, hk⟩ 0
      rw [hread]
      exact clamp_eq (hclamp k hks)]
  simp only [Nat.zero_le, true_and, ok_bind, pure_eq, ActiveSet.shiftMultipliers, ActiveSet.multiplier,
    get_eq_getD _ _ (0 : α)]

omit [Scalar α] in
theorem placeLast_eq (hm : s.size ≤ m + 1) (hpos : 0 < s.size) {k : Nat} (hk : k < m + 1) :
    placeLast s k = .ok (s.placeLast k) := by
  have hlast := (ActiveSet.last_lt hpos).trans_le hm
  simp only [placeLast, read_order s hk, pred_size hpos, read_order s hlast, ok_bind, write_eq _ hk, write_eq _ hlast]
  rfl

theorem grow_eq {k : Nat} (hk : s.size ≤ k) (hkm : k < m + 1) (y : α) : grow s k y = .ok (s.grow k y) := by
  have hs : s.size < m + 1 := by omega
  simp only [grow, write_eq _ hs, read_multipliers s hs, write_eq _ hkm, ok_bind]
  rfl

theorem enter_eq (hd : Divisors checks.divisor) (h : s.Arranged) (hs : s.Divisible checks.divisor) {k : Nat}
    (hk : s.size ≤ k) (hkm : k < m + 1) (hclamp : ∀ x, s.Shifted L k x → checks.clamp x = true) :
    enter checks L s k = .ok (s.enter L k) := by
  have hn := h.size_le_vars
  have hm := h.size_le
  have hshift : ∀ q ratio, (s.alignBasis (L.gradient (s.constraintAt k))).2 = none →
      (s.dependenceAt L k).leaving = some (q, ratio) →
      ∀ j < s.size, checks.clamp (s.multiplier j - ratio * (s.dependenceAt L k).coefficients.getD j 0) = true :=
    fun q ratio halign hleaving j hj => hclamp _ (.intro halign hleaving hj)
  unfold ActiveSet.dependenceAt at hshift
  simp only [enter, read_order s hkm, alignBasis_eq hd hn, ok_bind]
  unfold ActiveSet.enter
  dsimp only at hshift ⊢
  generalize s.alignBasis (L.gradient (s.constraintAt k)) = found at hshift ⊢
  obtain ⟨B, component⟩ := found
  cases component with
  | some y =>
    dsimp only
    rw [grow_eq (s := { s with basis := B }) hk hkm, ok_bind, placeLast_eq _ (Nat.succ_pos _) hkm]
    · rfl
    · show s.size + 1 ≤ m + 1
      omega
  | none =>
    have hB : ({ s with basis := B } : ActiveSet α n m).Arranged := h.of_order rfl rfl
    have hsB : ({ s with basis := B } : ActiveSet α n m).Divisible checks.divisor := hs.of_diagonal rfl rfl
    dsimp only at hshift ⊢
    rw [dependence_eq hd hB hsB, ok_bind]
    cases hleaving : (ActiveSet.dependence L { s with basis := B } (L.gradient (s.constraintAt k))).leaving with
    | none => rfl
    | some leaving =>
      obtain ⟨q, ratio⟩ := leaving
      have hq : q < s.size := (ActiveSet.leaving_of_dependence hleaving).1
      have hshift := hshift q ratio rfl hleaving
      dsimp only
      generalize (ActiveSet.dependence L { s with basis := B } (L.gradient (s.constraintAt k))).coefficients =
        coefficients at hshift ⊢
      rw [shiftMultipliers_eq (s := { s with basis := B }) hm hshift, ok_bind]
      generalize hr : ActiveSet.shiftMultipliers { s with basis := B } ratio coefficients = r
      have hsize : r.size = s.size := by rw [← hr]; rfl
      have horder : r.order = s.order := by rw [← hr]; rfl
      have hdiagonal : r.diagonal = s.diagonal := by rw [← hr]; rfl
      have hmoved := r.size_moveToEnd L q
      have hlast := ActiveSet.last_lt (s := r.moveToEnd L q) (by omega)
      rw [moveToEnd_eq hd (h.of_order horder hsize) (hs.of_diagonal hdiagonal hsize) (by omega), ok_bind,
        pred_size (by omega), ok_bind, read_col _ (by omega), ok_bind]
      cases nonzero? (dot ((r.moveToEnd L q).basis.col (r.moveToEnd L q).last) (L.gradient (s.constraintAt k))) with
      | none => rfl
      | some own =>
        dsimp only
        rw [write_eq _ (by omega), ok_bind, write_eq _ hkm, ok_bind, write_eq _ (by omega), ok_bind,
          placeLast_eq _ _ hkm]
        · rfl
        · show (r.moveToEnd L q).size ≤ m + 1
          omega
        · show 0 < (r.moveToEnd L q).size
          omega

theorem multipliersOf_eq (h : s.Arranged) (hs : s.Divisible checks.divisor) (target : Vector α n) :
    multipliersOf checks L s target = .ok (s.multipliersAt L target) := by
  have hn := h.size_le_vars
  have hm := h.size_le
  refine map_eq (foldlM_eq (P := fun _ => True) (fun found k hk _ => ⟨?_, trivial⟩) trivial).1 Prod.snd
  have hk : k < s.size := (mem_descending.mp hk).2
  simp only [read_col _ (show k < n by omega), read_diagonal s (show k < m + 1 by omega),
    read_order s (show k < m + 1 by omega), quotient_eq (hs k hk), write_eq _ (show k < m + 1 by omega), ok_bind, pure_eq]

/-! ## Drafts -/

section
variable {d : Draft α n m} {stage : Stage} {radius : α}

theorem activeViolation_eq (hm : d.active.size ≤ m + 1) (target : Vector α n) :
    activeViolation L d target = .ok (d.activeViolation L target) := by
  refine (foldlM_eq (P := fun _ => True) (fun worst k hk _ => ⟨?_, trivial⟩) trivial).1
  have hk : k < d.active.size := List.mem_range.mp hk
  rw [read_order _ (by omega), ok_bind, pure_eq]

theorem fraction_eq (s : ActiveSet α n m) (next : Vector α (m + 1)) {width : Nat} (hw : width ≤ m + 1)
    (hpart : ∀ k < width, next.getD k 0 < 0 → checks.divisor (s.multiplier k - next.getD k 0) = true) :
    fraction checks s next width = .ok (Draft.fraction s next width) := by
  refine (foldlM_eq (P := fun _ => True) (fun found k hk _ => ⟨?_, trivial⟩) trivial).1
  have hk := List.mem_range.mp hk
  have hkm := hk.trans_le hw
  simp only [read_eq next hkm 0, read_multipliers s hkm, ok_bind, pure_eq]
  by_cases hneg : next.getD k 0 < 0
  · simp only [if_pos hneg, quotient_eq (hpart k hk hneg), ok_bind]
  · simp [hneg]

theorem moveTowards_eq {ratio v : α} {target : Vector α n} {next : Vector α (m + 1)}
    (hclamp : ∀ k < stage.width m,
      checks.clamp ((1 - ratio) * d.active.multiplier k + ratio * next.getD k 0) = true) :
    moveTowards checks stage d ratio target next v = .ok (d.moveTowards stage ratio target next v) := by
  rw [moveTowards]
  dsimp only
  rw [mapBetween_eq (g := fun k => larger 0 ((1 - ratio) * d.active.multiplier k + ratio * next.getD k 0))
    (Nat.zero_le _) Stage.width_le fun k hk _ hks => by
      rw [read_eq next hk 0, ok_bind]
      have hread : d.active.multipliers[k] = d.active.multiplier k := get_eq_getD d.active.multipliers ⟨k, hk⟩ 0
      rw [hread]
      exact clamp_eq (hclamp k hks)]
  simp only [Nat.zero_le, true_and, ok_bind, pure_eq, Draft.moveTowards, ActiveSet.multiplier, get_eq_getD _ _ (0 : α)]

theorem mapBetween_residuals {active : Vector α (m + 1)} {v : α} {target : Vector α n}
    (hw : d.active.size ≤ stage.width m) : mapBetween d.active.size (stage.width m)
      (fun k _ => do return Draft.shiftedResidual L v target (← read d.active.order k)) active =
    .ok (Vector.ofFn fun k =>
      if k.val < d.active.size then active.get k
      else if k.val < stage.width m then Draft.shiftedResidual L v target (d.active.constraintAt k)
      else active.get k) := by
  rw [mapBetween_eq (g := fun k => Draft.shiftedResidual L v target (d.active.constraintAt k)) hw Stage.width_le
    fun k hk _ _ => by rw [read_order _ hk, ok_bind, pure_eq]]
  refine congrArg Except.ok (congrArg Vector.ofFn (funext fun k => ?_))
  by_cases hk : k.val < d.active.size
  · rw [if_pos hk, if_neg (by omega)]
  · rw [if_neg hk]
    exact if_congr (by omega) rfl rfl

theorem multipliersAt_eq (h : d.active.Arranged) (hs : d.active.Divisible checks.divisor)
    (hf : d.active.Follows stage) {v : α} {target : Vector α n}
    (hclamp : stage = .optimality →
      checks.clamp ((d.active.multipliersAt L target).getD d.active.last 0) = true) :
    multipliersAt checks L stage d v target = .ok (d.multipliersAt L stage v target) := by
  simp only [multipliersAt, multipliersOf_eq h hs, ok_bind]
  cases stage with
  | feasibility => exact mapBetween_residuals hf.2
  | optimality =>
    have hlast : d.active.last < m + 1 := (ActiveSet.last_lt hf.1).trans_le h.size_le
    simp only [pred_size hf.1, read_eq (d.active.multipliersAt L target) hlast 0, clamp_eq (hclamp rfl), write_eq _ hlast,
      ok_bind]
    exact mapBetween_residuals h.size_le

theorem headFor_eq (h : d.active.Arranged) (hs : d.active.Divisible checks.divisor) (hf : d.active.Follows stage)
    {t v : α} (hheads : d.Heads L radius stage t v)
    (htests : ∀ fault x, d.Tested L radius stage fault x → checks.accepts fault x = true) (how : StageEnd) :
    headFor checks L stage d t v how = .ok (d.headFor L stage t v how) := by
  have hobjective : stage = .optimality →
      checks.clamp ((d.active.multipliersAt L (d.targetAt t)).getD d.active.last 0) = true := fun hstage => by
    subst hstage
    exact htests _ _ (.objective hheads)
  have hpart := fun k hk hneg => htests _ _ (.part (k := k) hheads hk hneg)
  unfold headFor Draft.headFor
  rw [multipliersAt_eq h hs hf hobjective, ok_bind, fraction_eq _ _ Stage.width_le hpart, ok_bind]
  dsimp only
  rw [moveTowards_eq fun k hk => htests _ _ (.moved hheads rfl hk), ok_bind]
  generalize Draft.fraction d.active _ _ = found
  obtain ⟨ratio, _ | k⟩ := found <;> rfl

theorem advance_eq (h : d.active.Arranged) (hs : d.active.Divisible checks.divisor) (hf : d.active.Follows stage)
    (htests : ∀ fault x, d.Tested L radius stage fault x → checks.accepts fault x = true) :
    advance checks L radius stage d = .ok (d.advance L radius stage) := by
  unfold advance Draft.advance
  cases hfull : d.boundaryLength? radius with
  | none => rfl
  | some full =>
    dsimp only
    split
    · rfl
    · next hgo =>
      cases stage with
      | feasibility =>
        dsimp only
        rw [activeViolation_eq h.size_le, ok_bind]
        exact headFor_eq h hs hf (.feasibility hfull fun hstop => hgo ⟨rfl, hstop⟩) htests _
      | optimality => exact headFor_eq h hs hf (.optimality hfull) htests _

theorem objectiveDirection_eq (h : d.active.Arranged) (hs : d.active.Divisible checks.divisor)
    (hpos : 0 < d.active.size) : objectiveDirection checks d = .ok d.objectiveDirection := by
  have hlt := ActiveSet.last_lt hpos
  simp only [objectiveDirection, pred_size hpos, read_diagonal _ (hlt.trans_le h.size_le), quotient_eq (hs _ hlt),
    read_col _ (hlt.trans_le h.size_le_vars), ok_bind]
  rfl

theorem remove_eq (hd : Divisors checks.divisor) (h : d.active.Arranged) (hs : d.active.Divisible checks.divisor)
    {k : Nat} (hk : k < d.active.size) (hlast : stage = .optimality → k ≠ d.active.last) :
    remove checks L stage d k = .ok (d.remove L stage k) := by
  have hsize := d.active.size_leave L k
  have hn := h.size_le_vars
  rw [remove, leave_eq hd h hs hk, ok_bind]
  cases stage with
  | feasibility =>
    dsimp only
    rw [read_col _ (by omega)]
    rfl
  | optimality =>
    have hne := hlast rfl
    have hpos : 0 < (d.active.leave L k).size := by
      unfold ActiveSet.last at hne
      omega
    exact objectiveDirection_eq (h.leave hk) (hs.leave hd h.size_le hk) hpos

theorem add_eq (hd : Divisors checks.divisor) (h : d.active.Arranged) (hs : d.active.Divisible checks.divisor) {k : Nat}
    (hk : d.active.size ≤ k) (hkm : k < m + 1)
    (hlast : stage = .optimality → d.active.constraintAt k ≠ Fin.last m → d.active.ObjectiveLast)
    (hclamp : ∀ x, d.active.Shifted L k x → checks.clamp x = true) :
    add checks L stage d k = .ok (d.add L stage k) := by
  obtain ⟨ht, hin, -⟩ := h.enter (L := L) hk hkm
  have hentered := hs.enter (L := L) hd h.size_le hk hkm
  rw [add, read_order _ hkm, ok_bind, enter_eq hd h hs hk hkm hclamp, ok_bind]
  unfold Draft.add
  generalize d.active.enter L k = out at *
  obtain ⟨ok, s⟩ := out
  cases ok with
  | false => rfl
  | true =>
    have hadmitted := hin rfl
    have hlt := ActiveSet.last_lt hadmitted.pos
    cases stage with
    | feasibility =>
      dsimp only at *
      rw [pred_size hadmitted.pos, ok_bind, read_diagonal _ (hlt.trans_le ht.size_le), ok_bind,
        quotient_eq (hentered _ hlt), ok_bind, read_col _ (hlt.trans_le ht.size_le_vars)]
      rfl
    | optimality =>
      dsimp only at *
      by_cases hobj : d.active.constraintAt k = Fin.last m
      · rw [if_pos hobj, if_pos hobj, pure_eq, ok_bind, objectiveDirection_eq ht hentered hadmitted.pos]
        rfl
      · obtain ⟨hpos, hobjective⟩ := hlast rfl hobj
        obtain ⟨hbefore, -⟩ := hadmitted.objective hpos hobjective
        have hex : s.last - 1 + 1 < s.size := by omega
        rw [if_neg hobj, if_neg hobj, pred_size hadmitted.pos, ok_bind, pred_eq hbefore, ok_bind,
          exchange_eq hd ht hentered hex, ok_bind, objectiveDirection_eq (ht.exchange hex)
            (hentered.exchange hd ht.size_le hex) hadmitted.pos]
        rfl

end

/-! ## Passes -/

section
variable {radius : α} {stage : Stage} {p : Pass α n m} (hd : Divisors checks.divisor)
include hd

theorem change_eq (h : p.Placed stage) (hs : p.draft.active.Divisible checks.divisor)
    (htests : ∀ fault x, p.Tested L radius stage fault x → checks.accepts fault x = true) :
    change checks L stage p = .ok (p.change L stage) := by
  unfold change Pass.change
  by_cases hk : p.position < p.draft.active.size
  · rw [if_pos hk, if_pos hk, remove_eq hd h.arranged hs hk (h.follows hk).2]
    rfl
  · have hk' := Nat.not_lt.mp hk
    rw [if_neg hk, if_neg hk]
    exact add_eq hd h.arranged hs hk' (h.position_lt.trans_le Stage.width_le) h.objectiveLast fun x hx =>
      htests _ x (.shifted hk' hx)

theorem run_eq (h : p.Placed stage) (hs : p.draft.active.Divisible checks.divisor)
    (htests : ∀ fault x, p.Tested L radius stage fault x → checks.accepts fault x = true) :
    run checks L radius stage p = .ok (p.run L radius stage) := by
  obtain ⟨harranged, hfollows, -⟩ := h.change (L := L)
  have hchanged := h.divisible_change (L := L) hd hs
  have hmoved := fun d fault x hchange => htests fault x ∘ Pass.Tested.moved (d := d) hchange
  unfold run Pass.run
  cases Progress.count? p.progress (p.value L stage) p.draft.active.size with
  | none => rfl
  | some progress =>
    dsimp only
    rw [change_eq hd h hs htests, ok_bind]
    generalize p.change L stage = out at *
    obtain ⟨ok, d⟩ := out
    cases ok with
    | false => rfl
    | true =>
      dsimp only
      rw [advance_eq harranged hchanged (hfollows rfl) fun fault x => hmoved d fault x rfl, ok_bind]
      generalize d.advance L radius stage = out
      obtain ⟨_ | _, e⟩ := out <;> rfl

theorem runWithin_eq [ClampsAtZero α]
    (htests : ∀ {p fault x}, L.Reaches radius stage p → p.Tested L radius stage fault x →
      checks.accepts fault x = true) :
    ∀ (fuel : Nat) {p : Pass α n m}, L.Reaches radius stage p →
      runWithin checks L radius stage p fuel = .ok (p.runWithin L radius stage fuel)
  | 0, _, _ => rfl
  | fuel + 1, p, h => by
    unfold runWithin Pass.runWithin
    rw [run_eq hd h.placed (h.divisible hd) fun _ _ => htests h, ok_bind]
    cases hrun : p.run L radius stage with
    | ended how d => rfl
    | next q => exact runWithin_eq htests fuel (h.next hrun)

end

/-! ## The two stages -/

section
variable {radius : α} [ClampsAtZero α] (hd : Divisors checks.divisor)
  (htests : ∀ {stage p fault x}, L.Reaches radius stage p → p.Tested L radius stage fault x →
    checks.accepts fault x = true)
include hd htests

theorem optimizeWithin_eq {d : Draft α n m} (h : L.Reaches radius .optimality (Linearization.openOptimality d))
    (fuel : Nat) : optimizeWithin checks L radius d fuel = .ok (L.optimizeWithin radius d fuel) := by
  have hopen : openOptimality d = .ok (Linearization.openOptimality d) := by
    simp only [openOptimality, write_eq _ (Nat.lt_succ_self m), ok_bind]
    rfl
  rw [optimizeWithin, hopen, ok_bind, runWithin_eq hd htests fuel h, ok_bind]
  unfold Linearization.optimizeWithin
  cases (Linearization.openOptimality d).runWithin L radius .optimality fuel <;> rfl

theorem solveWithin_eq (fuel : Nat) : solveWithin checks L radius fuel = .ok (L.solveWithin radius fuel) := by
  unfold solveWithin Linearization.solveWithin
  cases hmost : L.mostViolated.1 with
  | none => exact optimizeWithin_eq hd htests (.satisfied hmost) fuel
  | some k =>
    have hreaches : L.Reaches radius .feasibility ⟨L.firstDraft, k, none⟩ := .violated hmost
    dsimp only
    rw [runWithin_eq hd htests fuel hreaches, ok_bind]
    cases hran : (⟨L.firstDraft, k, none⟩ : Pass α n m).runWithin L radius .feasibility fuel with
    | none => rfl
    | some ended =>
      obtain ⟨how, d⟩ := ended
      obtain ⟨q, hq, hrun⟩ := hreaches.exists_last fuel hran
      cases how with
      | boundary => rfl
      | feasible => exact optimizeWithin_eq hd htests (.settled hq hrun nofun) fuel
      | stalled => exact optimizeWithin_eq hd htests (.settled hq hrun nofun) fuel

end

end

end Checked

/-! ## The search -/

def unrestricted (α : Type) : Checks α := ⟨fun _ => true, fun _ => true⟩

theorem accepts_unrestricted {α : Type} (fault : Fault) (x : α) : (unrestricted α).accepts fault x = true := by
  cases fault <;> rfl

section
variable {α : Type} [Scalar α] [ClampsAtZero α] {n m : Nat}

/-- At the top of every pass the constraints of the stage stand in some order, no more of them are active than there are
variables, and the pass is about one of them; the objective is never removed, and is the last active constraint once it
has entered. Therefore no position is out of range and no count goes below zero. -/
theorem search_faultless (L : Linearization α n m) (radius : α) :
    (∀ {stage : Stage} {p : Pass α n m}, L.Reaches radius stage p →
      ((List.range (stage.width m)).map fun k => (p.draft.active.constraintAt k).val).Perm
          (List.range (stage.width m)) ∧
        p.draft.active.size ≤ min n (stage.width m) ∧ p.position < stage.width m ∧
        (p.position < p.draft.active.size → p.draft.active.constraintAt p.position ≠ Fin.last m) ∧
        (∀ q, stage = .optimality → p.run L radius stage = .next q → q.draft.active.ObjectiveLast) ∧
        Checked.run (unrestricted α) L radius stage p = .ok (p.run L radius stage)) ∧
      ∀ fuel, Checked.solveWithin (unrestricted α) L radius fuel = .ok (L.solveWithin radius fuel) := by
  have hd : Divisors (unrestricted α).divisor := divisors_all
  refine ⟨fun {stage p} h => ?_, Checked.solveWithin_eq hd fun _ _ => accepts_unrestricted _ _⟩
  have hp := h.placed
  refine ⟨hp.perm_leading, le_min hp.arranged.size_le_vars hp.size_le_width, hp.position_lt, fun hk hobj => ?_,
    fun q hstage hrun => ?_, Checked.run_eq hd hp (h.divisible hd) fun _ _ _ => accepts_unrestricted _ _⟩
  · obtain ⟨hfollows, hne⟩ := hp.follows hk
    have hk' : p.position < m + 1 := hp.position_lt.trans_le Stage.width_le
    cases stage with
    | feasibility =>
      have hlt : p.position < m := hp.position_lt
      exact hlt.ne (hp.arranged.eq_of_apart hfollows hk' hobj)
    | optimality => exact hne rfl (hp.arranged.eq_of_last hfollows hk' hobj)
  · subst hstage
    rcases (h.next hrun).placed.stands with ⟨hnone, -⟩ | ⟨-, hlast, -⟩
    · exact absurd hnone (Pass.progress_of_next hrun).2
    · exact hlast

end

instance : ClampsAtZero Float where
  not_larger_lt x := by
    have hzero : (Zero.zero : Float).isNaN = false := by decide +kernel
    intro hlt
    unfold larger at hlt
    split_ifs at hlt with hpos hself
    · exact lt_asymm (Double.lt_iff.mp hpos).2.2 (Double.lt_iff.mp hlt).2.2
    · exact lt_irrefl _ (Double.lt_iff.mp hlt).2.2
    · exact hself (Double.beq_self_iff.mpr hzero)

def undefinedModel : Linearization Float 1 1 := ⟨⟨#v[#v[0 / 0], #v[1]]⟩, #v[1, 0]⟩

theorem search_faultless_undefined :
    Checked.run (unrestricted Float) undefinedModel 1 .feasibility ⟨undefinedModel.firstDraft, 0, none⟩ =
        .ok (Pass.run undefinedModel 1 .feasibility ⟨undefinedModel.firstDraft, 0, none⟩) ∧
      Checked.solveWithin (unrestricted Float) undefinedModel 1 2 = .ok (undefinedModel.solveWithin 1 2) ∧
      (undefinedModel.solveWithin 1 2).isSome = true := by
  have hmost : undefinedModel.mostViolated.1 = some 0 := by decide +kernel
  obtain ⟨hreached, hsolve⟩ := search_faultless undefinedModel 1
  obtain ⟨-, -, -, -, -, hrun⟩ := hreached (.violated hmost)
  exact ⟨hrun, hsolve 2, by decide +kernel⟩

end TrustSimplex
