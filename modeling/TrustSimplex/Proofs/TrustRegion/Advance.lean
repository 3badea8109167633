import TrustSimplex.Proofs.TrustRegion.Change
import TrustSimplex.Proofs.TrustRegion.Heading

/-!
# Taking the step

Along a directed draft the step grows until it leaves the ball, the violation is gone, or a multiplier
vanishes. The short cuts in the length never stop it inside the ball, multipliers and residuals go
linearly to their values at the target, and the result is a sound draft again.
-/

namespace TrustSimplex

section
variable {K : Type} [EuclideanField K] {n m : Nat} {L : Linearization K n m}

/-! ## The length to the boundary -/

def roomLeft (radius : K) (x : Vector K n) : K :=
  Fin.foldl n (fun room i =>
    if 1e-6 * radius ≤ Scalar.abs (x.get i) then room - x.get i * x.get i else room) (radius * radius)

theorem roomLeft_eq_sub_sum (radius : K) (x : Vector K n) : roomLeft radius x = radius * radius -
    ∑ i, if 1e-6 * radius ≤ Scalar.abs (x.get i) then x.get i * x.get i else 0 := by
  have hstep : (fun (room : K) (i : Fin n) =>
      if 1e-6 * radius ≤ Scalar.abs (x.get i) then room - x.get i * x.get i else room) =
      fun room i => room - if 1e-6 * radius ≤ Scalar.abs (x.get i) then x.get i * x.get i else 0 := by
    funext room i
    split_ifs
    · rfl
    · rw [sub_zero]
  unfold roomLeft
  rw [hstep, foldl_sub_eq_sum]

theorem le_roomLeft (radius : K) (x : Vector K n) :
    radius * radius - coords x ⬝ᵥ coords x ≤ roomLeft radius x := by
  rw [roomLeft_eq_sub_sum]
  refine sub_le_sub_left (Finset.sum_le_sum fun i _ => ?_) _
  split_ifs
  · exact le_refl _
  · exact mul_self_nonneg _

/-- The root that the length is divided by exceeds the component along the step. It is the exact one, or that
component is small and left out. -/
structure IsRoot (room along square root : K) : Prop where
  exceeds : |along| < root
  square : root * root = square * room + along * along ∨
    (root * root = square * room ∧ |along| ≤ 1e-6 * root)

variable {radius room root t along square : K}

theorem IsRoot.pos (h : IsRoot room along square root) : 0 < root + along := by
  have := (abs_lt.mp h.exceeds).1
  linarith

theorem IsRoot.le (h : IsRoot room along square root) : root * root - along * along ≤ square * room := by
  rcases h.square with hexact | ⟨hpart, -⟩
  · rw [hexact, add_sub_cancel_right]
  · rw [hpart]
    exact sub_le_self _ (mul_self_nonneg _)

theorem self_dotProduct_add_smul (x p : Fin n → K) (t : K) :
    (x + t • p) ⬝ᵥ (x + t • p) = x ⬝ᵥ x + (2 * t * x ⬝ᵥ p + t * t * p ⬝ᵥ p) := by
  simp only [add_dotProduct, dotProduct_add, smul_dotProduct, dotProduct_smul, smul_eq_mul,
    dotProduct_comm p x]
  ring

/-- The length `room / (root + along)` leads out of the ball. -/
theorem length_reaches {x p : Fin n → K} (hroom : 0 < room) (hle : radius * radius - x ⬝ᵥ x ≤ room)
    (hroot : IsRoot room (x ⬝ᵥ p) (p ⬝ᵥ p) root) (ht : t = room / (root + x ⬝ᵥ p)) :
    0 < t ∧ radius * radius ≤ (x + t • p) ⬝ᵥ (x + t • p) := by
  rw [self_dotProduct_add_smul]
  generalize x ⬝ᵥ p = along at *
  generalize p ⬝ᵥ p = square at *
  have hq := hroot.pos
  have htpos : 0 < t := ht ▸ div_pos hroom hq
  have htq : t * (root + along) = room := by rw [ht, div_mul_cancel₀ _ hq.ne']
  refine ⟨htpos, ?_⟩
  have hmul : (root + along) * (root - along) ≤ (root + along) * (t * square) := by
    calc (root + along) * (root - along) = root * root - along * along := by ring
      _ ≤ square * room := hroot.le
      _ = (root + along) * (t * square) := by rw [← htq]; ring
  have hdiv : root - along ≤ t * square := le_of_mul_le_mul_left hmul hq
  have hroom' : room ≤ 2 * t * along + t * t * square := by
    calc room = 2 * t * along + t * (root - along) := by rw [← htq]; ring
      _ ≤ 2 * t * along + t * (t * square) :=
        add_le_add (le_refl _) (mul_le_mul_of_nonneg_left hdiv htpos.le)
      _ = 2 * t * along + t * t * square := by ring
  linarith

namespace Draft

variable {d : Draft K n m} {stage : Stage}

theorem foldl_mul_get (a b : Vector K n) :
    Fin.foldl n (fun sum i => sum + a.get i * b.get i) 0 = coords a ⬝ᵥ coords b := by
  rw [foldl_add_eq_sum, zero_add]
  rfl

theorem radius_le_of_boundaryLength?_none {radius : K} (h : d.boundaryLength? radius = none) :
    radius * radius ≤ coords d.step ⬝ᵥ coords d.step := by
  unfold boundaryLength? at h
  dsimp only at h
  split at h
  · next hroom => exact sub_nonpos.mp ((le_roomLeft radius d.step).trans hroom)
  · cases h

theorem boundaryLength?_eq_div {radius t : K} (h : d.boundaryLength? radius = some t)
    (hp : coords d.direction ≠ 0) : 0 < roomLeft radius d.step ∧
      ∃ root, t = roomLeft radius d.step / (root + coords d.step ⬝ᵥ coords d.direction) ∧
        IsRoot (roomLeft radius d.step) (coords d.step ⬝ᵥ coords d.direction)
          (coords d.direction ⬝ᵥ coords d.direction) root := by
  unfold boundaryLength? at h
  dsimp only at h
  rw [foldl_mul_get, foldl_mul_get, ← roomLeft] at h
  split at h
  · cases h
  next hroom =>
  have hroom := not_le.mp hroom
  have hpos := mul_pos (self_dotProduct_pos hp) hroom
  refine ⟨hroom, _, (Option.some.inj h).symm, ?_⟩
  generalize roomLeft radius d.step = room at hpos ⊢
  generalize coords d.direction ⬝ᵥ coords d.direction = square at hpos ⊢
  generalize coords d.step ⬝ᵥ coords d.direction = along
  have hsq := mul_self_nonneg along
  split
  · have hroot := sqrt_mul_self (add_nonneg hpos.le hsq)
    have hnn := sqrt_nonneg (add_nonneg hpos.le hsq)
    refine ⟨lt_of_mul_self_lt_mul_self₀ hnn ?_, Or.inl hroot⟩
    rw [hroot, abs_mul_abs_self]
    linarith
  · next hsmall =>
    have hlt : |along| < 1e-6 * Scalar.sqrt (square * room) := not_le.mp hsmall
    have hrpos := sqrt_pos hpos
    refine ⟨hlt.trans ?_, Or.inr ⟨sqrt_mul_self hpos.le, hlt.le⟩⟩
    norm_num
    linarith

theorem boundaryLength?_reaches {radius t : K} (h : d.boundaryLength? radius = some t)
    (hp : coords d.direction ≠ 0) :
    0 < t ∧ radius * radius ≤
      (coords d.step + t • coords d.direction) ⬝ᵥ (coords d.step + t • coords d.direction) := by
  obtain ⟨hroom, root, ht, hroot⟩ := boundaryLength?_eq_div h hp
  exact length_reaches hroom (le_roomLeft radius d.step) hroot ht

/-! ## Values at the target -/

theorem coords_targetAt (t : K) : coords (d.targetAt t) = coords d.step + t • coords d.direction := by
  funext i
  simp [targetAt, coords]

theorem residual_targetAt (t : K) (c : Fin (m + 1)) :
    L.residual c (d.targetAt t) = L.residual c d.step - t * (L.slope c ⬝ᵥ coords d.direction) := by
  rw [L.residual_eq, L.residual_eq, coords_targetAt, dotProduct_add, dotProduct_smul, smul_eq_mul]
  ring

theorem Directed.residual_targetAt (h : d.Directed L stage) (hs : d.Sound L) (t : K) {k : Nat}
    (hk : k < d.active.size) (hobj : d.active.constraintAt k ≠ Fin.last m) :
    L.residual (d.active.constraintAt k) (d.targetAt t) = d.violation - t * stage.rate K := by
  rw [Draft.residual_targetAt, hs.balanced.tight k hk hobj]
  exact congrArg (fun r => d.violation - t * r) (h.slope hs hk hobj)

theorem Directed.free_targetAt (h : d.Directed L stage) (hs : d.Sound L) (t : K) {j : Nat}
    (hj : d.active.size ≤ j) : d.active.axis j ⬝ᵥ coords (d.targetAt t) = 0 := by
  rw [coords_targetAt, dotProduct_add, dotProduct_smul, h.free hs hj, hs.balanced.sum,
    hs.balanced.factored.axis_dot_sum _ hj, smul_zero, add_zero]

theorem foldl_larger_range {f : Nat → K} {c : K} (hc : 0 ≤ c) : ∀ (count : Nat), (∀ k < count, f k = c) →
    (List.range count).foldl (fun worst k => larger worst (f k)) 0 = if count = 0 then 0 else c
  | 0, _ => rfl
  | count + 1, h => by
    rw [List.range_succ, List.foldl_append, foldl_larger_range hc count fun k hk => h k (by omega),
      List.foldl_cons, List.foldl_nil, h count (Nat.lt_succ_self count), larger_eq_max,
      if_neg (Nat.succ_ne_zero count)]
    split_ifs
    · exact max_eq_right hc
    · exact max_self c

theorem activeViolation_eq {target : Vector K n} {c : K} (hc : 0 ≤ c) (hpos : 0 < d.active.size)
    (h : ∀ k < d.active.size, L.residual (d.active.constraintAt k) target = c) :
    d.activeViolation L target = c := by
  unfold activeViolation
  rw [foldl_larger_range (f := fun k => L.residual (d.active.constraintAt k) target) hc _ h,
    if_neg hpos.ne']

theorem Directed.activeViolation_targetAt (h : d.Directed L .feasibility) (hs : d.Sound L)
    (hpos : 0 < d.active.size) {t : K} (ht : t ≤ d.violation) :
    d.activeViolation L (d.targetAt t) = d.violation - t := by
  refine activeViolation_eq (sub_nonneg.mpr ht) hpos fun k hk => ?_
  rw [h.residual_targetAt hs _ hk (hs.balanced.ne_last_of_apart h.1 (by have := h.1.2; omega)), Stage.rate,
    mul_one]

theorem shiftedResidual_eq (violation : K) (target : Vector K n) (c : Fin (m + 1)) :
    shiftedResidual L violation target c = violation - L.residual c target := by
  unfold shiftedResidual
  dsimp only
  rw [foldl_pair_eq_sum]
  dsimp only
  rw [snapToZero_eq, L.residual_eq]
  show violation - L.bounds.get c + L.slope c ⬝ᵥ coords target = _
  ring

/-- The multiplier of the objective grows along its direction. -/
theorem Directed.last_multiplier (h : d.Directed L .optimality) (hs : d.Sound L) (t : K) :
    (d.active.multipliersAt L (d.targetAt t)).getD d.active.last 0 = d.active.multiplier d.active.last +
      t / (d.active.diagonalAt d.active.last * d.active.diagonalAt d.active.last) := by
  have hf := hs.balanced.factored
  have hpos := h.1.1
  have hlt := ActiveSet.last_lt hpos
  have hne := hf.diagonal_ne _ hlt
  have hread := hf.last_dot_sum hpos fun k => (d.active.multipliersAt L (d.targetAt t)).getD k 0
  rw [← hf.sum_multipliersAt fun j hj => h.free_targetAt hs t hj, coords_targetAt, dotProduct_add,
    dotProduct_smul, h.2, dotProduct_smul, hf.frame.dot_self (hlt.trans_le hf.size_le_vars),
    hs.balanced.sum, hf.last_dot_sum hpos, smul_eq_mul, smul_eq_mul, mul_one] at hread
  field_simp
  field_simp at hread
  linarith

/-- The clamp of the objective's multiplier changes nothing. -/
theorem Directed.multipliersAt_of_lt (h : d.Directed L stage) (hs : d.Sound L) {t : K} (ht : 0 ≤ t)
    (violation : K) {k : Nat} (hk : k < d.active.size) :
    (d.multipliersAt L stage violation (d.targetAt t)).getD k 0 =
      (d.active.multipliersAt L (d.targetAt t)).getD k 0 := by
  have hkm : k < m + 1 := hk.trans_le hs.balanced.factored.size_le
  unfold Draft.multipliersAt
  dsimp only
  rw [getD_eq (Vector.ofFn _), dif_pos hkm, Vector.getElem_ofFn, if_pos hk, getD_eq _ k, dif_pos hkm]
  cases stage with
  | feasibility => rfl
  | optimality =>
    have hnonneg : 0 ≤ (d.active.multipliersAt L (d.targetAt t)).getD d.active.last 0 := by
      rw [h.last_multiplier hs]
      exact add_nonneg (hs.balanced.nonneg _) (div_nonneg ht (mul_self_nonneg _))
    rw [larger_eq_max, max_eq_right hnonneg]
    show ((d.active.multipliersAt L (d.targetAt t)).setIfInBounds _ _)[k] = _
    rw [Vector.getElem_setIfInBounds]
    split_ifs with e
    · subst e; rw [getD_eq, dif_pos hkm]
    · rfl

theorem multipliersAt_of_le (violation : K) (target : Vector K n) {k : Nat} (hk : d.active.size ≤ k)
    (hkw : k < stage.width m) : (d.multipliersAt L stage violation target).getD k 0 =
      violation - L.residual (d.active.constraintAt k) target := by
  have hkm : k < m + 1 := hkw.trans_le Stage.width_le
  unfold Draft.multipliersAt
  dsimp only
  rw [getD_eq (Vector.ofFn _), dif_pos hkm, Vector.getElem_ofFn, if_neg (Nat.not_lt.mpr hk), if_pos hkw,
    shiftedResidual_eq]

theorem Directed.sum_multipliersAt (h : d.Directed L stage) (hs : d.Sound L) {t : K} (ht : 0 ≤ t)
    (violation : K) : coords (d.targetAt t) = ∑ k ∈ Finset.range d.active.size,
      (d.multipliersAt L stage violation (d.targetAt t)).getD k 0 • d.active.normal L k := by
  rw [hs.balanced.factored.sum_multipliersAt fun j hj => h.free_targetAt hs t hj]
  refine Finset.sum_congr rfl fun k hk => ?_
  rw [h.multipliersAt_of_lt hs ht violation (Finset.mem_range.mp hk)]

/-! ## The fraction of the way -/

/-- The fraction is one if no multiplier changes sign; else some position is the first to vanish. -/
theorem fraction_cases {s : ActiveSet K n m} (hmult : ∀ k, 0 ≤ s.multiplier k) (next : Vector K (m + 1)) :
    ∀ width : Nat, (fraction s next width = (1, none) ∧ ∀ k < width, 0 ≤ next.getD k 0) ∨
      ∃ ratio k, fraction s next width = (ratio, some k) ∧ k < width ∧ next.getD k 0 < 0 ∧
        ratio = s.multiplier k / (s.multiplier k - next.getD k 0) ∧ ratio < 1 ∧
        ∀ j < width, next.getD j 0 < 0 → ratio ≤ s.multiplier j / (s.multiplier j - next.getD j 0)
  | 0 => Or.inl ⟨rfl, fun k hk => absurd hk (Nat.not_lt_zero k)⟩
  | width + 1 => by
    rw [fraction_succ]
    by_cases hneg : next.getD width 0 < 0
    · rw [if_pos hneg]
      have hw := hmult width
      have hpart : s.multiplier width / (s.multiplier width - next.getD width 0) < 1 := by
        rw [div_lt_one (by linarith)]; linarith
      rcases fraction_cases hmult next width with ⟨he, hall⟩ | ⟨ratio, k, he, hk, hkneg, hr, hlt, hall⟩
      · rw [he, if_pos hpart]
        exact Or.inr ⟨_, width, rfl, Nat.lt_succ_self width, hneg, rfl, hpart,
          Nat.forall_lt_succ_right.mpr
            ⟨fun j hj hj' => absurd hj' (not_lt.mpr (hall j hj)), fun _ => le_refl _⟩⟩
      · rw [he]
        by_cases hless : s.multiplier width / (s.multiplier width - next.getD width 0) < ratio
        · rw [if_pos hless]
          exact Or.inr ⟨_, width, rfl, Nat.lt_succ_self width, hneg, rfl, hpart,
            Nat.forall_lt_succ_right.mpr
              ⟨fun j hj hj' => hless.le.trans (hall j hj hj'), fun _ => le_refl _⟩⟩
        · rw [if_neg hless]
          exact Or.inr ⟨ratio, k, rfl, Nat.lt_succ_of_lt hk, hkneg, hr, hlt,
            Nat.forall_lt_succ_right.mpr ⟨hall, fun _ => not_lt.mp hless⟩⟩
    · rw [if_neg hneg]
      rcases fraction_cases hmult next width with ⟨he, hall⟩ | ⟨ratio, k, he, hk, hkneg, hr, hlt, hall⟩
      · exact Or.inl ⟨he, Nat.forall_lt_succ_right.mpr ⟨hall, not_lt.mp hneg⟩⟩
      · exact Or.inr ⟨ratio, k, he, Nat.lt_succ_of_lt hk, hkneg, hr, hlt,
          Nat.forall_lt_succ_right.mpr ⟨hall, fun h => absurd h hneg⟩⟩

/-- Where every multiplier is zero, the first that would turn negative blocks at once. -/
theorem fraction_of_zero {s : ActiveSet K n m} (hzero : ∀ j, s.multiplier j = 0) {next : Vector K (m + 1)}
    {k : Nat} (hk : next.getD k 0 < 0) (hall : ∀ j < k, 0 ≤ next.getD j 0) :
    ∀ width : Nat, fraction s next width = if k < width then (0, some k) else (1, none)
  | 0 => rfl
  | width + 1 => by
    rw [fraction_succ, fraction_of_zero hzero hk hall width]
    rcases Nat.lt_trichotomy k width with h | rfl | h
    · simp [h, Nat.lt_succ_of_lt h, hzero]
    · simp [hk, hzero]
    · rw [if_neg (not_lt.mpr (hall width h)), if_neg (by omega), if_neg (by omega)]

/-- A fraction up to the least ratio keeps a multiplier from turning negative. -/
theorem blend_nonneg {a b ratio : K} (ha : 0 ≤ a) (h0 : 0 ≤ ratio) (h1 : ratio ≤ 1)
    (h : b < 0 → ratio ≤ a / (a - b)) : 0 ≤ (1 - ratio) * a + ratio * b := by
  rcases lt_or_ge b 0 with hb | hb
  · have := (le_div_iff₀ (by linarith)).mp (h hb)
    linarith
  · exact add_nonneg (mul_nonneg (by linarith) ha) (mul_nonneg h0 hb)

/-- On the fraction of the way no multiplier turns negative. -/
theorem fraction_fits {s : ActiveSet K n m} (hmult : ∀ k, 0 ≤ s.multiplier k) (next : Vector K (m + 1)) (width : Nat) :
    0 ≤ (fraction s next width).1 ∧ (fraction s next width).1 ≤ 1 ∧ ∀ k < width,
      0 ≤ (1 - (fraction s next width).1) * s.multiplier k + (fraction s next width).1 * next.getD k 0 := by
  rcases fraction_cases hmult next width with ⟨he, hall⟩ | ⟨ratio, k, he, -, hneg, hratio, hlt, hall⟩
  · simpa [he] using hall
  · have hk := hmult k
    have h0 : 0 ≤ ratio := hratio ▸ div_nonneg hk (by linarith)
    rw [he]
    exact ⟨h0, hlt.le, fun j hj => blend_nonneg (hmult j) h0 hlt.le (hall j hj)⟩

/-! ## Moving towards the target -/

structure Aim (L : Linearization K n m) (stage : Stage) (d : Draft K n m) (target : Vector K n)
    (next : Vector K (m + 1)) (v : K) : Prop where
  nonneg : 0 ≤ v
  violation : stage = .optimality → v = d.violation
  sum : coords target = ∑ k ∈ Finset.range d.active.size, next.getD k 0 • d.active.normal L k
  tight : ∀ k < d.active.size, d.active.constraintAt k ≠ Fin.last m →
    L.residual (d.active.constraintAt k) target = v
  slack : ∀ k, d.active.size ≤ k → k < stage.width m →
    next.getD k 0 = v - L.residual (d.active.constraintAt k) target

theorem Directed.aim (h : d.Directed L stage) (hs : d.Sound L) {t v : K} (ht : 0 ≤ t) (hv : 0 ≤ v)
    (hrate : v = d.violation - t * stage.rate K) :
    Aim L stage d (d.targetAt t) (d.multipliersAt L stage v (d.targetAt t)) v where
  nonneg := hv
  violation e := by subst e; rw [hrate, Stage.rate, mul_zero, sub_zero]
  sum := h.sum_multipliersAt hs ht v
  tight k hk hobj := by rw [h.residual_targetAt hs t hk hobj, hrate]
  slack _ hk hkw := multipliersAt_of_le v _ hk hkw

theorem Directed.lt_width (h : d.Directed L stage) {k : Nat} (hk : k < m + 1)
    (hobj : d.active.constraintAt k ≠ Fin.last m) : k < stage.width m := by
  cases stage with
  | feasibility =>
    have hne : k ≠ m := fun e => hobj (by rw [e]; exact h.1.1)
    show k < m
    omega
  | optimality => exact hk

theorem Directed.size_le_width (h : d.Directed L stage) (hs : d.Sound L) :
    d.active.size ≤ stage.width m := by
  cases stage with
  | feasibility => exact h.1.2
  | optimality => exact hs.balanced.factored.size_le

section
variable {ratio v : K} {target : Vector K n} {next : Vector K (m + 1)}

theorem coords_moveTowards : coords (d.moveTowards stage ratio target next v).step =
    (1 - ratio) • coords d.step + ratio • coords target := by
  funext i
  simp [moveTowards, coords]

theorem residual_moveTowards (c : Fin (m + 1)) :
    L.residual c (d.moveTowards stage ratio target next v).step =
      (1 - ratio) * L.residual c d.step + ratio * L.residual c target := by
  rw [L.residual_eq, L.residual_eq, L.residual_eq, coords_moveTowards, dotProduct_add, dotProduct_smul,
    dotProduct_smul, smul_eq_mul, smul_eq_mul]
  ring

theorem violation_moveTowards (h : stage = .optimality → v = d.violation) :
    (d.moveTowards stage ratio target next v).violation = (1 - ratio) * d.violation + ratio * v := by
  cases stage with
  | feasibility => show d.violation + ratio * (v - d.violation) = _; ring
  | optimality => show d.violation = _; rw [h rfl]; ring

theorem multiplier_moveTowards (target : Vector K n) (v : K)
    (hfit : ∀ k < stage.width m, 0 ≤ (1 - ratio) * d.active.multiplier k + ratio * next.getD k 0)
    (k : Nat) : (d.moveTowards stage ratio target next v).active.multiplier k =
      if k < stage.width m then (1 - ratio) * d.active.multiplier k + ratio * next.getD k 0
      else d.active.multiplier k := by
  unfold moveTowards ActiveSet.multiplier
  dsimp only
  rw [getD_eq (Vector.ofFn _)]
  by_cases hkm : k < m + 1
  · rw [dif_pos hkm, Vector.getElem_ofFn]
    by_cases hk : k < stage.width m
    · have := hfit k hk
      rw [ActiveSet.multiplier] at this
      rw [getD_eq, dif_pos hkm, getD_eq, dif_pos hkm] at this ⊢
      rw [if_pos hk, if_pos hk, larger_eq_max]
      exact max_eq_right this
    · rw [if_neg hk, if_neg hk, getD_eq, dif_pos hkm]; rfl
  · rw [dif_neg hkm, if_neg fun h => hkm (h.trans_le Stage.width_le), getD_eq, dif_neg hkm]

theorem Sound.moveTowards (hs : d.Sound L) (h : d.Directed L stage) (ha : Aim L stage d target next v)
    (h0 : 0 ≤ ratio) (h1 : ratio ≤ 1)
    (hfit : ∀ k < stage.width m, 0 ≤ (1 - ratio) * d.active.multiplier k + ratio * next.getD k 0) :
    (d.moveTowards stage ratio target next v).Sound L := by
  have hf := hs.balanced.factored
  have hm := multiplier_moveTowards target v hfit
  have hw := h.size_le_width hs
  refine ⟨⟨⟨hf.size_le_vars, hf.size_le, hf.frame, hf.diagonal, hf.diagonal_ne, hf.triangular⟩,
    hs.balanced.distinct, fun k => ?_, ?_, fun k hk hobj => ?_, fun k hk hkm hobj => ?_⟩, ?_⟩
  · rw [hm]
    split_ifs with hk
    · exact hfit k hk
    · exact hs.balanced.nonneg k
  · rw [coords_moveTowards, hs.balanced.sum, ha.sum, Finset.smul_sum, Finset.smul_sum,
      ← Finset.sum_add_distrib]
    refine Finset.sum_congr rfl fun k hk => ?_
    have hk : k < d.active.size := Finset.mem_range.mp hk
    rw [hm, if_pos (hk.trans_le hw), add_smul, mul_smul, mul_smul]
    rfl
  · rw [residual_moveTowards, violation_moveTowards ha.violation]
    exact congrArg₂ (fun a b => (1 - ratio) * a + ratio * b) (hs.balanced.tight k hk hobj)
      (ha.tight k hk hobj)
  · have hkw := h.lt_width hkm hobj
    have hslack := hs.balanced.slack k hk hkm hobj
    have hnext := ha.slack k hk hkw
    rw [hm, if_pos hkw, hslack, hnext, residual_moveTowards, violation_moveTowards ha.violation]
    show _ = (1 - ratio) * d.violation + ratio * v -
      ((1 - ratio) * L.residual (d.active.constraintAt k) d.step +
        ratio * L.residual (d.active.constraintAt k) target)
    ring
  · rw [violation_moveTowards ha.violation]
    exact add_nonneg (mul_nonneg (by linarith) hs.violation_nonneg) (mul_nonneg h0 ha.nonneg)

theorem moveTowards_zero (h : ∀ k, 0 ≤ d.active.multiplier k) :
    d.moveTowards stage 0 target next v = d := by
  have hstep : d.step.zipWith (fun x t => (1 - 0) * x + 0 * t) target = d.step := by
    ext i hi
    simp
  have hmult : (Vector.ofFn fun k : Fin (m + 1) => if k.val < stage.width m then
      larger 0 ((1 - 0) * d.active.multipliers.get k + 0 * next.get k) else d.active.multipliers.get k) =
      d.active.multipliers := by
    ext k hk
    have hnonneg := h k
    rw [ActiveSet.multiplier, getD_eq, dif_pos hk] at hnonneg
    rw [Vector.getElem_ofFn, larger_eq_max, sub_zero, one_mul, zero_mul, add_zero]
    split_ifs
    · exact max_eq_right hnonneg
    · rfl
  unfold Draft.moveTowards
  dsimp only
  rw [hstep, hmult]
  cases stage with
  | feasibility => simp
  | optimality => rfl

theorem moveTowards_one (d : Draft K n m) (stage : Stage) (target : Vector K n) (next : Vector K (m + 1)) (v : K) :
    d.moveTowards stage 1 target next v =
      { d with
        step := target
        active := { d.active with
          multipliers := Vector.ofFn fun k =>
            if k.val < stage.width m then larger 0 (next.get k) else d.active.multipliers.get k }
        violation := if stage = .feasibility then v else d.violation } := by
  have hstep : d.step.zipWith (fun _ t => t) target = target := by
    ext i hi
    rw [Vector.getElem_zipWith]
  unfold Draft.moveTowards
  cases stage with
  | feasibility =>
    simp only [sub_self, zero_mul, one_mul, zero_add, add_sub_cancel, hstep]
    rfl
  | optimality =>
    simp only [sub_self, zero_mul, one_mul, zero_add, hstep]
    rfl

theorem Directed.moveTowards (h : d.Directed L stage) :
    (d.moveTowards stage ratio target next v).Directed L stage := by
  cases stage with
  | feasibility => exact h
  | optimality => exact h

end

/-! ## The outcome of an advance -/

def Ready (L : Linearization K n m) : Stage → Draft K n m → Nat → Prop
  | .feasibility, d, k => k < m ∧ (k < d.active.size → 1 < d.active.size)
  | .optimality, d, k => k < m + 1 ∧ (k < d.active.size → k + 1 < d.active.size) ∧
      (d.active.size ≤ k → d.active.normal L k ⬝ᵥ coords d.direction < 0)

inductive Advanced (L : Linearization K n m) (radius : K) (stage : Stage) (d : Draft K n m) :
    Advance × Draft K n m → Prop
  | outside (hout : radius * radius ≤ coords d.step ⬝ᵥ coords d.step) :
      Advanced L radius stage d (.ended .stalled, d)
  | blocked {k : Nat} {e : Draft K n m} (hs : e.Sound L) (hd : e.Directed L stage)
      (hle : e.violation ≤ d.violation) (hzero : e.active.multiplier k = 0) (hready : e.Ready L stage k) :
      Advanced L radius stage d (.blocked k, e)
  | boundary {e : Draft K n m} (hs : e.Sound L) (hd : e.Directed L stage)
      (hle : e.violation ≤ d.violation) (hout : radius * radius ≤ coords e.step ⬝ᵥ coords e.step) :
      Advanced L radius stage d (.ended .boundary, e)
  | feasible {e : Draft K n m} (hs : e.Sound L) (hd : e.Directed L stage) (hstage : stage = .feasibility)
      (hzero : e.violation = 0) : Advanced L radius stage d (.ended .feasible, e)

theorem coords_moveTowards_one (target : Vector K n) (next : Vector K (m + 1)) (v : K) :
    coords (d.moveTowards stage 1 target next v).step = coords target := by
  rw [moveTowards_one]

/-- The active constraint whose multiplier turns negative at the target is not the only one in the
first stage, and not the objective in the second; one that would become violated has been approached. -/
theorem Directed.ready (h : d.Directed L stage) (hs : d.Sound L) {t v : K} (ht : 0 < t)
    (ha : Aim L stage d (d.targetAt t) (d.multipliersAt L stage v (d.targetAt t)) v)
    (hpos : 0 < d.active.size) {k : Nat} (hk : k < stage.width m)
    (hneg : (d.multipliersAt L stage v (d.targetAt t)).getD k 0 < 0) : d.Ready L stage k := by
  cases stage with
  | feasibility =>
    refine ⟨hk, fun hks => by_contra fun hsize => ?_⟩
    have hone : d.active.size = 1 := by omega
    have hk0 : k = 0 := by omega
    subst hk0
    have hslope := h.2.1 0 hks
    -- the target has a positive component along the direction, and so has its only multiplier
    have hcomp := congrArg (coords d.direction ⬝ᵥ ·) ha.sum
    have hstep := congrArg (coords d.direction ⬝ᵥ ·) hs.balanced.sum
    rw [hone, Finset.sum_range_one, dotProduct_smul, dotProduct_comm _ (d.active.normal L 0), hslope,
      smul_eq_mul, mul_one] at hcomp hstep
    rw [coords_targetAt, dotProduct_add, hstep, dotProduct_smul, smul_eq_mul] at hcomp
    have := mul_pos ht (self_dotProduct_pos (h.direction_ne hs hpos))
    have := hs.balanced.nonneg 0
    linarith
  | optimality =>
    refine ⟨hk, fun hks => ?_, fun hks => ?_⟩
    · by_contra hlt
      have hkl : k = d.active.last := by unfold ActiveSet.last; omega
      subst hkl
      rw [h.multipliersAt_of_lt hs ht.le v hks, h.last_multiplier hs] at hneg
      have := hs.balanced.nonneg d.active.last
      have := div_nonneg ht.le (mul_self_nonneg (d.active.diagonalAt d.active.last))
      linarith
    · have hobj := hs.balanced.ne_last_of_last h.1 hk (by unfold ActiveSet.last; omega)
      have hslack := hs.balanced.slack k hks hk hobj
      rw [ha.slack k hks hk, ha.violation rfl, Draft.residual_targetAt] at hneg
      have hmul : t * (d.active.normal L k ⬝ᵥ coords d.direction) < 0 := by
        have := hs.balanced.nonneg k
        unfold ActiveSet.normal
        linarith
      exact neg_of_mul_neg_right hmul ht.le

/-- A move towards the target of a length is blocked, or ends the stage at the target. -/
theorem Sound.headFor (hs : d.Sound L) (h : d.Directed L stage) (hpos : 0 < d.active.size) {radius t v : K}
    (ht : 0 < t) (hv : 0 ≤ v) (hrate : v = d.violation - t * stage.rate K) (hle : v ≤ d.violation)
    {how : StageEnd} (hhow : (how = .boundary ∧ radius * radius ≤
        coords (d.targetAt t) ⬝ᵥ coords (d.targetAt t)) ∨
      (how = .feasible ∧ stage = .feasibility ∧ v = 0)) :
    Advanced L radius stage d (d.headFor L stage t v how) := by
  have ha := h.aim hs ht.le hv hrate
  have hready := fun k => h.ready (k := k) hs ht ha hpos
  unfold Draft.headFor
  dsimp only
  generalize d.multipliersAt L stage v (d.targetAt t) = next at ha hready ⊢
  rcases fraction_cases hs.balanced.nonneg next (stage.width m) with
    ⟨he, hall⟩ | ⟨ratio, k, he, hk, hneg, hratio, hlt, hall⟩
  · rw [he]
    have hsm := hs.moveTowards h ha zero_le_one (le_refl 1) fun k hk => by
      rw [sub_self, zero_mul, zero_add, one_mul]; exact hall k hk
    have hviolation : (d.moveTowards stage 1 (d.targetAt t) next v).violation = v := by
      rw [violation_moveTowards ha.violation]; ring
    rcases hhow with ⟨rfl, hout⟩ | ⟨rfl, hstage, hzero⟩
    · exact .boundary hsm h.moveTowards (by rw [hviolation]; exact hle)
        (by rw [coords_moveTowards_one]; exact hout)
    · exact .feasible hsm h.moveTowards hstage (by rw [hviolation]; exact hzero)
  · rw [he]
    have hmult := hs.balanced.nonneg k
    have h0 : 0 ≤ ratio := by
      rw [hratio]
      exact div_nonneg hmult (by linarith)
    have hfit : ∀ j < stage.width m, 0 ≤ (1 - ratio) * d.active.multiplier j + ratio * next.getD j 0 :=
      fun j hj => blend_nonneg (hs.balanced.nonneg j) h0 hlt.le (hall j hj)
    have hvanish : (1 - ratio) * d.active.multiplier k + ratio * next.getD k 0 = 0 := by
      have := (eq_div_iff (by linarith)).mp hratio
      linarith
    refine .blocked (hs.moveTowards h ha h0 hlt.le hfit) h.moveTowards ?_ ?_ ?_
    · rw [violation_moveTowards ha.violation]
      have := mul_le_mul_of_nonneg_left hle h0
      linarith
    · rw [multiplier_moveTowards _ _ hfit, if_pos hk]
      exact hvanish
    · have := hready k hk hneg
      cases stage <;> exact this

/-- The length of an advance is positive, and the violation at its target is what the rate of the stage leaves. -/
theorem Heads.spec {t v : K} (hheads : d.Heads L radius stage t v) (hs : d.Sound L) (h : d.Directed L stage)
    (hpos : 0 < d.active.size) : 0 < t ∧ 0 ≤ v ∧ v = d.violation - t * stage.rate K := by
  cases hheads with
  | @feasibility full hfull hgo =>
    have hlength := (boundaryLength?_reaches hfull (h.direction_ne hs hpos)).1
    rw [snapToZero_eq, beq_iff_eq] at hgo
    have hv : 0 < d.violation := lt_of_le_of_ne hs.violation_nonneg (Ne.symm hgo)
    have hle : min full d.violation ≤ d.violation := min_le_right _ _
    -- all residuals of the active constraints fall at rate one, so the violation is gone after its own length
    rw [smaller_eq_min, h.activeViolation_targetAt hs hpos hle]
    exact ⟨lt_min hlength hv, sub_nonneg.mpr hle, by simp [Stage.rate]⟩
  | optimality hfull =>
    exact ⟨(boundaryLength?_reaches hfull (h.direction_ne hs hpos)).1, hs.violation_nonneg, by simp [Stage.rate]⟩

theorem Sound.advance (hs : d.Sound L) (h : d.Directed L stage) (hpos : 0 < d.active.size) (radius : K) :
    Advanced L radius stage d (d.advance L radius stage) := by
  unfold Draft.advance
  cases hb : d.boundaryLength? radius with
  | none => exact .outside (radius_le_of_boundaryLength?_none hb)
  | some full =>
    have hreach := (boundaryLength?_reaches hb (h.direction_ne hs hpos)).2
    rw [← coords_targetAt] at hreach
    dsimp only
    by_cases hstop : stage = .feasibility ∧ (snapToZero d.violation full == 0) = true
    · rw [if_pos hstop]
      have hzero := hstop.2
      rw [snapToZero_eq, beq_iff_eq] at hzero
      exact .feasible hs h hstop.1 hzero
    · rw [if_neg hstop]
      cases stage with
      | feasibility =>
        obtain ⟨ht, hv, hrate⟩ := (Heads.feasibility hb fun e => hstop ⟨rfl, e⟩).spec hs h hpos
        apply hs.headFor h hpos ht hv hrate (by rw [hrate, Stage.rate]; linarith)
        rw [smaller_eq_min] at hrate ⊢
        by_cases e : min full d.violation = full
        · rw [e, beq_self_eq_true, if_pos rfl]
          exact Or.inl ⟨rfl, hreach⟩
        · have hmin : min full d.violation = d.violation := (min_choice _ _).resolve_left e
          rw [if_neg (by rwa [beq_iff_eq])]
          exact Or.inr ⟨rfl, rfl, by rw [hrate, hmin, Stage.rate]; ring⟩
      | optimality =>
        obtain ⟨ht, hv, hrate⟩ := (Heads.optimality hb).spec hs h hpos
        dsimp only
        rw [beq_self_eq_true, if_pos rfl]
        exact hs.headFor h hpos ht hv hrate (le_refl _) (Or.inl ⟨rfl, hreach⟩)

end Draft

end

end TrustSimplex
