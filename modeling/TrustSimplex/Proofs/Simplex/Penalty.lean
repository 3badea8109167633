import TrustSimplex.Proofs.Simplex.Backtracking
import TrustSimplex.Proofs.Simplex.Linearization

/-!
# The rescaled penalty

A constraint is tight if its least value at the vertices is below half of its greatest. The rescaled penalty is the
old one, but no more than the spread of the objective over the least spread of a tight constraint, and zero if no
constraint is tight. All tight spreads are positive, so zero can stand for none of them.
-/

namespace TrustSimplex

section
variable {K S S' : Type} [EuclideanField K] {n m : Nat}

/-! ## Values at the vertices -/

namespace Vertex

def least (f : Vertex n → K) : K := Finset.univ.inf' ⟨pole, Finset.mem_univ _⟩ f

def greatest (f : Vertex n → K) : K := Finset.univ.sup' ⟨pole, Finset.mem_univ _⟩ f

theorem least_comp {g : K → K} (hg : Monotone g) (f : Vertex n → K) : least (g ∘ f) = g (least f) :=
  (Finset.apply_inf'_eq_inf'_comp _ g fun _ _ => hg.map_min).symm

theorem greatest_comp {g : K → K} (hg : Monotone g) (f : Vertex n → K) : greatest (g ∘ f) = g (greatest f) :=
  (Finset.apply_sup'_eq_sup'_comp _ g fun _ _ => hg.map_max).symm

theorem isLeast_least (f : Vertex n → K) : IsLeast (Set.range f) (least f) := by
  obtain ⟨v, -, hv⟩ := Finset.exists_mem_eq_inf' ⟨pole, Finset.mem_univ _⟩ f
  refine ⟨⟨v, hv.symm⟩, ?_⟩
  rintro _ ⟨w, rfl⟩
  exact Finset.inf'_le f (Finset.mem_univ w)

theorem isGreatest_greatest (f : Vertex n → K) : IsGreatest (Set.range f) (greatest f) := by
  obtain ⟨v, -, hv⟩ := Finset.exists_mem_eq_sup' ⟨pole, Finset.mem_univ _⟩ f
  refine ⟨⟨v, hv.symm⟩, ?_⟩
  rintro _ ⟨w, rfl⟩
  exact Finset.le_sup' f (Finset.mem_univ w)

theorem least_le_greatest (f : Vertex n → K) : least f ≤ greatest f :=
  (isLeast_least f).2 (isGreatest_greatest f).1

theorem least_comp_perm (f : Vertex n → K) (σ : Equiv.Perm (Vertex n)) : least (f ∘ σ) = least f := by
  have h := isLeast_least (f ∘ σ)
  rw [σ.surjective.range_comp] at h
  exact h.unique (isLeast_least f)

theorem greatest_comp_perm (f : Vertex n → K) (σ : Equiv.Perm (Vertex n)) : greatest (f ∘ σ) = greatest f := by
  have h := isGreatest_greatest (f ∘ σ)
  rw [σ.surjective.range_comp] at h
  exact h.unique (isGreatest_greatest f)

end Vertex

namespace Simplex

variable {s : Simplex K S n m}

theorem range?_valuesOf (s : Simplex K S n m) (c : Fin (m + 1)) :
    range? (s.valuesOf c) = some (Vertex.least fun v => s.value v c, Vertex.greatest fun v => s.value v c) := by
  have hset : {x | x ∈ s.valuesOf c} = Set.range fun v => s.value v c := by
    ext x
    show x ∈ (List.finRange n).map (fun j => s.value (.other j) c) ++ [s.value .pole c] ↔ ∃ v, s.value v c = x
    simp only [List.mem_append, List.mem_map, List.mem_finRange, true_and, List.mem_singleton]
    constructor
    · rintro (⟨j, hj⟩ | hpole)
      · exact ⟨.other j, hj⟩
      · exact ⟨.pole, hpole.symm⟩
    · rintro ⟨v, hv⟩
      cases v with
      | pole => exact Or.inr hv.symm
      | other j => exact Or.inl ⟨j, hv⟩
  have hne : s.valuesOf c ≠ [] := List.append_ne_nil_of_right_ne_nil _ (List.cons_ne_nil _ _)
  obtain ⟨low, high, hrange, hlow, hhigh⟩ := range?_spec hne
  rw [hset] at hlow hhigh
  rw [hrange, hlow.unique (Vertex.isLeast_least _), hhigh.unique (Vertex.isGreatest_greatest _)]

/-! ## Tight constraints -/

/-- The constraints that are not comfortably satisfied at every vertex. -/
def tight (s : Simplex K S n m) : Finset (Fin m) :=
  {k | Vertex.least (s.constraint · k) < 0.5 * Vertex.greatest (s.constraint · k)}

def tightSpread (s : Simplex K S n m) (k : Fin m) : K :=
  max (Vertex.greatest (s.constraint · k)) 0 - Vertex.least (s.constraint · k)

theorem mem_tight {k : Fin m} :
    k ∈ s.tight ↔ Vertex.least (s.constraint · k) < 0.5 * Vertex.greatest (s.constraint · k) := by
  simp [tight]

theorem tightSpread_pos {k : Fin m} (hk : k ∈ s.tight) : 0 < s.tightSpread k := by
  rw [mem_tight] at hk
  unfold tightSpread
  rw [sub_pos]
  -- half of a value is below it or not above zero
  rcases le_total (Vertex.greatest (s.constraint · k)) 0 with hle | hge
  · exact lt_max_of_lt_right (hk.trans_le (by linarith))
  · exact lt_max_of_lt_left (hk.trans_le (by linarith))

theorem tightSpread?_eq (s : Simplex K S n m) (k : Fin m) :
    s.tightSpread? k = if k ∈ s.tight then some (s.tightSpread k) else none := by
  unfold tightSpread? tightSpread
  rw [range?_valuesOf]
  simp only [value_castSucc, mem_tight, larger_eq_max]

/-- A scan for the least of positive values starts from zero, which is none of them. -/
theorem foldl_leastPositive {l : Nat} (value? : Fin l → Option K) (hpos : ∀ k x, value? k = some x → 0 < x) :
    let least := Fin.foldl l (fun least k =>
      match value? k with
      | none => least
      | some x => if least ≤ 0 then x else smaller least x) 0
    (least = 0 ∧ ∀ k, value? k = none) ∨
      0 < least ∧ (∃ k, value? k = some least) ∧ ∀ k x, value? k = some x → least ≤ x := by
  induction l with
  | zero => exact Or.inl ⟨rfl, nofun⟩
  | succ l ih =>
    have ih := ih (fun k => value? k.castSucc) fun k => hpos k.castSucc
    dsimp only at ih ⊢
    rw [Fin.foldl_succ_last]
    generalize Fin.foldl l _ (0 : K) = least at ih ⊢
    cases hlast : value? (Fin.last l) with
    | none =>
      refine ih.imp (fun ⟨hzero, hnone⟩ => ⟨hzero, Fin.lastCases hlast hnone⟩) ?_
      rintro ⟨hleast, ⟨k, hk⟩, hall⟩
      refine ⟨hleast, ⟨_, hk⟩, Fin.lastCases (fun x hx => ?_) hall⟩
      rw [hlast] at hx
      cases hx
    | some y =>
      have hy := hpos _ y hlast
      have hsame : ∀ x, value? (Fin.last l) = some x → y = x := fun x hx => Option.some.inj (hlast.symm.trans hx)
      refine Or.inr ?_
      dsimp only
      rcases ih with ⟨hzero, hnone⟩ | ⟨hleast, ⟨k, hk⟩, hall⟩
      · rw [if_pos hzero.le]
        refine ⟨hy, ⟨_, hlast⟩, Fin.lastCases (fun x hx => (hsame x hx).le) fun k x hx => ?_⟩
        rw [hnone] at hx
        cases hx
      · rw [if_neg hleast.not_ge, smaller_eq_min]
        refine ⟨lt_min hleast hy, ?_, Fin.lastCases (fun x hx => ?_) fun k x hx => ?_⟩
        · rcases min_choice least y with hmin | hmin
          · exact ⟨_, hmin ▸ hk⟩
          · exact ⟨_, hmin ▸ hlast⟩
        · exact hsame x hx ▸ min_le_right _ _
        · exact (min_le_left _ _).trans (hall k x hx)

theorem leastTightSpread_eq (s : Simplex K S n m) :
    s.leastTightSpread = if h : s.tight.Nonempty then s.tight.inf' h s.tightSpread else 0 := by
  have hsome : ∀ {k x}, s.tightSpread? k = some x ↔ k ∈ s.tight ∧ s.tightSpread k = x := by
    intro k x
    rw [tightSpread?_eq, Option.ite_none_right_eq_some, Option.some.injEq]
  rcases foldl_leastPositive s.tightSpread? fun k x hx => (hsome.mp hx).2 ▸ tightSpread_pos (hsome.mp hx).1 with
    ⟨hzero, hnone⟩ | ⟨-, ⟨k, hk⟩, hall⟩
  · have hempty : ¬ s.tight.Nonempty := by
      rintro ⟨k, hk⟩
      have := hsome.mpr ⟨hk, rfl⟩
      rw [hnone] at this
      cases this
    rw [dif_neg hempty]
    exact hzero
  · obtain ⟨hmem, hspread⟩ := hsome.mp hk
    rw [dif_pos ⟨k, hmem⟩]
    exact le_antisymm (Finset.le_inf' _ _ fun i hi => hall i _ (hsome.mpr ⟨hi, rfl⟩))
      ((Finset.inf'_le _ hmem).trans hspread.le)

theorem inf'_tightSpread_pos (h : s.tight.Nonempty) : 0 < s.tight.inf' h s.tightSpread := by
  rw [Finset.lt_inf'_iff]
  exact fun k hk => tightSpread_pos hk

/-! ## The cap of the penalty -/

theorem objectiveSpread_eq (s : Simplex K S n m) :
    s.objectiveSpread = Vertex.greatest s.objective - Vertex.least s.objective := by
  unfold objectiveSpread
  rw [range?_valuesOf]
  simp only [value_last]

theorem rescaledPenalty_of_empty (h : s.tight = ∅) (penalty : K) : s.rescaledPenalty penalty = 0 := by
  have hzero : s.leastTightSpread = 0 := by
    rw [leastTightSpread_eq, dif_neg (Finset.not_nonempty_iff_eq_empty.mpr h)]
  unfold rescaledPenalty
  dsimp only
  rw [hzero, beq_self_eq_true, if_pos rfl]

theorem rescaledPenalty_of_nonempty (h : s.tight.Nonempty) (penalty : K) : s.rescaledPenalty penalty =
    min penalty ((Vertex.greatest s.objective - Vertex.least s.objective) / s.tight.inf' h s.tightSpread) := by
  have hpos := inf'_tightSpread_pos h
  unfold rescaledPenalty
  dsimp only
  rw [leastTightSpread_eq, dif_pos h, objectiveSpread_eq, if_neg (fun e => hpos.ne' (beq_iff_eq.mp e))]
  split_ifs with hspread
  · exact (min_eq_right ((div_lt_iff₀ hpos).mpr hspread).le).symm
  · exact (min_eq_left ((le_div_iff₀ hpos).mpr (not_lt.mp hspread))).symm

theorem rescaledPenalty_nonneg (s : Simplex K S n m) {penalty : K} (h : 0 ≤ penalty) :
    0 ≤ s.rescaledPenalty penalty := by
  rcases s.tight.eq_empty_or_nonempty with hempty | htight
  · exact (rescaledPenalty_of_empty hempty penalty).ge
  · rw [rescaledPenalty_of_nonempty htight]
    exact le_min h (div_nonneg (sub_nonneg.mpr (Vertex.least_le_greatest _)) (inf'_tightSpread_pos htight).le)

theorem rescaledPenalty_le (s : Simplex K S n m) {penalty : K} (h : 0 ≤ penalty) :
    s.rescaledPenalty penalty ≤ penalty := by
  rcases s.tight.eq_empty_or_nonempty with hempty | htight
  · exact (rescaledPenalty_of_empty hempty penalty).trans_le h
  · rw [rescaledPenalty_of_nonempty htight]
    exact min_le_left _ _

theorem monotone_rescaledPenalty (s : Simplex K S n m) : Monotone s.rescaledPenalty := by
  intro penalty higher hle
  rcases s.tight.eq_empty_or_nonempty with hempty | htight
  · rw [rescaledPenalty_of_empty hempty, rescaledPenalty_of_empty hempty]
  · rw [rescaledPenalty_of_nonempty htight, rescaledPenalty_of_nonempty htight]
    exact min_le_min_right _ hle

theorem rescaledPenalty_idem (s : Simplex K S n m) (penalty : K) :
    s.rescaledPenalty (s.rescaledPenalty penalty) = s.rescaledPenalty penalty := by
  rcases s.tight.eq_empty_or_nonempty with hempty | htight
  · rw [rescaledPenalty_of_empty hempty, rescaledPenalty_of_empty hempty]
  · simp only [rescaledPenalty_of_nonempty htight, min_assoc, min_self]

/-! ## Other orders of the vertices and of the constraints -/

/-- The second simplex has the values of the first at its vertices in another order, and its constraints in another
order. -/
structure Reordered (s : Simplex K S n m) (t : Simplex K S' n m) (σ : Equiv.Perm (Vertex n))
    (τ : Equiv.Perm (Fin m)) : Prop where
  constraint : ∀ v k, t.constraint v k = s.constraint (σ v) (τ k)
  objective : ∀ v, t.objective v = s.objective (σ v)

namespace Reordered

variable {t : Simplex K S' n m} {σ : Equiv.Perm (Vertex n)} {τ : Equiv.Perm (Fin m)}

theorem least_constraint (h : s.Reordered t σ τ) (k : Fin m) :
    Vertex.least (t.constraint · k) = Vertex.least (s.constraint · (τ k)) := by
  rw [← Vertex.least_comp_perm (s.constraint · (τ k)) σ]
  exact congrArg Vertex.least (funext fun v => h.constraint v k)

theorem greatest_constraint (h : s.Reordered t σ τ) (k : Fin m) :
    Vertex.greatest (t.constraint · k) = Vertex.greatest (s.constraint · (τ k)) := by
  rw [← Vertex.greatest_comp_perm (s.constraint · (τ k)) σ]
  exact congrArg Vertex.greatest (funext fun v => h.constraint v k)

theorem tight (h : s.Reordered t σ τ) : t.tight = s.tight.map τ.symm.toEmbedding := by
  ext k
  rw [Finset.mem_map_equiv, Equiv.symm_symm, mem_tight, mem_tight, h.least_constraint, h.greatest_constraint]

theorem tightSpread (h : s.Reordered t σ τ) (k : Fin m) : t.tightSpread k = s.tightSpread (τ k) := by
  unfold Simplex.tightSpread
  rw [h.least_constraint, h.greatest_constraint]

theorem leastTightSpread (h : s.Reordered t σ τ) : t.leastTightSpread = s.leastTightSpread := by
  rw [leastTightSpread_eq, leastTightSpread_eq]
  simp only [h.tight, Finset.map_nonempty, Finset.inf'_map]
  congr 1
  ext hs
  refine Finset.inf'_congr _ rfl fun k _ => ?_
  rw [Function.comp_apply, h.tightSpread, Equiv.coe_toEmbedding, Equiv.apply_symm_apply]

theorem objectiveSpread (h : s.Reordered t σ τ) : t.objectiveSpread = s.objectiveSpread := by
  have hobjective : t.objective = s.objective ∘ σ := funext h.objective
  rw [objectiveSpread_eq, objectiveSpread_eq, hobjective, Vertex.least_comp_perm, Vertex.greatest_comp_perm]

theorem rescaledPenalty (h : s.Reordered t σ τ) (penalty : K) :
    t.rescaledPenalty penalty = s.rescaledPenalty penalty := by
  unfold Simplex.rescaledPenalty
  rw [h.leastTightSpread, h.objectiveSpread]

end Reordered

/-- The rescaled penalty is the old one, but no more than the spread of the objective over the least spread of a tight
constraint, which is positive, and zero if no constraint is tight. So it lies between zero and the old one, is the same
in every order of the vertices and of the constraints, and rises with the old one; to rescale it again leaves it as
it is. -/
theorem rescaledPenalty_capped (s : Simplex K S n m) :
    (s.tight = ∅ → ∀ penalty, s.rescaledPenalty penalty = 0) ∧
    (∀ h : s.tight.Nonempty, 0 < s.tight.inf' h s.tightSpread ∧ ∀ penalty, s.rescaledPenalty penalty =
      min penalty ((Vertex.greatest s.objective - Vertex.least s.objective) / s.tight.inf' h s.tightSpread)) ∧
    (∀ penalty, 0 < penalty → s.rescaledPenalty penalty ∈ Set.Icc 0 penalty) ∧
    (∀ (S' : Type) (t : Simplex K S' n m) (σ : Equiv.Perm (Vertex n)) (τ : Equiv.Perm (Fin m)),
      s.Reordered t σ τ → ∀ penalty, t.rescaledPenalty penalty = s.rescaledPenalty penalty) ∧
    Monotone s.rescaledPenalty ∧
    ∀ penalty, s.rescaledPenalty (s.rescaledPenalty penalty) = s.rescaledPenalty penalty :=
  ⟨rescaledPenalty_of_empty, fun h => ⟨inf'_tightSpread_pos h, rescaledPenalty_of_nonempty h⟩,
    fun _ hpos => ⟨s.rescaledPenalty_nonneg hpos.le, s.rescaledPenalty_le hpos.le⟩,
    fun _ _ _ _ h => h.rescaledPenalty, s.monotone_rescaledPenalty, s.rescaledPenalty_idem⟩

end Simplex

/-! ## Two vertices -/

theorem Vertex.range_two {α : Type} (f : Vertex 1 → α) : Set.range f = {f .pole, f (.other 0)} := by
  ext x
  constructor
  · rintro ⟨v, rfl⟩
    cases v with
    | pole => exact Or.inl rfl
    | other j =>
      rw [Subsingleton.elim j 0]
      exact Or.inr rfl
  · rintro (rfl | rfl)
    · exact ⟨_, rfl⟩
    · exact ⟨_, rfl⟩

theorem Vertex.least_two (f : Vertex 1 → K) : least f = min (f .pole) (f (.other 0)) :=
  (isLeast_least f).unique (range_two f ▸ isLeast_pair)

theorem Vertex.greatest_two (f : Vertex 1 → K) : greatest f = max (f .pole) (f (.other 0)) :=
  (isGreatest_greatest f).unique (range_two f ▸ isGreatest_pair)

namespace Simplex

noncomputable def segment (first second : Sample ℝ Unit 2) : Simplex ℝ Unit 1 2 :=
  ⟨zeroVec 1, .identity 1 1, .identity 1 1, first, #[second]⟩

theorem mem_tight_segment {first second : Sample ℝ Unit 2} {k : Fin 2} : k ∈ (segment first second).tight ↔
    min (first.constraints.get k) (second.constraints.get k) <
      0.5 * max (first.constraints.get k) (second.constraints.get k) := by
  rw [mem_tight, Vertex.least_two, Vertex.greatest_two]
  rfl

noncomputable def crossing : Simplex ℝ Unit 1 2 := segment ⟨#v[-1, 1], 1, 1, ()⟩ ⟨#v[1, 1], 0, 0, ()⟩

noncomputable def crossingBack : Simplex ℝ Unit 1 2 := segment ⟨#v[1, 1], 0, 0, ()⟩ ⟨#v[1, -1], 1, 1, ()⟩

noncomputable def settled : Simplex ℝ Unit 1 2 := segment ⟨#v[1, 1], 1, 0, ()⟩ ⟨#v[1, 1], 0, 0, ()⟩

theorem tight_crossing : crossing.tight = {0} := by
  ext k
  rw [crossing, mem_tight_segment, Finset.mem_singleton]
  fin_cases k
  · norm_num [Vector.get]
  · norm_num [Vector.get]

theorem tight_settled : settled.tight = ∅ := by
  ext k
  rw [settled, mem_tight_segment]
  fin_cases k
  · norm_num [Vector.get]
  · norm_num [Vector.get]

theorem reordered_crossing : crossing.Reordered crossingBack (.swap .pole (.other 0)) (.swap 0 1) := by
  constructor
  · intro v k
    cases v with
    | pole =>
      rw [Equiv.swap_apply_left]
      fin_cases k
      · rfl
      · rfl
    | other j =>
      rw [Subsingleton.elim j 0, Equiv.swap_apply_right]
      fin_cases k
      · rfl
      · rfl
  · intro v
    cases v with
    | pole =>
      rw [Equiv.swap_apply_left]
      rfl
    | other j =>
      rw [Subsingleton.elim j 0, Equiv.swap_apply_right]
      rfl

/-- The objective spreads over one and the tight constraint over two. -/
theorem rescaledPenalty_capped_crossing : crossing.tight.Nonempty ∧ (0 : ℝ) < 1 ∧
    crossing.rescaledPenalty 1 = 1 / 2 ∧ crossing.rescaledPenalty 1 ∈ Set.Icc 0 1 ∧
    crossing.Reordered crossingBack (.swap .pole (.other 0)) (.swap 0 1) ∧
    crossingBack.rescaledPenalty 1 = crossing.rescaledPenalty 1 ∧
    settled.tight = ∅ ∧ settled.rescaledPenalty 1 = 0 := by
  have htight : crossing.tight.Nonempty := tight_crossing ▸ Finset.singleton_nonempty 0
  obtain ⟨-, hcap, hbetween, horder, -, -⟩ := rescaledPenalty_capped crossing
  refine ⟨htight, one_pos, ?_, hbetween 1 one_pos, reordered_crossing, horder _ _ _ _ reordered_crossing 1,
    tight_settled, (rescaledPenalty_capped settled).1 tight_settled 1⟩
  have hspread : crossing.tight.inf' htight crossing.tightSpread = 2 := by
    simp only [tight_crossing, Finset.inf'_singleton]
    rw [tightSpread, Vertex.least_two, Vertex.greatest_two]
    show max (max (-1) 1) 0 - min (-1) 1 = (2 : ℝ)
    norm_num
  rw [(hcap htight).2, hspread, Vertex.least_two, Vertex.greatest_two]
  show min 1 ((max 1 0 - min 1 0) / 2) = (1 / 2 : ℝ)
  norm_num

end Simplex

end

end TrustSimplex
