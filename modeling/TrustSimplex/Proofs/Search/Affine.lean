import TrustSimplex.Proofs.Search.Provenance
import TrustSimplex.Proofs.Simplex.Linearization

/-!
# Affine problems

The linear models of an exact simplex are the only affine functions that take its values at the vertices. Where the
constraints and the objective are affine themselves, the models of every selection are those functions: their
gradients are found from the first simplex on, whichever vertices a run has moved since.
-/

namespace TrustSimplex

/-- The gradients of the models are the given ones, that of the objective turned around. -/
structure Linearization.HasGradients {K : Type} [EuclideanField K] {n m : Nat} (L : Linearization K n m)
    (slope : Fin (m + 1) → Fin n → K) : Prop where
  constraint : ∀ k : Fin m, L.slope k.castSucc = slope k.castSucc
  objective : L.slope (Fin.last m) = -slope (Fin.last m)

namespace Search

section
variable {K I O ε σ : Type} [EuclideanField K] {n m : Nat} {q : Search K I O ε σ n m}

structure IsAffine (q : Search K I O ε σ n m) (base : Fin (m + 1) → K) (slope : Fin (m + 1) → Fin n → K) : Prop where
  constraint : ∀ x e, evaluate q.model q.problem x = .ok e → ∀ k : Fin m,
    e.constraints.get k = base k.castSucc + slope k.castSucc ⬝ᵥ coords x
  objective : ∀ x e, evaluate q.model q.problem x = .ok e →
    e.objective = base (Fin.last m) + slope (Fin.last m) ⬝ᵥ coords x

variable {base : Fin (m + 1) → K} {slope : Fin (m + 1) → Fin n → K}
variable {l : Ledger K I O σ n} {s : Simplex K (Snapshot I O) n m}

theorem IsAffine.constraint_vertex (h : q.IsAffine base slope) (hs : Located q l s) (v : Vertex n) (k : Fin m) :
    s.constraint v k = base k.castSucc + slope k.castSucc ⬝ᵥ coords (s.position v) := by
  obtain ⟨r, hr⟩ := Simplex.exists_sample hs.full v
  obtain ⟨e, _, _, he, hsample, -⟩ := hs.everywhere v r hr
  rw [← h.constraint _ e he k]
  unfold Simplex.constraint
  rw [hr, hsample]
  rfl

theorem IsAffine.objective_vertex (h : q.IsAffine base slope) (hs : Located q l s) (v : Vertex n) :
    s.objective v = base (Fin.last m) + slope (Fin.last m) ⬝ᵥ coords (s.position v) := by
  obtain ⟨r, hr⟩ := Simplex.exists_sample hs.full v
  obtain ⟨e, _, _, he, hsample, -⟩ := hs.everywhere v r hr
  rw [← h.objective _ e he, Simplex.objective_of_sample? hr, hsample]
  rfl

theorem IsAffine.hasGradients (h : q.IsAffine base slope) (hs : Located q l s) (hexact : s.Exact) :
    s.linearize.HasGradients slope := by
  -- seen from the pole the functions start from their values there
  have hedge : ∀ (c : Fin (m + 1)) v, base c + slope c ⬝ᵥ coords (s.position v) =
      base c + slope c ⬝ᵥ coords s.pole + slope c ⬝ᵥ s.edge v := by
    intro c v
    rw [Simplex.coords_position, dotProduct_add, add_assoc]
  constructor
  · intro k
    exact ((hexact.constraint_interpolates_iff k).mp fun v => (h.constraint_vertex hs v k).trans (hedge _ v)).2.symm
  · exact neg_eq_iff_eq_neg.mp
      (hexact.objective_interpolates_iff.mp fun v => (h.objective_vertex hs v).trans (hedge _ v)).2.symm

end

/-- An affine function takes the values of a constraint at all vertices exactly if it is the model of the constraint,
and those of the objective exactly if it is the model of the objective. So if a problem is affine, the models that a
run makes, before a selection turns to its best vertex as after it, have the gradients of the problem. -/
theorem models_interpolate (K : Type) [EuclideanField K] (n m : Nat) :
    (∀ (S : Type) (s : Simplex K S n m), s.Exact →
      (∀ (k : Fin m) (base : K) (slope : Fin n → K),
        (∀ v, s.constraint v k = base + slope ⬝ᵥ s.edge v) ↔
          base = -s.linearize.bounds.get k.castSucc ∧ slope = s.linearize.slope k.castSucc) ∧
      ∀ (base : K) (slope : Fin n → K), (∀ v, s.objective v = base + slope ⬝ᵥ s.edge v) ↔
        base = -s.linearize.bounds.get (Fin.last m) ∧ slope = -s.linearize.slope (Fin.last m)) ∧
    ∀ (I O ε σ : Type) (q : Search K I O ε σ n m) (base : Fin (m + 1) → K) (slope : Fin (m + 1) → Fin n → K),
      q.IsAffine base slope → ∀ x memory r, q.start x memory = .ok r →
      ∀ fuel count t, q.follow fuel r count = ⟨.selectBest, t⟩ →
        t.simplex.linearize.HasGradients slope ∧ t.selected.simplex.linearize.HasGradients slope := by
  refine ⟨fun S s hs => ⟨fun k base slope => hs.constraint_interpolates_iff k,
    fun base slope => hs.objective_interpolates_iff⟩, ?_⟩
  intro I O ε σ q base slope h x memory r hr fuel count t ht
  have hexact := (reached_follow hr fuel count).1.exact
  have hlocated := sourced_follow hr fuel count
  rw [ht] at hexact hlocated
  have hlocated : Located q t.ledger t.simplex := hlocated
  exact ⟨h.hasGradients hlocated hexact.1, h.hasGradients (hlocated.pivotTo _) hexact.selected.1⟩

/-! ## A slope of one variable -/

noncomputable def slanted : Search ℝ (Vector ℝ 1) Unit Empty Unit 1 1 where
  model := ⟨fun _ => .ok ()⟩
  problem := ⟨.ok, fun u _ => .ok (1 - u.get (.last 0)), fun u _ => .ok #v[u.get (.last 0) - 1]⟩
  config := unwatched.config
  observer := .silent

theorem isAffine_slanted : slanted.IsAffine ![-1, 1] ![fun _ => 1, fun _ => -1] := by
  have hdot : ∀ (c : ℝ) (x : Vector ℝ 1), (fun _ => c) ⬝ᵥ coords x = c * x.get (.last 0) := fun c x => by
    simp [dotProduct, get_eq_coords]
  constructor
  · rintro x e ⟨⟩ k
    rw [Subsingleton.elim k 0]
    show x.get (.last 0) - 1 = -1 + (fun _ => 1) ⬝ᵥ coords x
    rw [hdot]
    ring
  · rintro x e ⟨⟩
    show 1 - x.get (.last 0) = 1 + (fun _ => -1) ⬝ᵥ coords x
    rw [hdot]
    ring

theorem start_slanted : ∃ t, slanted.start #v[0] () = .ok ⟨.selectBest, t⟩ := by
  have hp : ∀ l x kind, ∃ r l', slanted.probe l x kind = (.ok (r, none), l') := by
    intro l x kind
    have heval : evaluate slanted.model slanted.problem x =
        .ok ⟨x, 1 - x.get (.last 0), #v[x.get (.last 0) - 1], ⟨x, ()⟩⟩ := rfl
    unfold probe
    rw [heval]
    dsimp only
    rw [if_pos (by simp [Evaluation.isFinite, Scalar.isFinite])]
    exact ⟨_, _, rfl⟩
  obtain ⟨first, l, hfirst⟩ := hp (.start ()) #v[0] .initial
  obtain ⟨r, l', hr⟩ := hp l (slanted.firstState #v[0] first l).simplex.nextInitial .initial
  refine ⟨{ slanted.firstState #v[0] first l with
    ledger := l', simplex := (slanted.firstState #v[0] first l).simplex.extend r }, ?_⟩
  unfold start
  rw [show slanted.config.validateFor 1 = .ok () from rfl]
  dsimp only
  rw [hfirst]
  dsimp only
  unfold build
  rw [show (slanted.firstState #v[0] first l).ledger = l from rfl, hr]
  rfl

theorem models_interpolate_slanted : cubicSimplex.Exact ∧
    (∀ v, cubicSimplex.objective v = 0 + (fun _ => 1 / 2) ⬝ᵥ cubicSimplex.edge v) ∧
    0 = -cubicSimplex.linearize.bounds.get 0 ∧ (fun _ => 1 / 2) = -cubicSimplex.linearize.slope 0 ∧
    slanted.IsAffine ![-1, 1] ![fun _ => 1, fun _ => -1] ∧ ∃ r t, slanted.start #v[0] () = .ok r ∧
      slanted.follow 0 r 0 = ⟨.selectBest, t⟩ ∧
      t.simplex.linearize.HasGradients ![fun _ => 1, fun _ => -1] ∧
      t.selected.simplex.linearize.HasGradients ![fun _ => 1, fun _ => -1] := by
  have hvalues : ∀ v, cubicSimplex.objective v = 0 + (fun _ => 1 / 2) ⬝ᵥ cubicSimplex.edge v := by
    intro v
    cases v with
    | pole =>
      show cubic 0 = 0 + (fun _ => 1 / 2) ⬝ᵥ 0
      rw [dotProduct_zero]
      unfold cubic
      norm_num
    | other j =>
      rw [Subsingleton.elim j 0]
      show cubic 2 = 0 + (fun _ => 1 / 2) ⬝ᵥ coords #v[2]
      unfold cubic
      norm_num [dotProduct, coords]
  obtain ⟨t, ht⟩ := start_slanted
  have hmodel := ((models_interpolate ℝ 1 0).1 _ cubicSimplex exact_cubicSimplex).2 _ _ |>.mp hvalues
  exact ⟨exact_cubicSimplex, hvalues, hmodel.1, hmodel.2, isAffine_slanted, _, t, ht, rfl,
    (models_interpolate ℝ 1 1).2 _ _ _ _ slanted _ _ isAffine_slanted _ _ _ ht 0 0 t rfl⟩

end Search

end TrustSimplex
