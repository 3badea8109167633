import TrustSimplex.Proofs.TrustRegion.Arrangement

/-!
# Divisors of the factorization

The factorization divides by the lengths of plane rotations and by the diagonal of the active gradients. A test that what
is not zero passes, and with it what such rotations make of it, is passed by the whole diagonal at the top of every pass.
-/

namespace TrustSimplex

section
variable {α : Type} [Scalar α] {n m : Nat} {L : Linearization α n m} {accepts : α → Bool}

/-- What is not zero may be divided by, and so may what plane rotations make of it. -/
structure Divisors (accepts : α → Bool) : Prop where
  nonzero {x : α} (h : (x == 0) = false) : accepts x = true
  positive {x : α} (h : 0 < x) : accepts x = true
  root (a : α) {b : α} (h : accepts b = true) : accepts (Scalar.sqrt (a * a + b * b)) = true
  turned (a : α) {b c : α} (hb : accepts b = true) (hc : accepts c = true) :
    accepts (b / Scalar.sqrt (a * a + b * b) * c) = true

theorem divisors_all : Divisors fun _ : α => true := ⟨fun _ => rfl, fun _ => rfl, fun _ _ _ => rfl, fun _ _ _ _ _ => rfl⟩

theorem divisors_nonzero {K : Type} [EuclideanField K] : Divisors fun x : K => x != 0 where
  nonzero h := by simpa using h
  positive h := by simpa using h.ne'
  root a b h := by simpa using (hypotenuse a (by simpa using h)).1.ne'
  turned a b c hb hc := by
    have hb : b ≠ 0 := by simpa using hb
    simpa using ⟨⟨hb, (hypotenuse a hb).1.ne'⟩, by simpa using hc⟩

namespace ActiveSet

def Divisible (accepts : α → Bool) (s : ActiveSet α n m) : Prop := ∀ k < s.size, accepts (s.diagonalAt k) = true

variable {s t : ActiveSet α n m}

theorem Divisible.of_diagonal (h : s.Divisible accepts) (hdiagonal : t.diagonal = s.diagonal)
    (hsize : t.size = s.size) : t.Divisible accepts := by
  intro k hk
  simpa only [diagonalAt, hdiagonal] using h k (hsize ▸ hk)

theorem Divisible.grow (hs : s.Divisible accepts) {k : Nat} (hk : s.size ≤ k) (hkm : k < m + 1) {y : α}
    (hy : accepts y = true) : ((s.grow k y).placeLast k).Divisible accepts := by
  intro j hj
  have hj : j < s.size + 1 := hj
  have hread := diagonalAt_setDiagonal { s with size := s.size + 1 } (k := s.size) (by omega) y j
  refine (congrArg accepts hread).trans ?_
  split_ifs
  · exact hy
  · exact hs j (by omega)

theorem Divisible.supplant (hs : s.Divisible accepts) (hm : s.size ≤ m + 1) (hpos : 0 < s.size) {k : Nat} {own : α}
    (ratio : α) (hown : accepts own = true) : (s.supplant k own ratio).Divisible accepts := by
  intro j hj
  have hlast := (last_lt hpos).trans_le hm
  refine (congrArg accepts (s.diagonalAt_setDiagonal hlast own j)).trans ?_
  split_ifs
  · exact hown
  · exact hs j hj

variable (hd : Divisors accepts)
include hd

theorem Divisible.exchange (hs : s.Divisible accepts) (hm : s.size ≤ m + 1) {k : Nat} (hk : k + 1 < s.size) :
    (s.exchange L k).Divisible accepts := by
  intro j hj
  rw [s.diagonalAt_exchange (by omega)]
  split_ifs
  · exact hd.root _ (hs (k + 1) hk)
  · exact hd.turned _ (hs (k + 1) hk) (hs k (by omega))
  · exact hs j hj

theorem Divisible.foldl_exchange : ∀ (count : Nat) {k : Nat} {s : ActiveSet α n m}, s.Divisible accepts →
    s.size ≤ m + 1 → k + count < s.size →
      ((List.range' k count).foldl (ActiveSet.exchange L) s).Divisible accepts
  | 0, _, _, hs, _, _ => hs
  | count + 1, k, s, hs, hm, hk => by
    rw [List.range'_succ, List.foldl_cons]
    exact foldl_exchange count (hs.exchange hd hm (by omega)) hm (by rw [size_exchange]; omega)

theorem Divisible.moveToEnd (hs : s.Divisible accepts) (hm : s.size ≤ m + 1) {k : Nat} (hk : k < s.size) :
    (s.moveToEnd L k).Divisible accepts :=
  .foldl_exchange hd _ hs hm (add_last_sub_lt hk)

theorem Divisible.leave (hs : s.Divisible accepts) (hm : s.size ≤ m + 1) {k : Nat} (hk : k < s.size) :
    (s.leave L k).Divisible accepts := by
  intro j hj
  have hsize := s.size_leave L k
  exact hs.moveToEnd hd hm hk j (by rw [size_moveToEnd]; omega)

theorem Divisible.enter (hs : s.Divisible accepts) (hm : s.size ≤ m + 1) {k : Nat} (hk : s.size ≤ k)
    (hkm : k < m + 1) : (s.enter L k).2.Divisible accepts := by
  have hentering := entering L s k
  generalize s.enter L k = out at hentering
  cases hentering with
  | @grown B y _ hy => exact Divisible.grow (s := { s with basis := B }) hs hk hkm (hd.nonzero hy)
  | locked => exact hs.of_diagonal rfl rfl
  | @replaced r q own ratio _ hsize hdiagonal hq _ hown =>
    have hmoved := (hs.of_diagonal hdiagonal hsize).moveToEnd (L := L) (k := q) hd (by omega) (by omega)
    have hmsize := r.size_moveToEnd L q
    exact hmoved.supplant (by omega) (by omega) ratio (hd.nonzero hown)
  | spoiled _ hsize hdiagonal hq => exact (hs.of_diagonal hdiagonal hsize).moveToEnd hd (by omega) (by omega)

end ActiveSet

variable (hd : Divisors accepts)
include hd

namespace Draft

variable {d : Draft α n m} {stage : Stage} {k : Nat}

theorem divisible_add (hs : d.active.Divisible accepts) (h : d.active.Arranged) (hk : d.active.size ≤ k)
    (hkm : k < m + 1) (hlast : stage = .optimality → d.active.constraintAt k ≠ Fin.last m → d.active.ObjectiveLast) :
    (d.add L stage k).2.active.Divisible accepts := by
  have hentered := hs.enter (L := L) hd h.size_le hk hkm
  cases stage with
  | feasibility => rwa [(active_add_feasibility d k).2]
  | optimality =>
    rw [(active_add_optimality d k).2]
    obtain ⟨ht, hin, -⟩ := h.enter (L := L) hk hkm
    split_ifs with hstays
    · exact hentered
    · obtain ⟨hentered', hobj⟩ := not_or.mp hstays
      obtain ⟨hpos, hobjective⟩ := hlast rfl hobj
      obtain ⟨hbefore, -⟩ := (hin (by simpa using hentered')).objective hpos hobjective
      exact hentered.exchange hd ht.size_le (by unfold ActiveSet.last at hbefore ⊢; omega)

theorem divisible_remove (hs : d.active.Divisible accepts) (h : d.active.Arranged) (hk : k < d.active.size) :
    (d.remove L stage k).active.Divisible accepts := by
  cases stage with
  | feasibility => exact hs.leave hd h.size_le hk
  | optimality => exact hs.leave hd h.size_le hk

end Draft

namespace Pass

variable {p : Pass α n m} {stage : Stage}

theorem Placed.divisible_change (h : p.Placed stage) (hs : p.draft.active.Divisible accepts) :
    (p.change L stage).2.active.Divisible accepts := by
  unfold Pass.change
  split
  · next hk => exact Draft.divisible_remove hd hs h.arranged hk
  · next hk =>
    exact Draft.divisible_add hd hs h.arranged (Nat.not_lt.mp hk) (h.position_lt.trans_le Stage.width_le) h.objectiveLast

theorem Placed.divisible_run (h : p.Placed stage) (hs : p.draft.active.Divisible accepts) (radius : α) :
    (p.run L radius stage).draft.active.Divisible accepts := by
  have hchanged := h.divisible_change (L := L) hd hs
  unfold Pass.run
  cases Progress.count? p.progress (p.value L stage) p.draft.active.size with
  | none => exact hs
  | some progress =>
    dsimp only
    generalize p.change L stage = out at *
    obtain ⟨ok, d⟩ := out
    cases ok with
    | false => exact hchanged
    | true =>
      obtain ⟨-, hsize, hdiagonal⟩ := d.advance_keeps L radius stage
      have hadvanced := ActiveSet.Divisible.of_diagonal hchanged hdiagonal hsize
      dsimp only
      generalize d.advance L radius stage = out at *
      obtain ⟨outcome, e⟩ := out
      cases outcome <;> exact hadvanced

end Pass

/-- At the top of every pass the diagonal passes the test. -/
theorem Linearization.Reaches.divisible [ClampsAtZero α] {radius : α} {stage : Stage} {p : Pass α n m}
    (h : L.Reaches radius stage p) : p.draft.active.Divisible accepts := by
  induction h with
  | violated => exact fun k hk => absurd hk (Nat.not_lt_zero k)
  | satisfied => exact fun k hk => absurd hk (Nat.not_lt_zero k)
  | next hp hrun ih =>
    have hran := hp.placed.divisible_run (L := L) hd ih radius
    rw [hrun] at hran
    exact hran
  | settled hp hrun _ ih =>
    have hran := hp.placed.divisible_run (L := L) hd ih radius
    rw [hrun] at hran
    exact hran

end

end TrustSimplex
