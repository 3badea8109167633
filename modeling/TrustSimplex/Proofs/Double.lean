import Mathlib
import TrustSimplex.Scalar

/-!
# Comparisons of doubles

Doubles that are numbers compare as their keys do in a linear order, and what is not a number compares with nothing.
A running maximum that starts at a number stays one: it exceeds a bound exactly if one of the values does, and a value
that is no number is passed over. The number of doubles below one falls along every descent.
-/

namespace TrustSimplex.Double

open Float.Model

/-! ## Keys -/

def unpackedKey : UnpackedFloat → ℤ ×ₗ ℤ ×ₗ ℤ
  | .infinity .negative => toLex (-2, toLex (0, 0))
  | .finite .negative m e _ => toLex (-1, toLex (-e, -m))
  | .zero _ => toLex (0, toLex (0, 0))
  | .notANumber => toLex (0, toLex (0, 0))
  | .finite .positive m e _ => toLex (1, toLex (e, m))
  | .infinity .positive => toLex (2, toLex (0, 0))

def key (x : Float) : ℤ ×ₗ ℤ ×ₗ ℤ := unpackedKey x.toModel.unpack

theorem compare_neg (a b : ℤ) : compare (-a) (-b) = compare b a := by
  simp [compare, compareOfLessAndEq, eq_comm]

theorem compare_cast (a b : ℕ) : compare (a : ℤ) (b : ℤ) = compare a b := by
  simp [compare, compareOfLessAndEq]

theorem unpacked_compare_eq {x y : UnpackedFloat} (hx : x.isNaN = false) (hy : y.isNaN = false) :
    x.compare y = some (compare (unpackedKey x) (unpackedKey y)) := by
  cases x with
  | notANumber => cases hx
  | infinity s =>
    cases y with
    | notANumber => cases hy
    | infinity t => cases s <;> cases t <;> rfl
    | zero t => cases s <;> rfl
    | finite t m e hm => cases s <;> cases t <;> rfl
  | zero s =>
    cases y with
    | notANumber => cases hy
    | infinity t => cases t <;> rfl
    | zero t => rfl
    | finite t m e hm => cases t <;> rfl
  | finite s m e hm =>
    cases y with
    | notANumber => cases hy
    | infinity t => cases s <;> cases t <;> rfl
    | zero t => cases s <;> rfl
    | finite t m' e' hm' =>
      cases s with
      | negative =>
        cases t with
        -- both are turned around
        | negative =>
          show some ((compare e e').then (compare m m')).swap = _
          rw [Ordering.swap_then, Int.compare_swap, Nat.compare_swap, ← compare_neg e e', ← compare_cast m' m,
            ← compare_neg m m']
          rfl
        | positive => rfl
      | positive =>
        cases t with
        | negative => rfl
        | positive =>
          show some ((compare e e').then (compare m m')) = _
          rw [← compare_cast m m']
          rfl

theorem unpacked_compare_eq_none {x y : UnpackedFloat} (h : ¬ (x.isNaN = false ∧ y.isNaN = false)) :
    x.compare y = none := by
  cases x with
  | notANumber => rfl
  | infinity s => cases y <;> cases s <;> simp_all [UnpackedFloat.isNaN, UnpackedFloat.compare]
  | zero s => cases y <;> simp_all [UnpackedFloat.isNaN, UnpackedFloat.compare]
  | finite s m e hm => cases y <;> cases s <;> simp_all [UnpackedFloat.isNaN, UnpackedFloat.compare]

/-! ## Comparisons -/

section
variable {a b c x y : Float}

/-- A comparison holds of two numbers if it does of their keys, and of nothing else. -/
theorem compare_iff {R : Ordering → Bool} :
    (x.toModel.unpack.compare y.toModel.unpack).any R = true ↔
      x.isNaN = false ∧ y.isNaN = false ∧ R (compare (key x) (key y)) = true := by
  show _ ↔ x.toModel.unpack.isNaN = false ∧ y.toModel.unpack.isNaN = false ∧ _
  rw [← and_assoc]
  by_cases h : x.toModel.unpack.isNaN = false ∧ y.toModel.unpack.isNaN = false
  · rw [unpacked_compare_eq h.1 h.2, Option.any_some]
    exact ⟨fun hR => ⟨h, hR⟩, fun hall => hall.2⟩
  · rw [unpacked_compare_eq_none h, Option.any_none]
    exact iff_of_false nofun fun hall => h hall.1

theorem lt_iff : x < y ↔ x.isNaN = false ∧ y.isNaN = false ∧ key x < key y := by
  have hcompare : x < y ↔ (x.toModel.unpack.compare y.toModel.unpack).any (· == .lt) = true := by
    refine decide_eq_true_iff.trans ?_
    show (x.toModel.unpack.compare y.toModel.unpack == some .lt) = true ↔ _
    cases x.toModel.unpack.compare y.toModel.unpack <;> rfl
  rw [hcompare, compare_iff, beq_iff_eq, compare_lt_iff_lt]

theorem le_iff : x ≤ y ↔ x.isNaN = false ∧ y.isNaN = false ∧ key x ≤ key y := by
  refine decide_eq_true_iff.trans (compare_iff.trans ?_)
  rw [Ordering.isLE_iff_ne_gt, ← ne_eq, compare_le_iff_le]

theorem beq_self_iff : (x == x) = true ↔ x.isNaN = false := by
  have hcompare : (x == x) = (x.toModel.unpack.compare x.toModel.unpack).any (· == .eq) := by
    show (x.toModel.unpack.compare x.toModel.unpack == some .eq) = _
    cases x.toModel.unpack.compare x.toModel.unpack <;> rfl
  rw [hcompare, compare_iff, beq_iff_eq, compare_eq_iff_eq]
  exact ⟨fun h => h.1, fun h => ⟨h, h, rfl⟩⟩

theorem not_lt_iff (hx : x.isNaN = false) : ¬ x < y ↔ y ≤ x ∨ y.isNaN = true := by
  rw [lt_iff, le_iff, hx, ← not_lt]
  cases y.isNaN <;> simp only [true_and, false_and, and_false, not_false_eq_true, or_true, or_false, reduceCtorEq]

/-! ## The running maximum -/

theorem isNaN_larger (ha : a.isNaN = false) : (larger a b).isNaN = false := by
  unfold larger
  split_ifs with hlt hself
  · exact (lt_iff.mp hlt).2.1
  · exact ha
  · exact absurd (beq_self_iff.mpr ha) hself

theorem lt_larger_iff (ha : a.isNaN = false) : c < larger a b ↔ c < a ∨ c < b := by
  unfold larger
  rw [if_pos (beq_self_iff.mpr ha)]
  split_ifs with hab
  · refine ⟨Or.inr, fun h => h.elim (fun hca => ?_) id⟩
    rw [lt_iff] at hab hca ⊢
    exact ⟨hca.1, hab.2.1, hca.2.2.trans hab.2.2⟩
  · refine ⟨Or.inl, fun h => h.elim id fun hcb => ?_⟩
    rw [lt_iff] at hab hcb ⊢
    exact ⟨hcb.1, ha, hcb.2.2.trans_le (not_lt.mp fun hlt => hab ⟨ha, hcb.2.1, hlt⟩)⟩

/-- A scan whose body exceeds `c` where the state does, or for what it reads, exceeds it if anything it reads does. -/
theorem lt_foldl_iff {n : Nat} {f : Float → Fin n → Float} {P : Fin n → Prop}
    (hf : ∀ b k, b.isNaN = false → (f b k).isNaN = false ∧ (c < f b k ↔ c < b ∨ P k)) (hb : b.isNaN = false) :
    (Fin.foldl n f b).isNaN = false ∧ (c < Fin.foldl n f b ↔ c < b ∨ ∃ k, P k) := by
  induction n generalizing b with
  | zero => exact ⟨hb, by simp⟩
  | succ n ih =>
    obtain ⟨hfirst, hexceeds⟩ := hf b 0 hb
    obtain ⟨hnumber, hrest⟩ := ih (fun b k => hf b k.succ) hfirst
    rw [Fin.foldl_succ, hrest, hexceeds, Fin.exists_fin_succ, or_assoc]
    exact ⟨hnumber, Iff.rfl⟩

/-! ## Absolute values -/

theorem isNaN_unpack (spec : Format) (bits : BitVec spec.numBits) :
    (UnpackedFloat.unpack spec bits).isNaN = true ↔
      UnpackedFloat.unpackExponent bits = -1#_ ∧ UnpackedFloat.unpackMantissa bits ≠ 0#_ := by
  unfold UnpackedFloat.unpack
  dsimp only
  split_ifs <;> simp_all [UnpackedFloat.isNaN]

/-- Packing may overflow, but it tells a number from what is none. -/
theorem isNaN_unpack_pack (u : UnpackedFloat) :
    (UnpackedFloat.unpack .binary64 (UnpackedFloat.pack .binary64 u)).isNaN = u.isNaN := by
  rw [Bool.eq_iff_iff, isNaN_unpack]
  fun_cases UnpackedFloat.pack Format.binary64 u with
  | case1 => decide
  | case2 s => simp [UnpackedFloat.packedInfinity, UnpackedFloat.isNaN]
  | case3 s => simp [UnpackedFloat.packedZero, UnpackedFloat.isNaN]
  | case4 s => simp [UnpackedFloat.packedInfinity, UnpackedFloat.isNaN]
  | case5 s m e hm bits biased hsmall =>
    have hsmall : ¬ 2048 ≤ biased + 1 := hsmall
    have hne : BitVec.ofNat 11 biased ≠ 2047#11 := by
      rw [ne_eq, ← BitVec.toNat_inj, BitVec.toNat_ofNat, BitVec.toNat_ofNat]
      omega
    simp [UnpackedFloat.isNaN, hne]
  | case6 s => simp [UnpackedFloat.isNaN]

theorem isNaN_abs (x : Float) : x.abs.isNaN = x.isNaN := by
  have hsign : ∀ u : UnpackedFloat, u.abs.isNaN = u.isNaN := by rintro (_ | _ | _ | _) <;> rfl
  exact (isNaN_unpack_pack _).trans (hsign _)

end

/-! ## Ranks -/

theorem bits_injective : Function.Injective fun x : Float => x.toModel.toBits.toBitVec.toFin := by
  rintro ⟨⟨⟨⟨_⟩⟩, _⟩⟩ ⟨⟨⟨⟨_⟩⟩, _⟩⟩ h
  cases h
  rfl

instance finiteFloat : Finite Float := Finite.of_injective _ bits_injective

noncomputable def rank (x : Float) : Nat := {y : Float | y < x}.ncard

theorem rank_lt_rank {x y : Float} (h : x < y) : rank x < rank y := by
  refine Set.ncard_lt_ncard ⟨fun z hz => ?_, fun hall => ?_⟩
  · have hz : z < x := hz
    rw [lt_iff] at h hz
    exact lt_iff.mpr ⟨hz.1, h.2.1, hz.2.2.trans h.2.2⟩
  · exact lt_irrefl _ (lt_iff.mp (hall h : x < x)).2.2

/-- No double is below itself, and what is no number is below none. -/
theorem rank_add_two_le (x : Float) : rank x + 2 ≤ 2 ^ 64 := by
  have hnan : (0 / 0 : Float).isNaN = true := by decide +kernel
  have hcard : Nat.card Float ≤ 2 ^ 64 := by simpa using Nat.card_le_card_of_injective _ bits_injective
  have hnumbers : {y : Float | y.isNaN = false}.ncard < Nat.card Float :=
    Set.ncard_lt_card fun hall => by
      have hmem : (0 / 0 : Float) ∈ {y : Float | y.isNaN = false} := hall ▸ Set.mem_univ _
      exact Bool.false_ne_true (Eq.trans (Eq.symm hmem) hnan)
  cases hx : x.isNaN with
  | true =>
    have hempty : {y : Float | y < x} = ∅ := Set.eq_empty_of_forall_notMem fun y hy =>
      Bool.false_ne_true ((lt_iff.mp hy).2.1.symm.trans hx)
    rw [rank, hempty, Set.ncard_empty]
    decide
  | false =>
    have hlt : rank x < {y : Float | y.isNaN = false}.ncard :=
      Set.ncard_lt_ncard ⟨fun y hy => (lt_iff.mp hy).1, fun hall => lt_irrefl _ (lt_iff.mp (hall hx)).2.2⟩
    omega

end TrustSimplex.Double
