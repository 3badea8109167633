import TrustSimplex.Scalar

/-!
# Configuration of a run

`Config` carries the proofs that its radii were accepted, so a run starts only from radii that
`Config.ofRadii?` lets through. The budget is compared with the number of variables when a run
starts, because it has to cover the vertices of the first simplex.
-/

namespace TrustSimplex

structure Config (α : Type) [Scalar α] where
  startRadius : α
  finalRadius : α
  maxEvals : Nat
  finalRadius_finite : Scalar.isFinite finalRadius = true
  finalRadius_positive : ¬ finalRadius ≤ 0
  startRadius_finite : Scalar.isFinite startRadius = true
  startRadius_greater : ¬ startRadius ≤ finalRadius

inductive ConfigError where
  | finalRadius
  | startRadius
  | noVariables
  | budget (required : Nat)
deriving DecidableEq

def ConfigError.message : ConfigError → String
  | .finalRadius => "rho_end must be finite and positive"
  | .startRadius => "rho_begin must be finite and greater than rho_end"
  | .noVariables => "problem must have at least one variable"
  | .budget required =>
    "max_evals must be at least " ++ toString required ++ " to build the initial simplex"

namespace Config

def ofRadii? {α : Type} [Scalar α] (startRadius finalRadius : α) (maxEvals : Nat) :
    Except ConfigError (Config α) :=
  if hf : Scalar.isFinite finalRadius = true ∧ ¬ finalRadius ≤ 0 then
    if hs : Scalar.isFinite startRadius = true ∧ ¬ startRadius ≤ finalRadius then
      .ok ⟨startRadius, finalRadius, maxEvals, hf.1, hf.2, hs.1, hs.2⟩
    else .error .startRadius
  else .error .finalRadius

def standard : Config Float where
  startRadius := 0.5
  finalRadius := 1e-6
  maxEvals := 1000
  finalRadius_finite := by decide
  finalRadius_positive := by decide
  startRadius_finite := by decide
  startRadius_greater := by decide

def validateFor {α : Type} [Scalar α] (c : Config α) (n : Nat) : Except ConfigError Unit :=
  if n = 0 then .error .noVariables
  else if c.maxEvals < n + 1 then .error (.budget (n + 1))
  else .ok ()

theorem validateFor_eq_ok_iff {α : Type} [Scalar α] (c : Config α) (n : Nat) :
    c.validateFor n = .ok () ↔ n ≠ 0 ∧ n + 1 ≤ c.maxEvals := by
  unfold validateFor
  by_cases h : n = 0
  · rw [if_pos h]
    exact ⟨(nomatch ·), fun e => absurd h e.1⟩
  · rw [if_neg h]
    by_cases hb : c.maxEvals < n + 1
    · rw [if_pos hb]
      exact ⟨(nomatch ·), fun e => absurd e.2 (Nat.not_le.2 hb)⟩
    · rw [if_neg hb]
      exact ⟨fun _ => ⟨h, Nat.not_lt.1 hb⟩, fun _ => rfl⟩

end Config

end TrustSimplex
