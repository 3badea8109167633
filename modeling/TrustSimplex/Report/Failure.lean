import TrustSimplex.Decimal.Text
import TrustSimplex.Search.State

/-!
# Messages of failures
-/

namespace TrustSimplex

def Failure.message {ε : Type} {n : Nat} : Failure Float ε n → String
  | .invalidConfig cause => "invalid config: " ++ cause.message
  | .evaluation cause => cause.message
  | .nonFinite x objective =>
    "non-finite objective or constraint at x = " ++
      Decimal.bracketed (x.toList.map (Decimal.render Decimal.marked)) ++
      " (objective = " ++ Decimal.render Decimal.plain objective ++ ")"

end TrustSimplex
