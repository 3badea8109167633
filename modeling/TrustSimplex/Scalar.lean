/-!
# Scalars

The arithmetic the method runs on. `Scalar` asks for the operations alone and for no law, so that
one definition of the method runs on doubles, is reasoned about over an ordered field with square
roots, and has properties that hold whatever the operations return.
-/

namespace TrustSimplex

/-- The operations of the method. `isFinite` tells the values that stand for a number. -/
class Scalar (α : Type) extends Zero α, One α, Add α, Sub α, Mul α, Div α, Neg α,
    OfScientific α, LT α, LE α, BEq α where
  abs : α → α
  sqrt : α → α
  isFinite : α → Bool
  decideLT : DecidableLT α
  decideLE : DecidableLE α

attribute [reducible, instance] Scalar.decideLT Scalar.decideLE

instance : Scalar Float where
  zero := 0.0
  one := 1.0
  abs := Float.abs
  sqrt := Float.sqrt
  isFinite := Float.isFinite
  decideLT := inferInstance
  decideLE := inferInstance

section
variable {α : Type} [Scalar α]

/-! ## The greater and the lesser of two values -/

/-- The greater of two values. A value that differs from itself is passed over. -/
def larger (a b : α) : α :=
  if a < b then b else if a == a then a else b

def smaller (a b : α) : α :=
  if b < a then b else if a == a then a else b

def range? (values : List α) : Option (α × α) :=
  values.foldl (fun bounds v =>
    if v == v then
      match bounds with
      | none => some (v, v)
      | some (low, high) => some (smaller low v, larger high v)
    else bounds) none

/-! ## Sums -/

/-- The sum of `f 0, …, f (n - 1)` from left to right, starting at the neutral `-0`. -/
def sumOf (n : Nat) (f : Fin n → α) : α :=
  Fin.foldl n (fun sum i => sum + f i) (-0)

theorem sumOf_zero (f : Fin 0 → α) : sumOf 0 f = -0 := rfl

/-- Zero if `value` cannot be told from rounding noise, else `value`.

`magnitude` is the sum of the absolute values of the terms of `value`. Where a tenth of `|value|`
added to it changes nothing, or a second tenth changes no more, the cancellation is total. -/
def snapToZero (value magnitude : α) : α :=
  let one := magnitude + 0.1 * Scalar.abs value
  let two := magnitude + 0.2 * Scalar.abs value
  if one ≤ magnitude ∨ two ≤ one then 0 else value

end

end TrustSimplex
