/-!
# Decimal digits of a double

A finite double is `m * 2 ^ q` for natural `m`. This module finds decimal digits for such a value in
exact arithmetic: the fewest that read back as the same double, and a given number of them rounded
half to even.
-/

namespace TrustSimplex.Decimal

inductive Parts where
  | nan
  | infinite (isNegative : Bool)
  | finite (isNegative : Bool) (m : Nat) (q : Int)

def hiddenBit : Nat := 1 <<< 52

def Parts.ofFloat (x : Float) : Parts :=
  let bits := x.toBits.toNat
  let isNegative := bits >>> 63 == 1
  let exponent := (bits >>> 52) % 2048
  let fraction := bits % hiddenBit
  if exponent = 2047 then if fraction = 0 then .infinite isNegative else .nan
  else if exponent = 0 then .finite isNegative fraction (-1074)
  else .finite isNegative (hiddenBit + fraction) ((exponent : Int) - 1075)

def powerOfTen (k : Nat) : Nat := Nat.pow 10 k

structure Ratio where
  numerator : Nat
  denominator : Nat

namespace Ratio

def scaled (m : Nat) (q : Int) : Ratio := ⟨m <<< q.toNat, 1 <<< (-q).toNat⟩

def inUnits (r : Ratio) (p : Int) : Ratio :=
  ⟨r.numerator * powerOfTen (-p).toNat, r.denominator * powerOfTen p.toNat⟩

def floor (r : Ratio) : Nat := r.numerator / r.denominator

def roundHalfEven (r : Ratio) : Nat :=
  let below := r.numerator / r.denominator
  let rest := 2 * (r.numerator % r.denominator)
  if r.denominator < rest ∨ (rest = r.denominator ∧ below % 2 = 1) then below + 1 else below

def roundHalfUp (r : Ratio) : Nat :=
  if 2 * (r.numerator % r.denominator) < r.denominator then r.floor else r.floor + 1

def leadingZeros (r : Ratio) : Nat → Nat
  | 0 => 0
  | fuel + 1 =>
    if r.denominator ≤ 10 * r.numerator then 0
    else 1 + leadingZeros ⟨10 * r.numerator, r.denominator⟩ fuel

/-- The `k` for which a positive quotient is at least `10 ^ (k - 1)` and below `10 ^ k`. -/
def magnitude (r : Ratio) : Int :=
  if r.denominator ≤ r.numerator then (Nat.toDigits 10 r.floor).length
  else -(r.leadingZeros r.denominator.log2 : Int)

end Ratio

/-- Digits after the point of a value `0.d₁d₂… * 10 ^ magnitude`; none for zero. -/
structure Digits where
  digits : List Char
  magnitude : Int

def Digits.ofNat (c : Nat) (p : Int) : Digits :=
  if c = 0 then ⟨[], 0⟩
  else
    let digits := Nat.toDigits 10 c
    ⟨(digits.reverse.dropWhile (· == '0')).reverse, digits.length + p⟩

/-! ## The fewest digits that read back -/

/-- The values that read back as `m * 2 ^ q`, in units of a quarter of the last bit: the least, the
greatest, and whether the two belong. A power of two has its lower neighbour at half the distance. -/
structure Neighbourhood where
  low : Nat
  high : Nat
  isClosed : Bool

def Neighbourhood.around (m : Nat) (q : Int) : Neighbourhood where
  low := if m = hiddenBit ∧ -1074 < q then 4 * m - 1 else 4 * m - 2
  high := 4 * m + 2
  isClosed := m % 2 = 0

def Neighbourhood.holds (n : Neighbourhood) (c : Ratio) : Bool :=
  let low := n.low * c.denominator
  let high := n.high * c.denominator
  (low < c.numerator && c.numerator < high) ||
    (n.isClosed && (low == c.numerator || c.numerator == high))

/-- The multiple of `10 ^ p` next to `m * 2 ^ q` that reads back. Of two the nearer is taken, and of
two equally near the greater. -/
def gridPoint? (m : Nat) (q p : Int) : Option Nat :=
  let near := Neighbourhood.around m q
  let quotient := (Ratio.scaled m q).inUnits p
  let below := quotient.floor
  let isGood (c : Nat) : Bool :=
    near.holds ((Ratio.scaled c (2 - q)).inUnits (-p))
  if quotient.numerator == below * quotient.denominator then some below
  else
    match isGood below, isGood (below + 1) with
    | true, true => some quotient.roundHalfUp
    | true, false => some below
    | false, true => some (below + 1)
    | false, false => none

def shortestFrom (m : Nat) (q p : Int) : Nat → Digits
  | 0 => .ofNat ((Ratio.scaled m q).inUnits p).roundHalfUp p
  | count + 1 =>
    match gridPoint? m q p with
    | some c => .ofNat c p
    | none => shortestFrom m q (p - 1) count

/-- The fewest digits that read back as `m * 2 ^ q`; seventeen always do. -/
def shortest (m : Nat) (q : Int) : Digits :=
  if m = 0 then ⟨[], 0⟩ else shortestFrom m q ((Ratio.scaled m q).magnitude - 1) 16

/-! ## A given number of digits -/

/-- The value `m * 2 ^ q` to `count` significant digits, a half to the even one. The digits are
those of the natural number, and the power of ten is that of its last digit. -/
def significant (m : Nat) (q : Int) (count : Nat) : Nat × Int :=
  if m = 0 then (0, 0)
  else
    let r := Ratio.scaled m q
    let p := r.magnitude - count
    let c := (r.inUnits p).roundHalfEven
    if c = powerOfTen count then (powerOfTen (count - 1), p + 1) else (c, p)

end TrustSimplex.Decimal
