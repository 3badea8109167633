import TrustSimplex.Decimal.Digits

/-!
# Decimal text of a double

The written forms of doubles in messages and reports. A `Style` holds what the shortest forms
decide; `scientific` writes a fixed number of digits.
-/

namespace TrustSimplex.Decimal

structure Style where
  /-- The powers of ten of the first digit that are written without an exponent. -/
  isPositional : Int → Bool
  /-- Whether a whole number written without an exponent ends in `.0`. -/
  marksWhole : Bool

def plain : Style := ⟨fun _ => true, false⟩

/-- Without an exponent from `1e-4` to below `1e16`, and there with a digit after the point. -/
def marked : Style := ⟨fun e => -4 ≤ e && e < 16, true⟩

def sign (isNegative : Bool) : String := if isNegative then "-" else ""

def Digits.positional (d : Digits) (marksWhole : Bool) : String :=
  let size : Int := d.digits.length
  let tail := if marksWhole then ".0" else ""
  if d.digits.isEmpty then "0" ++ tail
  else if size ≤ d.magnitude then
    String.ofList (d.digits ++ List.replicate (d.magnitude - size).toNat '0') ++ tail
  else if d.magnitude ≤ 0 then
    "0." ++ String.ofList (List.replicate (-d.magnitude).toNat '0' ++ d.digits)
  else
    String.ofList (d.digits.take d.magnitude.toNat) ++ "." ++
      String.ofList (d.digits.drop d.magnitude.toNat)

def mantissaText (digits : List Char) (exponent : Int) : String :=
  match digits with
  | [] => "0e0"
  | [d] => String.singleton d ++ "e" ++ toString exponent
  | d :: rest => String.ofList (d :: '.' :: rest) ++ "e" ++ toString exponent

def render (style : Style) (x : Float) : String :=
  match Parts.ofFloat x with
  | .nan => "NaN"
  | .infinite isNegative => sign isNegative ++ "inf"
  | .finite isNegative m q =>
    let d := shortest m q
    sign isNegative ++
      if m = 0 ∨ style.isPositional (d.magnitude - 1) then d.positional style.marksWhole
      else mantissaText d.digits (d.magnitude - 1)

def scientific (places : Nat) (x : Float) : String :=
  match Parts.ofFloat x with
  | .nan => "NaN"
  | .infinite isNegative => sign isNegative ++ "inf"
  | .finite isNegative m q =>
    let (c, p) := significant m q (places + 1)
    let digits := Nat.toDigits 10 c
    if m = 0 then sign isNegative ++ mantissaText (List.replicate (places + 1) '0') 0
    else sign isNegative ++ mantissaText digits (p + places)

def bracketed (texts : List String) : String := "[" ++ ", ".intercalate texts ++ "]"

/-! ## Written forms at the bounds -/

example : render marked 1e15 = "1000000000000000.0" := by decide +kernel

example : render marked 1e16 = "1e16" := by decide +kernel

example : render marked 0.0001 = "0.0001" := by decide +kernel

example : render marked 0.000015 = "1.5e-5" := by decide +kernel

example : render marked 1125899906842624.25 = "1125899906842624.3" := by decide +kernel

example : render plain 1e-7 = "0.0000001" := by decide +kernel

example : render plain (-0.0) = "-0" := by decide +kernel

example : scientific 6 0.5 = "5.000000e-1" := by decide +kernel

end TrustSimplex.Decimal
