import Lox.Decimal.Positional

/-!
# Lox.NumberText

The three ways in which Lox writes a number: as a printed value, as a literal in token listings and
trees, and in JSON. All three put a minus sign before whatever has its sign bit set, zero included.
-/

namespace Lox
namespace NumberText

/-- Printed values are plain integers below this bound. -/
def integerBound : Nat := 1000000000000000

/-- JSON numbers are positional while the exponent of the first digit lies in this range. -/
def jsonPositional (e : Int) : Bool := decide (-5 ≤ e ∧ e < 16)

/-- Puts the sign on the text of a magnitude. -/
def signed (x : Float) (magnitude : Nat → List Char) : String :=
  let k := Binary64.ordinal x
  let text := magnitude k
  String.ofList (if Binary64.signBit x then '-' :: text else text)

/-- `NaN` and `inf` for what is not finite, `finite` for the rest. -/
def withSpecials (x : Float) (finite : Nat → List Char) : String :=
  if Binary64.infinity < Binary64.ordinal x then "NaN"
  else signed x fun k => if k = Binary64.infinity then "inf".toList else finite k

/-- A printed value: an integer below `integerBound` is written as one, any other number with the
fewest digits that read back. -/
def value (x : Float) : String :=
  withSpecials x fun k =>
    if Binary64.isIntegral k && decide (Binary64.integerPart k < integerBound) then
      Decimal.digitChars (Binary64.integerPart k)
    else
      (Decimal.shortest .up k).positional

/-- A literal: an integer has all its digits and `.0`. -/
def literal (x : Float) : String :=
  withSpecials x fun k =>
    if Binary64.isIntegral k then
      Decimal.digitChars (Binary64.integerPart k) ++ ".0".toList
    else
      (Decimal.shortest .up k).positional

/-- The magnitude of a finite JSON number. -/
def jsonMagnitude (k : Nat) : List Char :=
  let d := Decimal.shortest .even k
  if jsonPositional d.leadingExponent then
    if 0 ≤ d.exponent then d.positional ++ ".0".toList else d.positional
  else d.scientific

/-- JSON has no infinities and no NaN. -/
def json (x : Float) : String :=
  if Binary64.infinity ≤ Binary64.ordinal x then "null"
  else signed x jsonMagnitude

end NumberText
end Lox
