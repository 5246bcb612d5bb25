/-!
# Lox.Decimal.Binary64

Binary64 numbers as exact rationals. Below its sign bit the bit pattern of a finite number is an
*ordinal*: ordinals grow with the magnitude, and the ordinal `k` stands for
`significand k * 2 ^ exponent k`. `nearest` goes the other way, from a quotient of naturals to the
closest ordinal, a tie going to the even one.
-/

namespace Lox
namespace Binary64

/-- The significand of the powers of two, `2 ^ 52`, which is also the smallest normal ordinal. -/
def normalStart : Nat := 4503599627370496

/-- The weight of the sign bit, `2 ^ 63`. -/
def signWeight : Nat := 9223372036854775808

/-- The ordinal of infinity; every smaller ordinal is finite, every larger one is not a number. -/
def infinity : Nat := 2047 * normalStart

/-- The smallest exponent, that of the subnormal numbers. -/
def minExponent : Int := -1074

def significand (k : Nat) : Nat :=
  if k < normalStart then k else normalStart + k % normalStart

def exponent (k : Nat) : Int :=
  if k < normalStart then minExponent else minExponent + (k / normalStart - 1 : Nat)

/-- `m * 2 ^ e` as a quotient of naturals. -/
def scaled (m : Nat) (e : Int) : Nat × Nat :=
  if 0 ≤ e then (m * Nat.pow 2 e.toNat, 1) else (m, Nat.pow 2 (-e).toNat)

/-- The value of a finite ordinal as a quotient of naturals. -/
def ratio (k : Nat) : Nat × Nat := scaled (significand k) (exponent k)

/-- The natural nearest to `num / den`, a tie going to the even one. -/
def roundDiv (num den : Nat) : Nat :=
  let m := num / den
  let r := num % den
  if den < 2 * r ∨ (2 * r = den ∧ m % 2 = 1) then m + 1 else m

/-- `num / den / 2 ^ e`, again as a quotient of naturals. -/
def unscale (num den : Nat) (e : Int) : Nat × Nat :=
  if 0 ≤ e then (num, den * Nat.pow 2 e.toNat) else (num * Nat.pow 2 (-e).toNat, den)

/-- The exponent that leaves 53 significant bits of `num / den`, or the smallest one there is. -/
def fittingExponent (num den : Nat) : Int :=
  let e : Int := (num.log2 : Int) - den.log2 - 53
  let scaledUp := unscale num den (e + 53)
  max minExponent (if scaledUp.2 ≤ scaledUp.1 then e + 1 else e)

/-- The ordinal nearest to `num / den`. Rounding up to a power of two carries into the exponent. -/
def nearest (num den : Nat) : Nat :=
  if num = 0 then 0
  else
    let e := fittingExponent num den
    let q := unscale num den e
    min infinity ((e - minExponent).toNat * normalStart + roundDiv q.1 q.2)

/-- The ordinal of a number's magnitude. -/
def ordinal (x : Float) : Nat := x.toBits.toNat % signWeight

/-- The sign bit, which zero and infinity have too. -/
def signBit (x : Float) : Bool := decide (signWeight ≤ x.toBits.toNat)

/-- The positive number with a given ordinal. -/
def ofOrdinal (k : Nat) : Float := Float.ofBits (UInt64.ofNat k)

/-- Whether a finite ordinal stands for an integer. -/
def isIntegral (k : Nat) : Bool := (ratio k).1 % (ratio k).2 == 0

/-- The integer part of a finite ordinal's value. -/
def integerPart (k : Nat) : Nat := (ratio k).1 / (ratio k).2

end Binary64
end Lox
