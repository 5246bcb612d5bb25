import Lox.Decimal.Shortest

/-!
# Lox.Decimal.Positional

Decimals written with digits and a point, never with an exponent.
-/

namespace Lox
namespace Decimal

def digitChars (n : Nat) : List Char := Nat.toDigits 10 n

/-- All digits in place: zeros fill the gap up to or after the point. -/
def positional (d : Decimal) : List Char :=
  let ds := digitChars d.digits
  if 0 ≤ d.exponent then ds ++ List.replicate d.exponent.toNat '0'
  else
    let places := (-d.exponent).toNat
    if places < ds.length then
      ds.take (ds.length - places) ++ '.' :: ds.drop (ds.length - places)
    else
      '0' :: '.' :: (List.replicate (places - ds.length) '0' ++ ds)

/-- The exponent of the first digit. -/
def leadingExponent (d : Decimal) : Int :=
  d.exponent + (digitChars d.digits).length - 1

/-- One digit, the others after a point, and the power of ten with its sign. -/
def scientific (d : Decimal) : List Char :=
  let e := d.leadingExponent
  let mantissa :=
    match digitChars d.digits with
    | [] => []
    | [c] => [c]
    | c :: cs => c :: '.' :: cs
  mantissa ++ 'e' :: (if 0 ≤ e then '+' else '-') :: digitChars e.natAbs

end Decimal
end Lox
