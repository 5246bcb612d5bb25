import Lox.Decimal.Binary64

/-!
# Lox.Decimal.Shortest

The fewest decimal digits that read back to the same binary64 number. `shortest` tries the grids
`10 ^ p` from coarse to fine: the first grid on which one of the number's two neighbours reads back
gives the digits, the nearer neighbour where both do.
-/

namespace Lox

/-- The value `digits * 10 ^ exponent`. -/
structure Decimal where
  digits : Nat
  exponent : Int
  deriving DecidableEq, Repr, Inhabited

namespace Decimal

/-- A decimal as a quotient of naturals. -/
def ratio (d : Decimal) : Nat × Nat :=
  if 0 ≤ d.exponent then (d.digits * Nat.pow 10 d.exponent.toNat, 1)
  else (d.digits, Nat.pow 10 (-d.exponent).toNat)

/-- The ordinal of the binary64 number that a decimal is read as. -/
def toOrdinal (d : Decimal) : Nat := Binary64.nearest d.ratio.1 d.ratio.2

def readsBack (k : Nat) (d : Decimal) : Bool := d.toOrdinal == k

/-- Which of two equally near candidates is taken. -/
inductive Tie where
  | up
  | even
  deriving DecidableEq, Repr

def Tie.roundsUp : Tie → Nat → Bool
  | .up, _ => true
  | .even, low => low % 2 == 1

/-- The neighbour of `num / den` on the grid `10 ^ p` that reads back to `k`, if one does. -/
def onGrid (tie : Tie) (k num den : Nat) (p : Int) : Option Decimal :=
  let q :=
    if 0 ≤ p then (num, den * Nat.pow 10 p.toNat) else (num * Nat.pow 10 (-p).toNat, den)
  let low := q.1 / q.2
  let r := q.1 % q.2
  match readsBack k ⟨low, p⟩, readsBack k ⟨low + 1, p⟩ with
  | false, false => none
  | true, false => some ⟨low, p⟩
  | false, true => some ⟨low + 1, p⟩
  | true, true =>
    if 2 * r < q.2 then some ⟨low, p⟩
    else if q.2 < 2 * r then some ⟨low + 1, p⟩
    else if tie.roundsUp low then some ⟨low + 1, p⟩
    else some ⟨low, p⟩

/-- The first hit on the grids `10 ^ p`, `10 ^ (p - 1)`, and so on for `n` grids. -/
def search (tie : Tie) (k num den : Nat) : Nat → Int → Option Decimal
  | 0, _ => none
  | n + 1, p =>
    match onGrid tie k num den p with
    | some d => some d
    | none => search tie k num den n (p - 1)

/-- Every digit of the number; it has no rounding to undo. -/
def exact (k : Nat) : Decimal :=
  let m := Binary64.significand k
  let e := Binary64.exponent k
  if 0 ≤ e then ⟨m * Nat.pow 2 e.toNat, 0⟩ else ⟨m * Nat.pow 5 (-e).toNat, e⟩

/-- An exponent with `10 ^ p` above the number and at most two digits too large. -/
def startingGrid (k : Nat) : Int :=
  let bits : Int := (Binary64.significand k).log2 + Binary64.exponent k + 1
  bits * 30103 / 100000 + 1

/-- Seventeen digits are always enough, so the search never falls back on all the digits. -/
def shortest (tie : Tie) (k : Nat) : Decimal :=
  if k = 0 then ⟨0, 0⟩
  else
    let v := Binary64.ratio k
    (search tie k v.1 v.2 20 (startingGrid k)).getD (exact k)

end Decimal
end Lox
