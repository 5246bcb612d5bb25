import Lox.Program.Parse

/-!
# Lox.Program.Count

References numbered by a counter. Each draws its number when it is made: a name after its token, an
assignment after its value, in place of the number that its target had drawn as a name. The counter
is never set back, neither where a declaration fails nor between one parse and the next.

But for the numbers of their references the trees are those of `Parse.ofTokens`
(`Parse.counted_renames`), and whoever runs them sees no difference (`Session.reportsCounted_eq`).
-/

namespace Lox

/-- A parser with a counter: the next number to be drawn goes in, and comes out however it ends. -/
def Counting (α : Type) := RefId → List Stamped → Parsed α × RefId

namespace Counting

def bind {α β : Type} (p : Counting α) (f : α → Counting β) : Counting β := fun next input =>
  match p next input with
  | (.ok a rest complaints, next) =>
    let r := f a next rest
    (Parser.after complaints r.1, r.2)
  | (.fail what rest complaints, next) => (.fail what rest complaints, next)
  | (.outOfFuel, next) => (.outOfFuel, next)

instance : Monad Counting where
  pure a := fun next input => (.ok a input [], next)
  bind := bind

/-- Draws a number. -/
def fresh : Counting RefId := fun next input => (.ok next input [], next + 1)

/-- What was drawn before a failure stays drawn. -/
def recover (p : Counting Stmt) : Counting Stmt := fun next input =>
  (Parser.recover (fun input => (p next input).1) input, (p next input).2)

end Counting

/-- A reference draws its number; the stamp of its token is not looked at. -/
instance : Parsing Counting where
  monadLift p := fun next input => (p input, next)
  reference _ make := do
    let id ← Counting.fresh
    pure (make id)
  sized f := fun next input => f input.length next input
  recover := Counting.recover

namespace Parse

/-- A parse with its numbers from a counter, and where the counter then stands. -/
def counted (first : RefId) (tokens : List Token) : Parse × RefId :=
  let program : Counting (List Stmt) := Production.program
  match program first (Stamped.ofTokens first (Token.body tokens)) with
  | (.ok statements _ complaints, next) =>
    ({ statements := statements, complaints := complaints, last := Token.endOf tokens }, next)
  | (.fail _ _ complaints, next) =>
    ({ statements := [], complaints := complaints, last := Token.endOf tokens }, next)
  | (.outOfFuel, next) =>
    ({ statements := [], complaints := [], last := Token.endOf tokens }, next)

/-- The parses of some token lists one after the other, by one counter. -/
def sequence (first : RefId) : List (List Token) → List Parse
  | [] => []
  | tokens :: later => (counted first tokens).1 :: sequence (counted first tokens).2 later

end Parse
end Lox
