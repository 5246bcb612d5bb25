import Lox.Program.Parse

/-!
# Lox.Program.Steps

What a parser does on its way to a result. It stands at a token, and looks at it, goes on to the
next one, looks back, or blames the token that it stands at for a failure (`Action`). That a parser
takes certain steps on an input and comes to a result is a relation beside the parser (`Performs`),
with one rule for each way in which parsers are made.

A step says where it is taken by what is left of the input there. In the vector of all tokens, which
an end of input closes (`Token.closed`), that is a position (`Step.position`).
-/

namespace Lox
namespace Parser

inductive Action where
  /-- Looks at the token that the parser stands at; asking for several kinds is one look. -/
  | peek
  /-- Goes on to the next token. -/
  | advance
  /-- Looks back at the token before. -/
  | previous
  /-- Fails because of the token that the parser stands at. -/
  | blame (what : Expected)

/-- What is done, and what is left of the input when it is done. -/
structure Step where
  action : Action
  left : List Stamped

namespace Step

/-- Where a step is taken, if `finish` is where the input ends. -/
def position (finish : Nat) (s : Step) : Nat := finish - s.left.length

/-- The index of the token that is looked at; looking back from the first token is looking at it. -/
def index (finish : Nat) (s : Step) : Nat :=
  match s.action with
  | .previous => s.position finish - 1
  | .peek | .advance | .blame _ => s.position finish

/-- What was expected in vain, and where. -/
def blame? (s : Step) : Option (Expected × List Stamped) :=
  match s.action with
  | .blame what => some (what, s.left)
  | .peek | .advance | .previous => none

end Step

/-- Each step is taken where the one before it has left off: `Walks here steps there`. -/
inductive Walks : List Stamped → List Step → List Stamped → Prop
  | done (here : List Stamped) : Walks here [] here
  | stay {action : Action} {here there : List Stamped} {steps : List Step}
      (haction : action ≠ .advance) (h : Walks here steps there) :
    Walks here (⟨action, here⟩ :: steps) there
  | advance {t : Stamped} {here there : List Stamped} {steps : List Step}
      (h : Walks here steps there) : Walks (t :: here) (⟨.advance, t :: here⟩ :: steps) there

/-- What was expected in vain on the way, and at which positions. -/
def failures (finish : Nat) (steps : List Step) : List (Expected × Nat) :=
  (steps.filterMap Step.blame?).map fun b => (b.1, finish - b.2.length)

/-- The steps of taking a token. -/
def taking (t : Stamped) (rest : List Stamped) : List Step :=
  [⟨.peek, t :: rest⟩, ⟨.advance, t :: rest⟩, ⟨.previous, rest⟩]

/-- The steps of skipping to the next boundary. -/
def skipping : List Stamped → List Step
  | [] => [⟨.peek, []⟩, ⟨.previous, []⟩, ⟨.peek, []⟩]
  | [t] => taking t [] ++ [⟨.peek, []⟩]
  | t :: u :: rest =>
    taking t (u :: rest) ++ ⟨.peek, u :: rest⟩ ::
      if t.token.kind = .semicolon then []
      else if [.kwClass, .kwFun, .kwVar, .kwFor, .kwIf, .kwWhile, .kwReturn].contains
        u.token.kind then []
      else skipping (u :: rest)

/-- `Performs p input steps r`: on `input`, the parser `p` takes these steps and comes to `r`. -/
inductive Performs : {α : Type} → Parser α → List Stamped → List Step → Parsed α → Prop
  | ret {α : Type} (a : α) (input : List Stamped) : Performs (pure a) input [] (.ok a input [])
  | remaining (input : List Stamped) : Performs remaining input [] (.ok input input [])
  | fail {α : Type} (what : Expected) (input : List Stamped) :
    Performs (fail what : Parser α) input [⟨.blame what, input⟩] (.fail what input [])
  | complainAt (place : List Stamped) {problem : ParseProblem} (input : List Stamped)
      (hproblem : ∀ what, problem ≠ .expected what) :
    Performs (complainAt place problem) input [] (.ok () input [⟨problem, place⟩])
  | complainIf (wrong : Bool) {problem : ParseProblem} (input : List Stamped)
      (hproblem : ∀ what, problem ≠ .expected what) :
    Performs (complainIf wrong problem) input (if wrong then [⟨.peek, input⟩] else [])
      (.ok () input (if wrong then [⟨problem, input⟩] else []))
  | ahead (kind : TokenKind) (input : List Stamped) :
    Performs (ahead kind) input [⟨.peek, input⟩] (ahead kind input)
  | atEnd (input : List Stamped) : Performs atEnd input [⟨.peek, input⟩] (atEnd input)
  | atBodyEnd (input : List Stamped) :
    Performs atBodyEnd input [⟨.peek, input⟩] (atBodyEnd input)
  | accepted {kinds : List TokenKind} {t : Stamped} (rest : List Stamped)
      (h : t.token.kind ∈ kinds) :
    Performs (acceptAny kinds) (t :: rest) (taking t rest) (.ok (some t) rest [])
  | notAccepted {kinds : List TokenKind} {input : List Stamped}
      (h : ∀ t ∈ input.head?, t.token.kind ∉ kinds) :
    Performs (acceptAny kinds) input [⟨.peek, input⟩] (.ok none input [])
  | found {t : Stamped} (what : Expected) (rest : List Stamped) :
    Performs (expect t.token.kind what) (t :: rest) (taking t rest) (.ok t rest [])
  | notFound {kind : TokenKind} (what : Expected) {input : List Stamped}
      (h : ∀ t ∈ input.head?, t.token.kind ≠ kind) :
    Performs (expect kind what) input [⟨.peek, input⟩, ⟨.blame what, input⟩] (.fail what input [])
  | next {α β : Type} {p : Parser α} {f : α → Parser β} {input mid : List Stamped}
      {steps more : List Step} {a : α} {complaints : List Complaint} {r : Parsed β}
      (hp : Performs p input steps (.ok a mid complaints)) (hf : Performs (f a) mid more r) :
    Performs (p >>= f) input (steps ++ more) (after complaints r)
  | unwind {α β : Type} {p : Parser α} {f : α → Parser β} {input rest : List Stamped}
      {steps : List Step} {what : Expected} {complaints : List Complaint}
      (hp : Performs p input steps (.fail what rest complaints)) :
    Performs (p >>= f) input steps (.fail what rest complaints)
  | kept {p : Parser Stmt} {input rest : List Stamped} {steps : List Step} {s : Stmt}
      {complaints : List Complaint} (hp : Performs p input steps (.ok s rest complaints)) :
    Performs (recover p) input steps (.ok s rest complaints)
  | recovered {p : Parser Stmt} {input rest : List Stamped} {steps : List Step} {what : Expected}
      {complaints : List Complaint} (hp : Performs p input steps (.fail what rest complaints)) :
    Performs (recover p) input (steps ++ skipping rest)
      (.ok .placeholder (synchronize rest) (complaints ++ [⟨.expected what, rest⟩]))
  /-- A bound on the depth that depends on the input takes no steps to find. -/
  | sized {α : Type} {p : Nat → Parser α} {input : List Stamped} {steps : List Step} {r : Parsed α}
      (hp : Performs (p input.length) input steps r) :
    Performs (fun input => p input.length input) input steps r

end Parser

/-- An error by which productions are left until a declaration recovers. -/
def Error.unwinds : Error → Bool
  | .parse _ (.expected _) => true
  | _ => false

/-- The vector of all tokens, with an end of input behind them if they do not end in one. -/
def Token.closed (tokens : List Token) : List Token :=
  match tokens.getLast? with
  | none => [.endOfInput 1]
  | some t => if t.kind = .eof then tokens else tokens ++ [.endOfInput t.line]

end Lox
