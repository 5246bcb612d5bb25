import Lox.Error
import Lox.Program

/-!
# Lox.Program.Parse

From tokens to program trees, by recursive descent.

A parser either yields a value, or fails at the token in front of it; both ways it says what is left
and which complaints were made on the way. A failed declaration is skipped up to the next statement
boundary and replaced by a placeholder.

The productions leave open where references have their numbers from (`Parsing`). Here tokens are
stamped before they are parsed, and a reference takes the stamp of its own token as its identity;
in `Lox.Program.Count` the numbers are drawn from a counter.

Each production has a bound on its depth, computed from the number of tokens in front of it; a step
down takes one off.
-/

namespace Lox

/-- A token with the identity that a reference made from it gets. -/
structure Stamped where
  token : Token
  id : RefId

/-- Stamps consecutive tokens with consecutive numbers. -/
def Stamped.ofTokens : RefId → List Token → List Stamped
  | _, [] => []
  | n, t :: ts => ⟨t, n⟩ :: Stamped.ofTokens (n + 1) ts

/-- A problem and the place it was found at: what was left of the input there. -/
structure Complaint where
  problem : ParseProblem
  rest : List Stamped

inductive Parsed (α : Type) where
  | ok (value : α) (rest : List Stamped) (complaints : List Complaint)
  | fail (expected : Expected) (rest : List Stamped) (complaints : List Complaint)
  | outOfFuel

def Parser (α : Type) := List Stamped → Parsed α

namespace Parser

/-- Prepends earlier complaints. -/
def after {α : Type} (earlier : List Complaint) : Parsed α → Parsed α
  | .ok a rest later => .ok a rest (earlier ++ later)
  | .fail what rest later => .fail what rest (earlier ++ later)
  | .outOfFuel => .outOfFuel

def bind {α β : Type} (p : Parser α) (f : α → Parser β) : Parser β := fun input =>
  match p input with
  | .ok a rest complaints => after complaints (f a rest)
  | .fail what rest complaints => .fail what rest complaints
  | .outOfFuel => .outOfFuel

instance : Monad Parser where
  pure a := fun input => .ok a input []
  bind := bind

theorem pure_apply {α : Type} (a : α) (input : List Stamped) :
    (pure a : Parser α) input = .ok a input [] := rfl

theorem bind_apply {α β : Type} (p : Parser α) (f : α → Parser β) (input : List Stamped) :
    (p >>= f) input =
      match p input with
      | .ok a rest complaints => after complaints (f a rest)
      | .fail what rest complaints => .fail what rest complaints
      | .outOfFuel => .outOfFuel := rfl

/-! ## Single tokens -/

def exhausted {α : Type} : Parser α := fun _ => .outOfFuel

def fail {α : Type} (what : Expected) : Parser α := fun input => .fail what input []

/-- What is left of the input. -/
def remaining : Parser (List Stamped) := fun input => .ok input input []

def complainAt (place : List Stamped) (problem : ParseProblem) : Parser Unit := fun input =>
  .ok () input [⟨problem, place⟩]

/-- Complains at the next token if something is wrong, and goes on. -/
def complainIf (wrong : Bool) (problem : ParseProblem) : Parser Unit := fun input =>
  .ok () input (if wrong then [⟨problem, input⟩] else [])

/-- Whether the next token is of some kind; at the end of the input it is of none. -/
def ahead (kind : TokenKind) : Parser Bool := fun input =>
  match input with
  | t :: _ => .ok (t.token.kind == kind) input []
  | [] => .ok false input []

def atEnd : Parser Bool := fun input => .ok input.isEmpty input []

/-- Whether nothing more can stand in a braced body. -/
def atBodyEnd : Parser Bool := fun input =>
  match input with
  | t :: _ => .ok (t.token.kind == .rightBrace) input []
  | [] => .ok true input []

/-- Takes the next token if it is of one of some kinds. -/
def acceptAny (kinds : List TokenKind) : Parser (Option Stamped) := fun input =>
  match input with
  | t :: rest => if kinds.contains t.token.kind then .ok (some t) rest [] else .ok none input []
  | [] => .ok none [] []

def accept (kind : TokenKind) : Parser (Option Stamped) := acceptAny [kind]

/-- Takes the next token, which must be of some kind. -/
def expect (kind : TokenKind) (what : Expected) : Parser Stamped := fun input =>
  match input with
  | t :: rest => if t.token.kind = kind then .ok t rest [] else .fail what input []
  | [] => .fail what [] []

/-- Drops tokens until a statement may begin: after a semicolon, or before a keyword that starts a
declaration or statement. The first token is dropped whatever it is. -/
def synchronize : List Stamped → List Stamped
  | [] => []
  | [_] => []
  | t :: u :: rest =>
    if t.token.kind = .semicolon then u :: rest
    else if [.kwClass, .kwFun, .kwVar, .kwFor, .kwIf, .kwWhile, .kwReturn].contains u.token.kind then
      u :: rest
    else synchronize (u :: rest)

/-- A failure becomes a complaint and a placeholder. -/
def recover (p : Parser Stmt) : Parser Stmt := fun input =>
  match p input with
  | .ok s rest complaints => .ok s rest complaints
  | .fail what rest complaints =>
    .ok .placeholder (synchronize rest) (complaints ++ [⟨.expected what, rest⟩])
  | .outOfFuel => .outOfFuel

end Parser

/-- The most parameters or arguments there may be. -/
def maxArity : Nat := 255

namespace Parser

def parameterListIn : Nat → Nat → Parser (List Token)
  | 0, _ => exhausted
  | n + 1, index => do
    complainIf (maxArity ≤ index) .tooManyParameters
    let param ← expect .identifier .parameterName
    match ← accept .comma with
    | none => pure [param.token]
    | some _ =>
      let more ← parameterListIn n (index + 1)
      pure (param.token :: more)

def parameters : Parser (List Token) := fun input =>
  (do
    if ← ahead .rightParen then pure []
    else parameterListIn (input.length + 1) 0 : Parser (List Token)) input

/-- A depth that no expression over so many tokens reaches. -/
def expressionFuel (tokens : Nat) : Nat := 20 * (tokens + 1)

/-- A depth that no declaration over so many tokens reaches. -/
def declarationFuel (tokens : Nat) : Nat := 10 * (tokens + 1)

end Parser

/-! ## What productions are written in -/

/-- A parser of tokens that also makes references. Which number a reference gets is left open. -/
class Parsing (m : Type → Type) extends Monad m, MonadLift Parser m where
  /-- Makes a reference at a token with this stamp. -/
  reference {α : Type} : RefId → (RefId → α) → m α
  /-- Looks at how many tokens are left. -/
  sized {α : Type} : (Nat → m α) → m α
  /-- Turns a failure into a complaint and a placeholder. -/
  recover : m Stmt → m Stmt

/-- A reference takes the stamp of its token. -/
instance : Parsing Parser where
  monadLift p := p
  reference stamp make := pure (make stamp)
  sized f := fun input => f input.length input
  recover := Parser.recover

/-! ## Expressions -/

/-- The left-associative operators, by how tightly they bind. -/
inductive Level where
  | or
  | and
  | equality
  | comparison
  | term
  | factor
  deriving DecidableEq, Repr

namespace Level

def operators : Level → List TokenKind
  | or => [.kwOr]
  | and => [.kwAnd]
  | equality => [.bangEqual, .equalEqual]
  | comparison => [.greater, .greaterEqual, .less, .lessEqual]
  | term => [.minus, .plus]
  | factor => [.slash, .star]

/-- The level of the operands; those of a factor are unary expressions. -/
def tighter : Level → Option Level
  | or => some and
  | and => some equality
  | equality => some comparison
  | comparison => some term
  | term => some factor
  | factor => none

/-- Only the two loosest levels may skip their right operand. -/
def combine (level : Level) (left : Expr) (operator : Token) (right : Expr) : Expr :=
  match level with
  | or | and => .logical left operator right
  | _ => .binary left operator right

end Level

/-- The constant of a number or string token; a token without a literal stands for nil. -/
def Constant.ofToken (t : Token) : Constant :=
  match t.literal with
  | some (.number x) => .number x
  | some (.string s) => .string s
  | none => .nil

namespace Production

open Parser
open Parsing (reference sized recover)

variable {m : Type → Type} [Parsing m]

mutual

def expressionIn : Nat → m Expr
  | 0 => exhausted
  | n + 1 => do
    let target ← levelIn n .or
    let here ← remaining
    match ← accept .equal with
    | none => pure target
    | some _ =>
      let value ← expressionIn n
      match target with
      | .var id name => reference id fun id => .assign id name value
      | .get object name => pure (.set object name value)
      | other =>
        complainAt here .invalidAssignmentTarget
        pure other

/-- `operand (operator operand)*` -/
def levelIn : Nat → Level → m Expr
  | 0, _ => exhausted
  | n + 1, level => do
    let left ← operandIn n level
    chainIn n level left

def operandIn : Nat → Level → m Expr
  | 0, _ => exhausted
  | n + 1, level =>
    match level.tighter with
    | some tighter => levelIn n tighter
    | none => unaryIn n

def chainIn : Nat → Level → Expr → m Expr
  | 0, _, _ => exhausted
  | n + 1, level, left => do
    match ← acceptAny level.operators with
    | none => pure left
    | some operator =>
      let right ← operandIn n level
      chainIn n level (level.combine left operator.token right)

def unaryIn : Nat → m Expr
  | 0 => exhausted
  | n + 1 => do
    match ← acceptAny [.bang, .minus] with
    | some operator =>
      let operand ← unaryIn n
      pure (.unary operator.token operand)
    | none =>
      let e ← primaryIn n
      suffixesIn n e

/-- Calls and property accesses after an expression. -/
def suffixesIn : Nat → Expr → m Expr
  | 0, _ => exhausted
  | n + 1, e => do
    match ← accept .leftParen with
    | some _ =>
      let args ← argumentsIn n
      let paren ← expect .rightParen .argumentsEnd
      suffixesIn n (.call e paren.token args)
    | none =>
      match ← accept .dot with
      | some _ =>
        let name ← expect .identifier .propertyName
        suffixesIn n (.get e name.token)
      | none => pure e

def argumentsIn : Nat → m (List Expr)
  | 0 => exhausted
  | n + 1 => do
    if ← ahead .rightParen then pure []
    else argumentListIn n 0

/-- Arguments from the one with the given index on. -/
def argumentListIn : Nat → Nat → m (List Expr)
  | 0, _ => exhausted
  | n + 1, index => do
    complainIf (maxArity ≤ index) .tooManyArguments
    let arg ← expressionIn n
    match ← accept .comma with
    | none => pure [arg]
    | some _ =>
      let more ← argumentListIn n (index + 1)
      pure (arg :: more)

def primaryIn : Nat → m Expr
  | 0 => exhausted
  | n + 1 => do
    match ← acceptAny [.kwFalse, .kwTrue, .kwNil, .number, .string, .kwSuper, .kwThis, .identifier,
        .leftParen] with
    | none => fail .expression
    | some t =>
      match t.token.kind with
      | .kwFalse => pure (.constant (.bool false))
      | .kwTrue => pure (.constant (.bool true))
      | .kwNil => pure (.constant .nil)
      | .kwSuper =>
        let _ ← expect .dot .superDot
        let method ← expect .identifier .superMethodName
        reference t.id fun id => .superRef id t.token method.token
      | .kwThis => reference t.id fun id => .thisRef id t.token
      | .identifier => reference t.id fun id => .var id t.token
      | .leftParen =>
        let inner ← expressionIn n
        let _ ← expect .rightParen .groupingEnd
        pure (.grouping inner)
      | _ => pure (.constant (.ofToken t.token))

end

def expression : m Expr := sized fun size => expressionIn (expressionFuel size)

/-! ## Statements -/

def varDeclaration : m Stmt := do
  let name ← expect .identifier .variableName
  match ← accept .equal with
  | some _ =>
    let init ← expression
    let _ ← expect .semicolon .varEnd
    pure (.var name.token (some init))
  | none =>
    let _ ← expect .semicolon .varEnd
    pure (.var name.token none)

def expressionStatement : m Stmt := do
  let e ← expression
  let _ ← expect .semicolon .expressionEnd
  pure (.expression e)

def returnStatement (keyword : Token) : m Stmt := do
  if ← ahead .semicolon then
    let _ ← expect .semicolon .returnEnd
    pure (.ret keyword none)
  else
    let value ← expression
    let _ ← expect .semicolon .returnEnd
    pure (.ret keyword (some value))

/-- An expression, unless the token that would follow it is already there. -/
def optionalExpression (stop : TokenKind) : m (Option Expr) := do
  if ← ahead stop then pure none
  else
    let e ← expression
    pure (some e)

/-- The first clause of a `for` with its semicolon. -/
def forInitializer : m (Option Stmt) := do
  match ← accept .semicolon with
  | some _ => pure none
  | none =>
    match ← accept .kwVar with
    | some _ =>
      let s ← varDeclaration
      pure (some s)
    | none =>
      let s ← expressionStatement
      pure (some s)

def superclassClause : m (Option Expr) := do
  match ← accept .less with
  | none => pure none
  | some _ =>
    let name ← expect .identifier .superclassName
    reference name.id fun id => some (.var id name.token)

end Production

/-- A `for` statement is a loop: the increment runs after the body, the initializer before the loop,
both in blocks of their own; without a condition the loop goes on. -/
def Stmt.ofFor (init : Option Stmt) (condition increment : Option Expr) (body : Stmt) : Stmt :=
  let body :=
    match increment with
    | none => body
    | some e => .block [body, .expression e]
  let loop := Stmt.loop (condition.getD (.constant (.bool true))) body
  match init with
  | none => loop
  | some s => .block [s, loop]

namespace Production

open Parser
open Parsing (reference sized recover)

variable {m : Type → Type} [Parsing m]

mutual

/-- A declaration that recovers from failure. -/
def declarationIn : Nat → m Stmt
  | 0 => exhausted
  | n + 1 => recover (bareDeclarationIn n)

def bareDeclarationIn : Nat → m Stmt
  | 0 => exhausted
  | n + 1 => do
    match ← acceptAny [.kwClass, .kwFun, .kwVar] with
    | none => statementIn n
    | some t =>
      match t.token.kind with
      | .kwClass => classIn n
      | .kwFun =>
        let decl ← functionIn n .function
        pure (.function decl)
      | _ => varDeclaration

def classIn : Nat → m Stmt
  | 0 => exhausted
  | n + 1 => do
    let name ← expect .identifier .className
    let superclass ← superclassClause
    let _ ← expect .leftBrace .classBody
    let methods ← methodsIn n
    let _ ← expect .rightBrace .classEnd
    pure (.cls name.token superclass methods)

def methodsIn : Nat → m (List FunctionDecl)
  | 0 => exhausted
  | n + 1 => do
    if ← atBodyEnd then pure []
    else
      let method ← functionIn n .method
      let more ← methodsIn n
      pure (method :: more)

def functionIn : Nat → FunctionKind → m FunctionDecl
  | 0, _ => exhausted
  | n + 1, kind => do
    let name ← expect .identifier (.functionName kind)
    let _ ← expect .leftParen (.parameterList kind)
    let params ← parameters
    let _ ← expect .rightParen .parametersEnd
    let _ ← expect .leftBrace (.functionBody kind)
    let body ← blockIn n
    pure { name := name.token, params := params, body := body }

/-- The declarations of a block and its closing brace. -/
def blockIn : Nat → m (List Stmt)
  | 0 => exhausted
  | n + 1 => do
    let body ← declarationsIn n
    let _ ← expect .rightBrace .blockEnd
    pure body

def declarationsIn : Nat → m (List Stmt)
  | 0 => exhausted
  | n + 1 => do
    if ← atBodyEnd then pure []
    else
      let first ← declarationIn n
      let more ← declarationsIn n
      pure (first :: more)

def statementIn : Nat → m Stmt
  | 0 => exhausted
  | n + 1 => do
    match ← acceptAny [.kwFor, .kwIf, .kwWhile, .kwReturn, .leftBrace] with
    | none => expressionStatement
    | some t =>
      match t.token.kind with
      | .kwFor => forIn n
      | .kwIf => ifIn n
      | .kwWhile => whileIn n
      | .kwReturn => returnStatement t.token
      | _ =>
        let body ← blockIn n
        pure (.block body)

def forIn : Nat → m Stmt
  | 0 => exhausted
  | n + 1 => do
    let _ ← expect .leftParen .forClauses
    let init ← forInitializer
    let condition ← optionalExpression .semicolon
    let _ ← expect .semicolon .loopConditionEnd
    let increment ← optionalExpression .rightParen
    let _ ← expect .rightParen .forClausesEnd
    let body ← statementIn n
    pure (.ofFor init condition increment body)

/-- The innermost `if` claims an `else`. -/
def ifIn : Nat → m Stmt
  | 0 => exhausted
  | n + 1 => do
    let _ ← expect .leftParen .ifCondition
    let condition ← expression
    let _ ← expect .rightParen .ifConditionEnd
    let yes ← statementIn n
    match ← accept .kwElse with
    | none => pure (.ifThen condition yes)
    | some _ =>
      let no ← statementIn n
      pure (.ifElse condition yes no)

def whileIn : Nat → m Stmt
  | 0 => exhausted
  | n + 1 => do
    let _ ← expect .leftParen .whileCondition
    let condition ← expression
    let _ ← expect .rightParen .whileConditionEnd
    let body ← statementIn n
    pure (.loop condition body)

end

def declaration : m Stmt := sized fun size => declarationIn (declarationFuel size)

/-- Declarations up to the end of the input; a stray closing brace does not stop them. -/
def programIn : Nat → m (List Stmt)
  | 0 => exhausted
  | n + 1 => do
    if ← atEnd then pure []
    else
      let first ← declaration
      let more ← programIn n
      pure (first :: more)

def program : m (List Stmt) := sized fun size => programIn (size + 1)

end Production

/-! ## Numbers from stamps -/

namespace Parser

abbrev expressionIn : Nat → Parser Expr := Production.expressionIn
abbrev levelIn : Nat → Level → Parser Expr := Production.levelIn
abbrev operandIn : Nat → Level → Parser Expr := Production.operandIn
abbrev chainIn : Nat → Level → Expr → Parser Expr := Production.chainIn
abbrev unaryIn : Nat → Parser Expr := Production.unaryIn
abbrev suffixesIn : Nat → Expr → Parser Expr := Production.suffixesIn
abbrev argumentsIn : Nat → Parser (List Expr) := Production.argumentsIn
abbrev argumentListIn : Nat → Nat → Parser (List Expr) := Production.argumentListIn
abbrev primaryIn : Nat → Parser Expr := Production.primaryIn
abbrev expression : Parser Expr := Production.expression
abbrev varDeclaration : Parser Stmt := Production.varDeclaration
abbrev expressionStatement : Parser Stmt := Production.expressionStatement
abbrev returnStatement : Token → Parser Stmt := Production.returnStatement
abbrev optionalExpression : TokenKind → Parser (Option Expr) := Production.optionalExpression
abbrev forInitializer : Parser (Option Stmt) := Production.forInitializer
abbrev superclassClause : Parser (Option Expr) := Production.superclassClause
abbrev declarationIn : Nat → Parser Stmt := Production.declarationIn
abbrev bareDeclarationIn : Nat → Parser Stmt := Production.bareDeclarationIn
abbrev classIn : Nat → Parser Stmt := Production.classIn
abbrev methodsIn : Nat → Parser (List FunctionDecl) := Production.methodsIn
abbrev functionIn : Nat → FunctionKind → Parser FunctionDecl := Production.functionIn
abbrev blockIn : Nat → Parser (List Stmt) := Production.blockIn
abbrev declarationsIn : Nat → Parser (List Stmt) := Production.declarationsIn
abbrev statementIn : Nat → Parser Stmt := Production.statementIn
abbrev forIn : Nat → Parser Stmt := Production.forIn
abbrev ifIn : Nat → Parser Stmt := Production.ifIn
abbrev whileIn : Nat → Parser Stmt := Production.whileIn
abbrev declaration : Parser Stmt := Production.declaration
abbrev programIn : Nat → Parser (List Stmt) := Production.programIn
abbrev program : Parser (List Stmt) := Production.program

/-- A parser of tokens is taken as it is. -/
theorem liftM_eq {α : Type} (p : Parser α) :
    @liftM Parser Parser (@instMonadLiftTOfMonadLift Parser Parser Parser Parsing.toMonadLift
      (instMonadLiftT Parser)) α p = p := rfl

theorem reference_eq {α : Type} (stamp : RefId) (make : RefId → α) :
    (Parsing.reference stamp make : Parser α) = pure (make stamp) := rfl

theorem expression_apply (input : List Stamped) :
    expression input = expressionIn (expressionFuel input.length) input := rfl

theorem declaration_apply (input : List Stamped) :
    declaration input = declarationIn (declarationFuel input.length) input := rfl

theorem declarationIn_succ (n : Nat) : declarationIn (n + 1) = recover (bareDeclarationIn n) := rfl

end Parser

/-! ## Programs -/

/-- The tokens before the first end-of-input token. -/
def Token.body (tokens : List Token) : List Token := tokens.takeWhile fun t => t.kind != .eof

/-- The first end-of-input token; where there is none, one on the line of the last token. -/
def Token.endOf (tokens : List Token) : Token :=
  match tokens.find? fun t => t.kind == .eof with
  | some t => t
  | none => .endOfInput ((tokens.getLast?.map Token.line).getD 1)

/-- The error of a complaint: it blames the token it was made at. -/
def Complaint.toError (last : Token) (c : Complaint) : Error :=
  match c.rest with
  | t :: _ => .parse t.token c.problem
  | [] => .parse last c.problem

/-- A parse of a token list, references numbered from `first` on. -/
structure Parse where
  statements : List Stmt
  complaints : List Complaint
  last : Token

def Parse.ofTokens (first : RefId) (tokens : List Token) : Parse :=
  match Parser.program (Stamped.ofTokens first (Token.body tokens)) with
  | .ok statements _ complaints =>
    { statements := statements, complaints := complaints, last := Token.endOf tokens }
  | .fail _ _ complaints =>
    { statements := [], complaints := complaints, last := Token.endOf tokens }
  | .outOfFuel => { statements := [], complaints := [], last := Token.endOf tokens }

/-- The errors of a parse in the order in which they were found. -/
def Parse.errors (p : Parse) : List Error := p.complaints.map (Complaint.toError p.last)

/-- The first reference number that a parse of these tokens leaves free. -/
def Parse.nextId (first : RefId) (tokens : List Token) : RefId := first + tokens.length

end Lox
