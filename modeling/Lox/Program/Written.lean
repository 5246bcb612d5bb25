import Lox.Program.Parse
import Mathlib.Data.List.Forall2

/-!
# Lox.Program.Written

Trees written out in source order, and which trees can be written at all.

A tree records its names, operators and keywords, but not its punctuation, and of a constant only
the value. So it is written as a list of marks, and tokens are a writing of it when each fits its
mark. A tree is stratified when every operand binds as tightly as its place asks for: a looser
expression stands there only in parentheses.
-/

namespace Lox

/-! ## Marks -/

/-- A tree says which token stands somewhere, or of which kind it is, or which constant it spells. -/
inductive Mark where
  | exactly (t : Token)
  | any (kind : TokenKind)
  | constant (c : Constant)

def Constant.SpelledBy : Constant → Token → Prop
  | .number x, t => t.kind = .number ∧ t.literal = some (.number x)
  | .string s, t => t.kind = .string ∧ t.literal = some (.string s)
  | .bool true, t => t.kind = .kwTrue
  | .bool false, t => t.kind = .kwFalse
  | .nil, t => t.kind = .kwNil

def Mark.Fits : Mark → Token → Prop
  | .exactly t, u => u = t
  | .any kind, u => u.kind = kind
  | .constant c, u => c.SpelledBy u

/-- `ts` is a writing of `marks`. -/
def Writes (marks : List Mark) (ts : List Token) : Prop := List.Forall₂ Mark.Fits marks ts

open Mark TokenKind

mutual

def Expr.marks : Expr → List Mark
  | .constant c => [.constant c]
  | .grouping e => any leftParen :: (e.marks ++ [any rightParen])
  | .unary operator e => exactly operator :: e.marks
  | .binary l operator r | .logical l operator r => l.marks ++ exactly operator :: r.marks
  | .var _ name => [exactly name]
  | .assign _ name value => exactly name :: any equal :: value.marks
  | .call callee paren args =>
    callee.marks ++ any leftParen :: (Expr.marksOfArguments args ++ [exactly paren])
  | .get object name => object.marks ++ [any dot, exactly name]
  | .set object name value =>
    object.marks ++ any dot :: exactly name :: any equal :: value.marks
  | .thisRef _ keyword => [exactly keyword]
  | .superRef _ keyword method => [exactly keyword, any dot, exactly method]
  | .unparsed => []

/-- Arguments with commas between them. -/
def Expr.marksOfArguments : List Expr → List Mark
  | [] => []
  | [e] => e.marks
  | e :: es => e.marks ++ any comma :: Expr.marksOfArguments es

end

def Expr.marksOfOption : Option Expr → List Mark
  | none => []
  | some e => e.marks

def Token.marksOfParameters : List Token → List Mark
  | [] => []
  | [t] => [exactly t]
  | t :: ts => exactly t :: any comma :: Token.marksOfParameters ts

mutual

def Stmt.marks : Stmt → List Mark
  | .expression e => e.marks ++ [any semicolon]
  | .var name none => [any kwVar, exactly name, any semicolon]
  | .var name (some init) =>
    any kwVar :: exactly name :: any equal :: (init.marks ++ [any semicolon])
  | .block body => any leftBrace :: (Stmt.marksOfList body ++ [any rightBrace])
  | .ifThen condition yes =>
    any kwIf :: any leftParen :: (condition.marks ++ any rightParen :: yes.marks)
  | .ifElse condition yes no =>
    any kwIf :: any leftParen :: (condition.marks ++ any rightParen ::
      (yes.marks ++ any kwElse :: no.marks))
  | .loop condition body =>
    any kwWhile :: any leftParen :: (condition.marks ++ any rightParen :: body.marks)
  | .function decl => any kwFun :: decl.marks
  | .ret keyword value => exactly keyword :: (Expr.marksOfOption value ++ [any semicolon])
  | .cls name none methods =>
    any kwClass :: exactly name :: any leftBrace ::
      (FunctionDecl.marksOfList methods ++ [any rightBrace])
  | .cls name (some superclass) methods =>
    any kwClass :: exactly name :: any less :: (superclass.marks ++ any leftBrace ::
      (FunctionDecl.marksOfList methods ++ [any rightBrace]))

def Stmt.marksOfList : List Stmt → List Mark
  | [] => []
  | s :: ss => s.marks ++ Stmt.marksOfList ss

def FunctionDecl.marks : FunctionDecl → List Mark
  | ⟨name, params, body⟩ =>
    exactly name :: any leftParen :: (Token.marksOfParameters params ++ any rightParen ::
      any leftBrace :: (Stmt.marksOfList body ++ [any rightBrace]))

def FunctionDecl.marksOfList : List FunctionDecl → List Mark
  | [] => []
  | d :: ds => d.marks ++ FunctionDecl.marksOfList ds

end

/-! ## Stratified trees -/

namespace Level

/-- The level that an operator belongs to. -/
def ofOperator? (kind : TokenKind) : Option Level :=
  [or, and, equality, comparison, term, factor].find? fun level => level.operators.contains kind

def rank : Level → Nat
  | or => 1
  | and => 2
  | equality => 3
  | comparison => 4
  | term => 5
  | factor => 6

/-- The levels whose operations may skip their right operand. -/
def isLogical : Level → Bool
  | or | and => true
  | _ => false

end Level

namespace Expr

/-- How tightly an expression binds: assignments least, then the operators by their levels, then
prefixes, then calls and properties; all else stands for itself. -/
def rank : Expr → Nat
  | assign .. | set .. => 0
  | binary _ operator _ | logical _ operator _ =>
    match Level.ofOperator? operator.kind with
    | some level => level.rank
    | none => 0
  | unary .. => 7
  | call .. | get .. => 8
  | _ => 9

mutual

def stratified : Expr → Bool
  | constant _ => true
  | grouping e => e.stratified
  | unary operator e =>
    [bang, minus].contains operator.kind && e.stratified && decide (7 ≤ e.rank)
  | binary l operator r =>
    match Level.ofOperator? operator.kind with
    | some level =>
      !level.isLogical && l.stratified && decide (level.rank ≤ l.rank) && r.stratified &&
        decide (level.rank < r.rank)
    | none => false
  | logical l operator r =>
    match Level.ofOperator? operator.kind with
    | some level =>
      level.isLogical && l.stratified && decide (level.rank ≤ l.rank) && r.stratified &&
        decide (level.rank < r.rank)
    | none => false
  | var _ name => name.kind == identifier
  | assign _ name value => name.kind == identifier && value.stratified
  | call callee paren args =>
    callee.stratified && decide (8 ≤ callee.rank) && paren.kind == rightParen &&
      decide (args.length ≤ maxArity) && allStratified args
  | get object name => object.stratified && decide (8 ≤ object.rank) && name.kind == identifier
  | set object name value =>
    object.stratified && decide (8 ≤ object.rank) && name.kind == identifier && value.stratified
  | thisRef _ keyword => keyword.kind == kwThis
  | superRef _ keyword method => keyword.kind == kwSuper && method.kind == identifier
  | unparsed => false

def allStratified : List Expr → Bool
  | [] => true
  | e :: es => e.stratified && allStratified es

end

end Expr

/-- All that a superclass may be. -/
def Expr.isVariable : Expr → Bool
  | .var _ name => name.kind == identifier
  | _ => false

namespace Stmt

/-- Branches and loop bodies are statements; a declaration stands there only in a block. -/
def isStatement : Stmt → Bool
  | var .. | function _ | cls .. => false
  | _ => true

/-- Whether one more `else` after the statement would become part of it. -/
def endsOpen : Stmt → Bool
  | ifThen .. => true
  | ifElse _ _ no => no.endsOpen
  | loop _ body => body.endsOpen
  | _ => false

end Stmt

mutual

def Stmt.stratified : Stmt → Bool
  | .expression e => e.stratified
  | .var name init => name.kind == identifier && init.all Expr.stratified
  | .block body => Stmt.allStratified body
  | .ifThen condition yes => condition.stratified && yes.stratified && yes.isStatement
  | .ifElse condition yes no =>
    condition.stratified && yes.stratified && yes.isStatement && !yes.endsOpen &&
      no.stratified && no.isStatement
  | .loop condition body => condition.stratified && body.stratified && body.isStatement
  | .function decl => decl.stratified
  | .ret keyword value => keyword.kind == kwReturn && value.all Expr.stratified
  | .cls name superclass methods =>
    name.kind == identifier && superclass.all Expr.isVariable && FunctionDecl.allStratified methods

def Stmt.allStratified : List Stmt → Bool
  | [] => true
  | s :: ss => s.stratified && Stmt.allStratified ss

def FunctionDecl.stratified : FunctionDecl → Bool
  | ⟨name, params, body⟩ =>
    name.kind == identifier && decide (params.length ≤ maxArity) &&
      params.all (fun t => t.kind == identifier) && Stmt.allStratified body

def FunctionDecl.allStratified : List FunctionDecl → Bool
  | [] => true
  | d :: ds => d.stratified && FunctionDecl.allStratified ds

end

/-! ## Trees up to identities -/

mutual

/-- The same tree with every reference numbered zero. -/
def Expr.eraseIds : Expr → Expr
  | .constant c => .constant c
  | .grouping e => .grouping e.eraseIds
  | .unary operator e => .unary operator e.eraseIds
  | .binary l operator r => .binary l.eraseIds operator r.eraseIds
  | .logical l operator r => .logical l.eraseIds operator r.eraseIds
  | .var _ name => .var 0 name
  | .assign _ name value => .assign 0 name value.eraseIds
  | .call callee paren args => .call callee.eraseIds paren (Expr.eraseIdsOfList args)
  | .get object name => .get object.eraseIds name
  | .set object name value => .set object.eraseIds name value.eraseIds
  | .thisRef _ keyword => .thisRef 0 keyword
  | .superRef _ keyword method => .superRef 0 keyword method
  | .unparsed => .unparsed

def Expr.eraseIdsOfList : List Expr → List Expr
  | [] => []
  | e :: es => e.eraseIds :: Expr.eraseIdsOfList es

end

mutual

def Stmt.eraseIds : Stmt → Stmt
  | .expression e => .expression e.eraseIds
  | .var name init => .var name (init.map Expr.eraseIds)
  | .block body => .block (Stmt.eraseIdsOfList body)
  | .ifThen condition yes => .ifThen condition.eraseIds yes.eraseIds
  | .ifElse condition yes no => .ifElse condition.eraseIds yes.eraseIds no.eraseIds
  | .loop condition body => .loop condition.eraseIds body.eraseIds
  | .function decl => .function decl.eraseIds
  | .ret keyword value => .ret keyword (value.map Expr.eraseIds)
  | .cls name superclass methods =>
    .cls name (superclass.map Expr.eraseIds) (FunctionDecl.eraseIdsOfList methods)

def Stmt.eraseIdsOfList : List Stmt → List Stmt
  | [] => []
  | s :: ss => s.eraseIds :: Stmt.eraseIdsOfList ss

def FunctionDecl.eraseIds : FunctionDecl → FunctionDecl
  | ⟨name, params, body⟩ => ⟨name, params, Stmt.eraseIdsOfList body⟩

def FunctionDecl.eraseIdsOfList : List FunctionDecl → List FunctionDecl
  | [] => []
  | d :: ds => d.eraseIds :: FunctionDecl.eraseIdsOfList ds

end

end Lox
