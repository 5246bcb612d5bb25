import Lox.Program.Parse
import Lox.Scope.Resolve

/-!
# Lox.Program.Relabel

A program read at another place. A tree does not say where it stands but for the numbers of its
references and the lines of its tokens, so the same text read later, or further down in a longer
text, is the same tree with other numbers and lines.
-/

namespace Lox

structure Relabel where
  id : RefId → RefId
  line : Nat → Nat

/-- The change for a text that was read with references numbered from `first` on, and is read with
references numbered from `first'` on and a number of lines further down. -/
def Relabel.move (first first' : RefId) (lines : Nat) : Relabel :=
  { id := fun i => i - first + first', line := fun l => l + lines }

def Token.relabel (r : Relabel) (t : Token) : Token := { t with line := r.line t.line }

def Stamped.relabel (r : Relabel) (s : Stamped) : Stamped := ⟨s.token.relabel r, r.id s.id⟩

mutual

def Expr.relabel (r : Relabel) : Expr → Expr
  | .constant c => .constant c
  | .grouping e => .grouping (e.relabel r)
  | .unary operator e => .unary (operator.relabel r) (e.relabel r)
  | .binary left operator right =>
    .binary (left.relabel r) (operator.relabel r) (right.relabel r)
  | .logical left operator right =>
    .logical (left.relabel r) (operator.relabel r) (right.relabel r)
  | .var id name => .var (r.id id) (name.relabel r)
  | .assign id name value => .assign (r.id id) (name.relabel r) (value.relabel r)
  | .call callee paren args =>
    .call (callee.relabel r) (paren.relabel r) (Expr.relabelList r args)
  | .get object name => .get (object.relabel r) (name.relabel r)
  | .set object name value => .set (object.relabel r) (name.relabel r) (value.relabel r)
  | .thisRef id keyword => .thisRef (r.id id) (keyword.relabel r)
  | .superRef id keyword method => .superRef (r.id id) (keyword.relabel r) (method.relabel r)
  | .unparsed => .unparsed

def Expr.relabelList (r : Relabel) : List Expr → List Expr
  | [] => []
  | e :: es => e.relabel r :: Expr.relabelList r es

end

mutual

def Stmt.relabel (r : Relabel) : Stmt → Stmt
  | .expression e => .expression (e.relabel r)
  | .var name init => .var (name.relabel r) (init.map (Expr.relabel r))
  | .block body => .block (Stmt.relabelList r body)
  | .ifThen condition yes => .ifThen (condition.relabel r) (yes.relabel r)
  | .ifElse condition yes no => .ifElse (condition.relabel r) (yes.relabel r) (no.relabel r)
  | .loop condition body => .loop (condition.relabel r) (body.relabel r)
  | .function decl => .function (decl.relabel r)
  | .ret keyword value => .ret (keyword.relabel r) (value.map (Expr.relabel r))
  | .cls name superclass methods =>
    .cls (name.relabel r) (superclass.map (Expr.relabel r)) (FunctionDecl.relabelList r methods)

def Stmt.relabelList (r : Relabel) : List Stmt → List Stmt
  | [] => []
  | s :: ss => s.relabel r :: Stmt.relabelList r ss

def FunctionDecl.relabel (r : Relabel) : FunctionDecl → FunctionDecl
  | ⟨name, params, body⟩ =>
    ⟨name.relabel r, params.map (Token.relabel r), Stmt.relabelList r body⟩

def FunctionDecl.relabelList (r : Relabel) : List FunctionDecl → List FunctionDecl
  | [] => []
  | d :: ds => d.relabel r :: FunctionDecl.relabelList r ds

end

def Finding.relabel (r : Relabel) : Finding → Finding
  | .bound id distance => .bound (r.id id) distance
  | .violation token problem => .violation (token.relabel r) problem

end Lox
