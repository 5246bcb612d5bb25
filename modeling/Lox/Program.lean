import Lox.Token

/-!
# Lox.Program

Program trees. Every reference to a variable, to `this` or to `super` has an identity of its own, so
that two references spelled alike can be bound differently.
-/

namespace Lox

/-- The identity of a reference. -/
abbrev RefId := Nat

inductive Constant where
  | number (x : Float)
  | string (s : String)
  | bool (b : Bool)
  | nil
  deriving Inhabited

inductive Expr where
  | constant (c : Constant)
  | grouping (inner : Expr)
  | unary (operator : Token) (operand : Expr)
  | binary (left : Expr) (operator : Token) (right : Expr)
  | logical (left : Expr) (operator : Token) (right : Expr)
  | var (id : RefId) (name : Token)
  | assign (id : RefId) (name : Token) (value : Expr)
  | call (callee : Expr) (paren : Token) (args : List Expr)
  | get (object : Expr) (name : Token)
  | set (object : Expr) (name : Token) (value : Expr)
  | thisRef (id : RefId) (keyword : Token)
  | superRef (id : RefId) (keyword : Token) (method : Token)
  /-- Stands where a declaration could not be parsed. -/
  | unparsed
  deriving Inhabited

mutual

inductive Stmt where
  | expression (e : Expr)
  | var (name : Token) (init : Option Expr)
  | block (body : List Stmt)
  | ifThen (condition : Expr) (yes : Stmt)
  | ifElse (condition : Expr) (yes no : Stmt)
  | loop (condition : Expr) (body : Stmt)
  | function (decl : FunctionDecl)
  | ret (keyword : Token) (value : Option Expr)
  | cls (name : Token) (superclass : Option Expr) (methods : List FunctionDecl)

structure FunctionDecl where
  name : Token
  params : List Token
  body : List Stmt

end

instance : Inhabited Stmt := ⟨.expression .unparsed⟩
instance : Inhabited FunctionDecl := ⟨⟨default, [], []⟩⟩

/-- What a failed declaration leaves in the tree. -/
def Stmt.placeholder : Stmt := .expression .unparsed

/-- The number of parameters. -/
def FunctionDecl.arity (d : FunctionDecl) : Nat := d.params.length

/-- A method of this name prepares new instances. -/
def initializerName : String := "init"

def FunctionDecl.isInitializer (d : FunctionDecl) : Bool := d.name.lexeme == initializerName

/-! ## References in source order -/

mutual

/-- The references of an expression with the tokens that name them. An assignment comes before the
references of its value. -/
def Expr.refs : Expr → List (RefId × Token)
  | .constant _ | .unparsed => []
  | .grouping e | .unary _ e | .get e _ => e.refs
  | .binary l _ r | .logical l _ r => l.refs ++ r.refs
  | .var id name => [(id, name)]
  | .assign id name value => (id, name) :: value.refs
  | .call callee _ args => callee.refs ++ Expr.refsOfList args
  | .set object _ value => object.refs ++ value.refs
  | .thisRef id keyword => [(id, keyword)]
  | .superRef id keyword _ => [(id, keyword)]

def Expr.refsOfList : List Expr → List (RefId × Token)
  | [] => []
  | e :: es => e.refs ++ Expr.refsOfList es

end

def Expr.refsOfOption : Option Expr → List (RefId × Token)
  | none => []
  | some e => e.refs

mutual

def Stmt.refs : Stmt → List (RefId × Token)
  | .expression e => e.refs
  | .var _ init => Expr.refsOfOption init
  | .block body => Stmt.refsOfList body
  | .ifThen c yes => c.refs ++ yes.refs
  | .ifElse c yes no => c.refs ++ yes.refs ++ no.refs
  | .loop c body => c.refs ++ body.refs
  | .function decl => decl.refs
  | .ret _ value => Expr.refsOfOption value
  | .cls _ superclass methods => Expr.refsOfOption superclass ++ FunctionDecl.refsOfList methods

def Stmt.refsOfList : List Stmt → List (RefId × Token)
  | [] => []
  | s :: ss => s.refs ++ Stmt.refsOfList ss

def FunctionDecl.refs : FunctionDecl → List (RefId × Token)
  | ⟨_, _, body⟩ => Stmt.refsOfList body

def FunctionDecl.refsOfList : List FunctionDecl → List (RefId × Token)
  | [] => []
  | d :: ds => d.refs ++ FunctionDecl.refsOfList ds

end

end Lox
