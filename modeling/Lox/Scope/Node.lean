import Lox.Scope.Resolve

/-!
# Lox.Scope.Node

Lexical scope node by node. A node is a part of a program tree together with its surroundings: the
blocks, functions and classes around it, innermost first, each with the names that are declared in
it before the node. What a reference is bound to and which static rules a node breaks can be read
off these alone. Nodes are addressed by paths from the root.
-/

namespace Lox

/-- What a `return` can leave. -/
inductive Body where
  | function
  | method (name : String)
  deriving DecidableEq, Repr

/-- What encloses a node, with the names declared in it so far. -/
inductive Enclosure where
  | block (names : List String)
  | body (kind : Body) (names : List String)
  /-- The body of a class; the flag tells whether it has a superclass. -/
  | cls (derived : Bool)
  /-- The superclass clause, which is part of the class but outside of its scopes. -/
  | clause
  deriving DecidableEq, Repr

/-- The names in the scopes of an enclosure, innermost first. A function's parameters and body share
one. -/
def Enclosure.scopes : Enclosure → List (List String)
  | block names | body _ names => [names]
  | cls true => [["this"], ["super"]]
  | cls false => [["this"]]
  | clause => []

def Enclosure.body? : Enclosure → Option Body
  | body kind _ => some kind
  | _ => none

/-- Whether a class has a superclass. -/
def Enclosure.derived? : Enclosure → Option Bool
  | cls derived => some derived
  | clause => some true
  | _ => none

/-- After a declaration; classes and their clauses hold none. -/
def Enclosure.declaring (names : List String) : Enclosure → Enclosure
  | block earlier => block (names ++ earlier)
  | body kind earlier => body kind (names ++ earlier)
  | e => e

structure Surroundings where
  /-- Innermost first; none of them stands for the global scope. -/
  enclosing : List Enclosure := []
  /-- The variable in whose initializer the node is. -/
  initializing : Option String := none

namespace Surroundings

def scopes (a : Surroundings) : List (List String) := a.enclosing.flatMap Enclosure.scopes

/-- The number of scopes between the node and the nearest one with the name. -/
def distance? (a : Surroundings) (name : String) : Option Nat :=
  a.scopes.findIdx? fun names => names.contains name

/-- Whether the innermost scope has the name; the global scope is not asked. -/
def declares (a : Surroundings) (name : String) : Bool :=
  match a.scopes with
  | [] => false
  | names :: _ => names.contains name

/-- The nearest function or method around the node. -/
def body? (a : Surroundings) : Option Body := a.enclosing.findSome? Enclosure.body?

/-- The nearest class around the node: whether it has a superclass. -/
def derived? (a : Surroundings) : Option Bool := a.enclosing.findSome? Enclosure.derived?

def within (a : Surroundings) (e : Enclosure) : Surroundings :=
  { a with enclosing := e :: a.enclosing }

/-- After a declaration in the nearest enclosure; the global scope has no names. -/
def declaring (a : Surroundings) (names : List String) : Surroundings :=
  { a with enclosing := a.enclosing.modifyHead (Enclosure.declaring names) }

end Surroundings

/-- The names that a statement declares in the scope it stands in. -/
def Stmt.declaredNames : Stmt → List String
  | .var name _ | .cls name _ _ => [name.lexeme]
  | .function decl => [decl.name.lexeme]
  | .ifThen _ yes => yes.declaredNames
  | .ifElse _ yes no => no.declaredNames ++ yes.declaredNames
  | .loop _ body => body.declaredNames
  | .expression _ | .block _ | .ret _ _ => []

def Expr.operands : Expr → List Expr
  | .constant _ | .var _ _ | .thisRef _ _ | .superRef _ _ _ | .unparsed => []
  | .grouping e | .unary _ e | .get e _ | .assign _ _ e => [e]
  | .binary l _ r | .logical l _ r => [l, r]
  | .call callee _ args => callee :: args
  | .set object _ value => [object, value]

inductive Part where
  | program (body : List Stmt)
  | stmt (s : Stmt)
  | expr (e : Expr)
  | parameter (name : Token)
  /-- The parameters and statements of a function or method. -/
  | body (kind : Body) (decl : FunctionDecl)

/-- A part of a program tree and what is around it. -/
structure Node where
  part : Part
  around : Surroundings

namespace Node

def root (program : List Stmt) : Node := ⟨.program program, {}⟩

/-- Statements one after the other: each sees the names declared before it. -/
def inOrder (a : Surroundings) : List Stmt → List Node
  | [] => []
  | s :: ss => ⟨.stmt s, a⟩ :: inOrder (a.declaring s.declaredNames) ss

def parameters (a : Surroundings) : List Token → List Node
  | [] => []
  | t :: ts => ⟨.parameter t, a⟩ :: parameters (a.declaring [t.lexeme]) ts

def exprs (a : Surroundings) (es : List Expr) : List Node := es.map fun e => ⟨.expr e, a⟩

def methods (a : Surroundings) (ds : List FunctionDecl) : List Node :=
  ds.map fun d => ⟨.body (.method d.name.lexeme) d, a⟩

/-- The immediate parts of a node. The name of a variable is declared for its own initializer, that
of a function for its own body and that of a class for its superclass clause and its methods. -/
def parts : Node → List Node
  | ⟨.program body, a⟩ => inOrder a body
  | ⟨.parameter _, _⟩ => []
  | ⟨.body kind decl, a⟩ =>
    parameters (a.within (.body kind [])) decl.params ++
      inOrder ((a.within (.body kind [])).declaring (decl.params.map Token.lexeme).reverse)
        decl.body
  | ⟨.expr e, a⟩ => exprs a e.operands
  | ⟨.stmt (.expression e), a⟩ => exprs a [e]
  | ⟨.stmt (.var name init), a⟩ =>
    exprs { a.declaring [name.lexeme] with initializing := some name.lexeme } init.toList
  | ⟨.stmt (.block body), a⟩ => inOrder (a.within (.block [])) body
  | ⟨.stmt (.ifThen condition yes), a⟩ => exprs a [condition] ++ inOrder a [yes]
  | ⟨.stmt (.ifElse condition yes no), a⟩ => exprs a [condition] ++ inOrder a [yes, no]
  | ⟨.stmt (.loop condition body), a⟩ => exprs a [condition] ++ inOrder a [body]
  | ⟨.stmt (.function decl), a⟩ => [⟨.body .function decl, a.declaring [decl.name.lexeme]⟩]
  | ⟨.stmt (.ret _ value), a⟩ => exprs a value.toList
  | ⟨.stmt (.cls name superclass ds), a⟩ =>
    exprs ((a.declaring [name.lexeme]).within .clause) superclass.toList ++
      methods ((a.declaring [name.lexeme]).within (.cls superclass.isSome)) ds

/-- The node at a path: the index of a part, then the path inside that part. -/
def at? : Node → List Nat → Option Node
  | node, [] => some node
  | node, i :: path => node.parts[i]?.bind fun inner => inner.at? path

example (a : Token) (ha : a.lexeme = "a") :
    (root [.block [.var a (some (.var 0 a))]]).at? [0, 0, 0] =
      some ⟨.expr (.var 0 a), { enclosing := [.block ["a"]], initializing := some "a" }⟩ := by
  rw [← ha]
  rfl

/-- The node refers to a variable, to `this` or to `super`: the identity of the reference, and how
many scopes out it is bound, if any scope has the name. Outside of all classes `this` is unbound. -/
inductive Refers : Node → RefId → Option Nat → Prop where
  | var {id : RefId} {name : Token} {a : Surroundings} :
      Refers ⟨.expr (.var id name), a⟩ id (a.distance? name.lexeme)
  | assign {id : RefId} {name : Token} {value : Expr} {a : Surroundings} :
      Refers ⟨.expr (.assign id name value), a⟩ id (a.distance? name.lexeme)
  | superRef {id : RefId} {keyword method : Token} {a : Surroundings} :
      Refers ⟨.expr (.superRef id keyword method), a⟩ id (a.distance? keyword.lexeme)
  | thisRef {id : RefId} {keyword : Token} {a : Surroundings} (h : a.derived? ≠ none) :
      Refers ⟨.expr (.thisRef id keyword), a⟩ id (a.distance? keyword.lexeme)
  | thisOutside {id : RefId} {keyword : Token} {a : Surroundings} (h : a.derived? = none) :
      Refers ⟨.expr (.thisRef id keyword), a⟩ id none

/-- The part declares a name where it stands. -/
inductive Declares : Part → Token → Prop where
  | var {name : Token} {init : Option Expr} : Declares (.stmt (.var name init)) name
  | function {decl : FunctionDecl} : Declares (.stmt (.function decl)) decl.name
  | cls {name : Token} {superclass : Option Expr} {methods : List FunctionDecl} :
      Declares (.stmt (.cls name superclass methods)) name
  | parameter {name : Token} : Declares (.parameter name) name

/-- The node breaks a static rule: the token to blame, and the problem. -/
inductive Breaks : Node → Token → ResolveProblem → Prop where
  | returnAtTopLevel {keyword : Token} {value : Option Expr} {a : Surroundings}
      (h : a.body? = none) : Breaks ⟨.stmt (.ret keyword value), a⟩ keyword .returnAtTopLevel
  | valueFromInitializer {keyword : Token} {value : Expr} {a : Surroundings}
      (h : a.body? = some (.method initializerName)) :
      Breaks ⟨.stmt (.ret keyword (some value)), a⟩ keyword .valueFromInitializer
  | thisOutsideClass {id : RefId} {keyword : Token} {a : Surroundings} (h : a.derived? = none) :
      Breaks ⟨.expr (.thisRef id keyword), a⟩ keyword .thisOutsideClass
  | superOutsideClass {id : RefId} {keyword method : Token} {a : Surroundings}
      (h : a.derived? = none) :
      Breaks ⟨.expr (.superRef id keyword method), a⟩ keyword .superOutsideClass
  | superWithoutSuperclass {id : RefId} {keyword method : Token} {a : Surroundings}
      (h : a.derived? = some false) :
      Breaks ⟨.expr (.superRef id keyword method), a⟩ keyword .superWithoutSuperclass
  | selfInheritance {name superName : Token} {id : RefId} {methods : List FunctionDecl}
      {a : Surroundings} (h : superName.lexeme = name.lexeme) :
      Breaks ⟨.stmt (.cls name (some (.var id superName)) methods), a⟩ superName .selfInheritance
  | alreadyDeclared {part : Part} {name : Token} {a : Surroundings} (hpart : Declares part name)
      (h : a.declares name.lexeme = true) : Breaks ⟨part, a⟩ name .alreadyDeclared
  | readInOwnInitializer {id : RefId} {name : Token} {a : Surroundings} (hlocal : a.scopes ≠ [])
      (h : a.initializing = some name.lexeme) :
      Breaks ⟨.expr (.var id name), a⟩ name .readInOwnInitializer

end Node
end Lox
