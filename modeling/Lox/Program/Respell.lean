import Lox.Program.Parse
import Lox.Scope.Resolve

/-!
# Lox.Program.Respell

A local variable under another name. In one scope of a program the declaration of a variable or
parameter gets a new spelling, and so do the references that are bound to it: those of its name whose
distance is the number of scopes between. Functions and classes keep their names, since a program can
print them.
-/

namespace Lox

/-- A new spelling for a name, in a program whose references have these distances. -/
structure Respelling where
  locals : Locals
  old : String
  new : String

/-- How a part of a program lies to the scope whose variable gets the new spelling. -/
inductive Site where
  /-- The scope is inside: through these statements, branches or methods, counted in lists. -/
  | around (path : List Nat)
  /-- Inside the scope, with this many scopes between. -/
  | inside (depth : Nat)
  | apart
  deriving DecidableEq, Repr

namespace Site

/-- The site of the first of several parts. -/
def first : Site → Site
  | around (0 :: path) => around path
  | around _ => apart
  | site => site

/-- The site of all parts but the first. -/
def rest : Site → Site
  | around ((i + 1) :: path) => around (i :: path)
  | around _ => apart
  | site => site

/-- The site of a body with a scope of its own. The scope sought is one that declares the
variable. -/
def body (declares : Bool) : Site → Site
  | around [] => if declares then inside 0 else apart
  | inside depth => inside (depth + 1)
  | site => site

/-- The site within one more scope, which declares no variable. -/
def deeper : Site → Site
  | inside depth => inside (depth + 1)
  | site => site

end Site

def Token.spelled (t : Token) (lexeme : String) : Token := { t with lexeme := lexeme }

namespace Respelling

/-- A reference, spelled anew if it is bound in the scope sought. -/
def reference (c : Respelling) (site : Site) (id : RefId) (name : Token) : Token :=
  match site with
  | .inside depth =>
    if name.lexeme = c.old ∧ c.locals.find? id = some depth then name.spelled c.new else name
  | _ => name

/-- The name of a variable where it is declared, spelled anew in the scope sought. -/
def declaration (c : Respelling) (site : Site) (name : Token) : Token :=
  match site with
  | .inside 0 => if name.lexeme = c.old then name.spelled c.new else name
  | _ => name

end Respelling

/-- Whether the statement itself is the declaration of this variable. -/
def Stmt.declaresVariable (name : String) : Stmt → Bool
  | .var n _ => n.lexeme == name
  | _ => false

/-- Whether the scope of a function, of its parameters and its body, has this variable. -/
def FunctionDecl.declaresVariable (name : String) (d : FunctionDecl) : Bool :=
  d.params.any (·.lexeme == name) || d.body.any (·.declaresVariable name)

mutual

def Expr.respell (c : Respelling) (site : Site) : Expr → Expr
  | .constant x => .constant x
  | .grouping e => .grouping (e.respell c site)
  | .unary operator e => .unary operator (e.respell c site)
  | .binary left operator right => .binary (left.respell c site) operator (right.respell c site)
  | .logical left operator right => .logical (left.respell c site) operator (right.respell c site)
  | .var id name => .var id (c.reference site id name)
  | .assign id name value => .assign id (c.reference site id name) (value.respell c site)
  | .call callee paren args => .call (callee.respell c site) paren (Expr.respellList c site args)
  | .get object name => .get (object.respell c site) name
  | .set object name value => .set (object.respell c site) name (value.respell c site)
  | .thisRef id keyword => .thisRef id keyword
  | .superRef id keyword method => .superRef id keyword method
  | .unparsed => .unparsed

def Expr.respellList (c : Respelling) (site : Site) : List Expr → List Expr
  | [] => []
  | e :: es => e.respell c site :: Expr.respellList c site es

end

mutual

def Stmt.respell (c : Respelling) (site : Site) : Stmt → Stmt
  | .expression e => .expression (e.respell c site)
  | .var name init => .var (c.declaration site name) (init.map (Expr.respell c site))
  | .block body =>
    .block (Stmt.respellList c (site.body (body.any (·.declaresVariable c.old))) body)
  | .ifThen condition yes => .ifThen (condition.respell c site) (yes.respell c site)
  | .ifElse condition yes no =>
    .ifElse (condition.respell c site) (yes.respell c site.first) (no.respell c site.rest.first)
  | .loop condition body => .loop (condition.respell c site) (body.respell c site)
  | .function decl => .function (decl.respell c site)
  | .ret keyword value => .ret keyword (value.map (Expr.respell c site))
  | .cls name none methods => .cls name none (FunctionDecl.respellList c site.deeper methods)
  | .cls name (some superclass) methods =>
    .cls name (some (superclass.respell c site))
      (FunctionDecl.respellList c site.deeper.deeper methods)

def Stmt.respellList (c : Respelling) (site : Site) : List Stmt → List Stmt
  | [] => []
  | s :: ss => s.respell c site.first :: Stmt.respellList c site.rest ss

def FunctionDecl.respell (c : Respelling) (site : Site) : FunctionDecl → FunctionDecl
  | ⟨name, params, body⟩ =>
    let own := site.body (FunctionDecl.declaresVariable c.old ⟨name, params, body⟩)
    ⟨name, params.map (c.declaration own), Stmt.respellList c own body⟩

def FunctionDecl.respellList (c : Respelling) (site : Site) : List FunctionDecl → List FunctionDecl
  | [] => []
  | d :: ds => d.respell c site.first :: FunctionDecl.respellList c site.rest ds

end

/-- The program with another spelling for one of its local variables: the one of this name in the
scope to which the path leads. Where there is none, nothing changes. -/
def Stmt.respellProgram (old new : String) (path : List Nat) (program : List Stmt) : List Stmt :=
  Stmt.respellList ⟨Locals.ofProgram program, old, new⟩ (.around path) program

/-! ## Local variables -/

/-- A variable or parameter of a scope, with the path to the scope. -/
structure LocalVariable where
  path : List Nat
  name : String
  deriving DecidableEq, Repr

/-- A variable in the part with this index. -/
def LocalVariable.under (i : Nat) (x : LocalVariable) : LocalVariable := ⟨i :: x.path, x.name⟩

/-- The variables that statements declare in the scope they stand in. -/
def Stmt.ownVariables : List Stmt → List String
  | [] => []
  | .var name _ :: ss => name.lexeme :: Stmt.ownVariables ss
  | _ :: ss => Stmt.ownVariables ss

mutual

def Stmt.variables : Stmt → List LocalVariable
  | .block body => (Stmt.ownVariables body).map (⟨[], ·⟩) ++ Stmt.variablesFrom 0 body
  | .ifThen _ yes => yes.variables
  | .ifElse _ yes no => yes.variables.map (.under 0) ++ no.variables.map (.under 1)
  | .loop _ body => body.variables
  | .function decl => decl.variables
  | .cls _ _ methods => FunctionDecl.variablesFrom 0 methods
  | .expression _ | .var _ _ | .ret _ _ => []

/-- The local variables in statements, of which the first has this index. -/
def Stmt.variablesFrom (i : Nat) : List Stmt → List LocalVariable
  | [] => []
  | s :: ss => s.variables.map (.under i) ++ Stmt.variablesFrom (i + 1) ss

def FunctionDecl.variables : FunctionDecl → List LocalVariable
  | ⟨_, params, body⟩ =>
    (params.map (·.lexeme) ++ Stmt.ownVariables body).map (⟨[], ·⟩) ++ Stmt.variablesFrom 0 body

def FunctionDecl.variablesFrom (i : Nat) : List FunctionDecl → List LocalVariable
  | [] => []
  | d :: ds => d.variables.map (.under i) ++ FunctionDecl.variablesFrom (i + 1) ds

end

/-- The local variables of a program. Those at its top level are global. -/
def Stmt.localVariables (program : List Stmt) : List LocalVariable := Stmt.variablesFrom 0 program

/-! ## The names in a program -/

def Expr.names (e : Expr) : List String := e.refs.map fun x => x.2.lexeme

def Expr.namesOfOption (e : Option Expr) : List String :=
  (Expr.refsOfOption e).map fun x => x.2.lexeme

mutual

/-- The names that references and declarations have. -/
def Stmt.names : Stmt → List String
  | .expression e => e.names
  | .var name init => name.lexeme :: Expr.namesOfOption init
  | .block body => Stmt.namesOfList body
  | .ifThen condition yes => condition.names ++ yes.names
  | .ifElse condition yes no => condition.names ++ yes.names ++ no.names
  | .loop condition body => condition.names ++ body.names
  | .function decl => decl.names
  | .ret _ value => Expr.namesOfOption value
  | .cls name superclass methods =>
    name.lexeme :: (Expr.namesOfOption superclass ++ FunctionDecl.namesOfList methods)

def Stmt.namesOfList : List Stmt → List String
  | [] => []
  | s :: ss => s.names ++ Stmt.namesOfList ss

def FunctionDecl.names : FunctionDecl → List String
  | ⟨name, params, body⟩ => name.lexeme :: (params.map (·.lexeme) ++ Stmt.namesOfList body)

def FunctionDecl.namesOfList : List FunctionDecl → List String
  | [] => []
  | d :: ds => d.names ++ FunctionDecl.namesOfList ds

end

end Lox
