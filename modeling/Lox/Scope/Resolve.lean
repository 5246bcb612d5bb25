import Lox.Error
import Lox.Scope

/-!
# Lox.Scope.Resolve

The static walk over a program. It keeps a stack of scopes and yields findings in the order of the
walk: a distance for each reference to something that is not global, and the violations of the static
rules. A violation never stops the walk.
-/

namespace Lox

/-- What kind of body a `return` would leave. -/
inductive FunctionContext where
  | outside
  | function
  | method
  | initializer
  deriving DecidableEq, Repr

/-- What kind of class `this` and `super` would refer to. -/
inductive ClassContext where
  | outside
  | plain
  | subclass
  deriving DecidableEq, Repr

structure ResolveContext where
  function : FunctionContext := .outside
  cls : ClassContext := .outside

inductive Finding where
  | bound (id : RefId) (distance : Nat)
  | violation (token : Token) (problem : ResolveProblem)

namespace Resolve

/-- A reference to a name, if some scope has it. -/
def bind (scopes : List Scope) (id : RefId) (name : String) : List Finding :=
  match Scope.distance? name scopes with
  | some d => [.bound id d]
  | none => []

def violationIf (wrong : Bool) (token : Token) (problem : ResolveProblem) : List Finding :=
  if wrong then [.violation token problem] else []

/-- Starts a declaration. Declaring a name twice is wrong, and starts its declaration again. -/
def declare (scopes : List Scope) (name : Token) : List Scope × List Finding :=
  (Scope.enter name.lexeme false scopes,
    violationIf (Scope.declares name.lexeme scopes) name .alreadyDeclared)

def define (scopes : List Scope) (name : String) : List Scope := Scope.enter name true scopes

/-- Declares a name that is complete at once, such as a function's. -/
def declareWhole (scopes : List Scope) (name : Token) : List Scope × List Finding :=
  let r := declare scopes name
  (define r.1 name.lexeme, r.2)

def declareAll (scopes : List Scope) : List Token → List Scope × List Finding
  | [] => (scopes, [])
  | t :: ts =>
    let first := declareWhole scopes t
    let more := declareAll first.1 ts
    (more.1, first.2 ++ more.2)

mutual

def expr (ctx : ResolveContext) (scopes : List Scope) : Expr → List Finding
  | .constant _ | .unparsed => []
  | .grouping e | .unary _ e | .get e _ => expr ctx scopes e
  | .binary l _ r | .logical l _ r => expr ctx scopes l ++ expr ctx scopes r
  | .var id name =>
    violationIf (Scope.isPending name.lexeme scopes) name .readInOwnInitializer ++
      bind scopes id name.lexeme
  | .assign id name value => expr ctx scopes value ++ bind scopes id name.lexeme
  | .call callee _ args => expr ctx scopes callee ++ exprs ctx scopes args
  | .set object _ value => expr ctx scopes value ++ expr ctx scopes object
  | .thisRef id keyword =>
    if ctx.cls = .outside then [.violation keyword .thisOutsideClass]
    else bind scopes id keyword.lexeme
  | .superRef id keyword _ =>
    violationIf (ctx.cls == .outside) keyword .superOutsideClass ++
      violationIf (ctx.cls == .plain) keyword .superWithoutSuperclass ++
      bind scopes id keyword.lexeme

def exprs (ctx : ResolveContext) (scopes : List Scope) : List Expr → List Finding
  | [] => []
  | e :: es => expr ctx scopes e ++ exprs ctx scopes es

end

def optionalExpr (ctx : ResolveContext) (scopes : List Scope) : Option Expr → List Finding
  | none => []
  | some e => expr ctx scopes e

/-- A class may not name itself as its superclass. -/
def selfInheritance (name : Token) : Expr → List Finding
  | .var _ superName => violationIf (superName.lexeme == name.lexeme) superName .selfInheritance
  | _ => []

def returnRules (ctx : ResolveContext) (keyword : Token) (hasValue : Bool) : List Finding :=
  violationIf (ctx.function == .outside) keyword .returnAtTopLevel ++
    violationIf (hasValue && ctx.function == .initializer) keyword .valueFromInitializer

def methodContext (d : FunctionDecl) : FunctionContext :=
  if d.isInitializer then .initializer else .method

/-- The scope around the methods of a class. -/
def thisScope : Scope := Bindings.singleton "this" true

/-- The scope around `thisScope` in a class with a superclass. -/
def superScope : Scope := Bindings.singleton "super" true

mutual

def stmt (ctx : ResolveContext) (scopes : List Scope) : Stmt → List Scope × List Finding
  | .expression e => (scopes, expr ctx scopes e)
  | .var name init =>
    let r := declare scopes name
    (define r.1 name.lexeme, r.2 ++ optionalExpr ctx r.1 init)
  | .block body => (scopes, (stmts ctx (.empty :: scopes) body).2)
  | .ifThen condition yes =>
    let y := stmt ctx scopes yes
    (y.1, expr ctx scopes condition ++ y.2)
  | .ifElse condition yes no =>
    let y := stmt ctx scopes yes
    let n := stmt ctx y.1 no
    (n.1, expr ctx scopes condition ++ y.2 ++ n.2)
  | .loop condition body =>
    let b := stmt ctx scopes body
    (b.1, expr ctx scopes condition ++ b.2)
  | .function decl =>
    let r := declareWhole scopes decl.name
    (r.1, r.2 ++ functionBody { ctx with function := .function } r.1 decl)
  | .ret keyword value =>
    (scopes, returnRules ctx keyword value.isSome ++ optionalExpr ctx scopes value)
  | .cls name none ms =>
    let r := declareWhole scopes name
    (r.1, r.2 ++ methods { ctx with cls := .plain } (thisScope :: r.1) ms)
  | .cls name (some superclass) ms =>
    let r := declareWhole scopes name
    let inner := { ctx with cls := .subclass }
    (r.1, r.2 ++ selfInheritance name superclass ++ expr inner r.1 superclass ++
      methods inner (thisScope :: superScope :: r.1) ms)

def stmts (ctx : ResolveContext) (scopes : List Scope) : List Stmt → List Scope × List Finding
  | [] => (scopes, [])
  | s :: ss =>
    let first := stmt ctx scopes s
    let more := stmts ctx first.1 ss
    (more.1, first.2 ++ more.2)

/-- Parameters and body share one scope. -/
def functionBody (ctx : ResolveContext) (scopes : List Scope) : FunctionDecl → List Finding
  | ⟨_, params, body⟩ =>
    let r := declareAll (.empty :: scopes) params
    r.2 ++ (stmts ctx r.1 body).2

def methods (ctx : ResolveContext) (scopes : List Scope) : List FunctionDecl → List Finding
  | [] => []
  | d :: ds =>
    functionBody { ctx with function := methodContext d } scopes d ++ methods ctx scopes ds

end

/-- The findings for a whole program. -/
def findings (program : List Stmt) : List Finding := (stmts {} [] program).2

def entryOf? : Finding → Option (RefId × Nat)
  | .bound id d => some (id, d)
  | .violation _ _ => none

def errorOf? : Finding → Option Error
  | .bound _ _ => none
  | .violation token problem => some (.resolve token problem)

end Resolve

def Locals.ofProgram (program : List Stmt) : Locals :=
  ⟨(Resolve.findings program).filterMap Resolve.entryOf?⟩

/-- The static errors of a program, in the order of the walk. -/
def Resolve.errors (program : List Stmt) : List Error :=
  (Resolve.findings program).filterMap Resolve.errorOf?

end Lox
