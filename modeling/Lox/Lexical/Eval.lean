import Lox.Eval
import Lox.Lexical.Machine
import Lox.Session

/-!
# Lox.Lexical.Eval

Running programs by their text alone: every expression is evaluated with the variables that are in
scope where it stands. A declaration brings its name into scope from there on, a variable before its
initializer, a function or class before its own body; a function value keeps the variables that were
in scope at its declaration. Fuel is spent as by the evaluator on frames.
-/

namespace Lox
namespace Lexical
namespace Eval

open Lox.Computation

/-- A property of an instance: a field, or else a method bound to it. -/
def property (c : Class Names) (fields : ObjectId) (name : String) : Eval (Value Names) := do
  match ← field? fields name with
  | some v => pure v
  | none =>
    match c.findMethod? name with
    | some f =>
      let bound ← bindMethod f (.object c fields)
      pure (.function bound)
    | none => fail (.undefinedProperty name)

def superMethod (names : Names) (method : String) : Eval (Value Names) := do
  let superclass ← lookUp names "super"
  let receiver ← lookUp names "this"
  match superclass, receiver with
  | .cls c, .object _ _ =>
    match c.findMethod? method with
    | some f =>
      let bound ← bindMethod f receiver
      pure (.function bound)
    | none => fail (.undefinedProperty method)
  | _, _ => fail .invalidSuper

/-- Declares a class. Around the methods of a class with a superclass there is one more variable,
`super`. -/
def declareClass (scope : Scope) (name : String) (superclass : Option (Class Names))
    (methods : List FunctionDecl) : Eval Scope := do
  let (place, scope) ← declare scope name
  match superclass with
  | none => define place name (.cls (.base name (Eval.methodTable scope.names methods)))
  | some c =>
    let cell ← newCell (.cls c)
    let names := scope.names.insert "super" cell
    define place name (.cls (.derived name c (Eval.methodTable names methods)))
  pure scope

mutual

/-- A statement ends with the scope that the statements after it are in. -/
def execute : Nat → Scope → Stmt → Eval (Flow Names × Scope)
  | 0, _, _ => exhausted
  | n + 1, scope, .expression e => do
    let _ ← evaluate n scope.names e
    pure (.normal, scope)
  | n + 1, scope, .var name init => do
    let (place, scope) ← declare scope name.lexeme
    let v ← evaluateOption n scope.names init
    define place name.lexeme v
    pure (.normal, scope)
  | n + 1, scope, .block body => do
    let flow ← executeAll n (.within scope.names) body
    pure (flow, scope)
  | n + 1, scope, .ifThen condition yes => do
    let v ← evaluate n scope.names condition
    if v.isTruthy then execute n scope yes else pure (.normal, scope)
  | n + 1, scope, .ifElse condition yes no => do
    let v ← evaluate n scope.names condition
    if v.isTruthy then execute n scope yes else execute n scope no
  | n + 1, scope, .loop condition body => do
    let v ← evaluate n scope.names condition
    if v.isTruthy then
      match ← execute n scope body with
      | (.returned r, _) => pure (.returned r, scope)
      | (.normal, _) => execute n scope (.loop condition body)
    else pure (.normal, scope)
  | _ + 1, scope, .function decl => do
    let (place, scope) ← declare scope decl.name.lexeme
    define place decl.name.lexeme (.function ⟨decl, scope.names, false⟩)
    pure (.normal, scope)
  | n + 1, scope, .ret _ value => do
    let v ← evaluateOption n scope.names value
    pure (.returned v, scope)
  | _ + 1, scope, .cls name none methods => do
    let scope ← declareClass scope name.lexeme none methods
    pure (.normal, scope)
  | n + 1, scope, .cls name (some superclass) methods => do
    match ← evaluate n scope.names superclass with
    | .cls c =>
      let scope ← declareClass scope name.lexeme (some c) methods
      pure (.normal, scope)
    | _ => fail .superclassNotClass

/-- Statements in order, each in the scope that the one before it ends with. -/
def executeAll : Nat → Scope → List Stmt → Eval (Flow Names)
  | 0, _, _ => exhausted
  | _ + 1, _, [] => pure .normal
  | n + 1, scope, s :: ss => do
    match ← execute n scope s with
    | (.returned v, _) => pure (.returned v)
    | (.normal, scope) => executeAll n scope ss

def evaluate : Nat → Names → Expr → Eval (Value Names)
  | 0, _, _ => exhausted
  | _ + 1, _, .constant c => pure (.ofConstant c)
  | n + 1, names, .grouping e => evaluate n names e
  | n + 1, names, .unary operator e => do
    let v ← evaluate n names e
    ofExcept (Operator.unary operator v)
  | n + 1, names, .binary left operator right => do
    let l ← evaluate n names left
    let r ← evaluate n names right
    ofExcept (Operator.binary l operator r)
  | n + 1, names, .logical left operator right => do
    let l ← evaluate n names left
    if Operator.isDecided operator l then pure l else evaluate n names right
  | _ + 1, names, .var _ name => lookUp names name.lexeme
  | n + 1, names, .assign _ name value => do
    let v ← evaluate n names value
    assign names name.lexeme v
    pure v
  | n + 1, names, .call callee _ args => do
    let f ← evaluate n names callee
    let vs ← evaluateAll n names args
    invoke n f vs
  | n + 1, names, .get object name => do
    match ← evaluate n names object with
    | .object c fields => property c fields name.lexeme
    | _ => fail .noProperties
  | n + 1, names, .set object name value => do
    match ← evaluate n names object with
    | .object _ fields =>
      let v ← evaluate n names value
      setField fields name.lexeme v
      pure v
    | _ => fail .noFields
  | _ + 1, names, .thisRef _ keyword => lookUp names keyword.lexeme
  | _ + 1, names, .superRef _ _ method => superMethod names method.lexeme
  | _ + 1, _, .unparsed => fail .unparsedExpression

def evaluateOption : Nat → Names → Option Expr → Eval (Value Names)
  | 0, _, _ => exhausted
  | _ + 1, _, none => pure .nil
  | n + 1, names, some e => evaluate n names e

def evaluateAll : Nat → Names → List Expr → Eval (List (Value Names))
  | 0, _, _ => exhausted
  | _ + 1, _, [] => pure []
  | n + 1, names, e :: es => do
    let v ← evaluate n names e
    let vs ← evaluateAll n names es
    pure (v :: vs)

def invoke : Nat → Value Names → List (Value Names) → Eval (Value Names)
  | 0, _, _ => exhausted
  | n + 1, callee, args =>
    match callee.callable? with
    | none => fail .notCallable
    | some c =>
      if args.length = c.arity then call n c args
      else fail (.wrongArity c.arity args.length)

def call : Nat → Callable Names → List (Value Names) → Eval (Value Names)
  | 0, _, _ => exhausted
  | _ + 1, .native f, args => onWorld (f.run args)
  | n + 1, .function f, args => callFunction n f args
  | n + 1, .cls c, args => do
    let object ← newObject c
    match c.findMethod? initializerName with
    | none => pure object
    | some init =>
      let bound ← bindMethod init object
      let _ ← callFunction n bound args
      pure object

/-- A function body runs with the variables that the function closes over and its parameters. -/
def callFunction : Nat → Closure Names → List (Value Names) → Eval (Value Names)
  | 0, _, _ => exhausted
  | n + 1, f, args => do
    let names ← declareAll f.env f.decl.params args
    let flow ← executeAll n (.within names) f.decl.body
    if f.isInitializer then lookUp f.env "this"
    else
      match flow with
      | .returned v => pure v
      | .normal => pure .nil

end

/-! ## Without fuel nothing runs -/

section

variable (scope : Scope) (names : Names)

@[simp] theorem execute_zero (s : Stmt) : execute 0 scope s = exhausted := by rw [execute]

@[simp] theorem executeAll_zero (ss : List Stmt) : executeAll 0 scope ss = exhausted := by
  rw [executeAll]

@[simp] theorem evaluate_zero (e : Expr) : evaluate 0 names e = exhausted := by rw [evaluate]

@[simp] theorem evaluateOption_zero (e : Option Expr) : evaluateOption 0 names e = exhausted := by
  rw [evaluateOption]

@[simp] theorem evaluateAll_zero (es : List Expr) : evaluateAll 0 names es = exhausted := by
  rw [evaluateAll]

end

@[simp] theorem invoke_zero (f : Value Names) (args : List (Value Names)) :
    invoke 0 f args = exhausted := by
  rw [invoke]

@[simp] theorem call_zero (c : Callable Names) (args : List (Value Names)) :
    call 0 c args = exhausted := by
  rw [call]

@[simp] theorem callFunction_zero (f : Closure Names) (args : List (Value Names)) :
    callFunction 0 f args = exhausted := by
  rw [callFunction]

/-! ## Function bodies -/

/-- The run of a function body, in the scope of the function with its parameters. -/
def runBody (n : Nat) (f : Closure Names) (args : List (Value Names)) : Eval (Flow Names) := do
  let names ← declareAll f.env f.decl.params args
  executeAll n (.within names) f.decl.body

theorem callFunction_succ (n : Nat) (f : Closure Names) (args : List (Value Names)) :
    callFunction (n + 1) f args = runBody n f args >>= fun flow =>
      if f.isInitializer then lookUp f.env "this"
      else
        match flow with
        | .returned v => pure v
        | .normal => pure .nil := by
  rw [callFunction, runBody]
  simp only [bind_assoc]

/-! ## Programs -/

/-- Runs the statements of a program at the top level. -/
def interpret (fuel : Nat) : List Stmt → Eval Unit
  | [] => pure ()
  | s :: ss => do
    let _ ← execute fuel .top s
    interpret fuel ss

end Eval
end Lexical

end Lox
