import Lox.Machine
import Lox.Operator

/-!
# Lox.Eval

Running programs on a machine. Fuel bounds the depth of the evaluation, the rounds of a loop
included; more fuel never changes a finished result.
-/

namespace Lox

/-- How a statement ends: by running on, or by returning from the function it is in. -/
inductive Flow (ε : Type := FrameId) where
  | normal
  | returned (v : Value ε)

namespace Eval

open Lox.Computation

/-- The methods of a class, closing over one environment. Of two methods of one name the later counts. -/
def methodTable {ε : Type} (env : ε) (methods : List FunctionDecl) : Bindings (Closure ε) :=
  methods.foldl
    (fun table d => table.insert d.name.lexeme ⟨d, env, d.isInitializer⟩) .empty

/-- A property of an instance: a field, or else a method bound to it. -/
def property (c : Class) (fields : ObjectId) (name : String) : Eval Value := do
  match ← field? fields name with
  | some v => pure v
  | none =>
    match c.findMethod? name with
    | some f =>
      let bound ← bindMethod f (.object c fields)
      pure (.function bound)
    | none => fail (.undefinedProperty name)

/-- The frame that holds the superclass encloses the one that holds the receiver. -/
def superMethod (id : RefId) (method : String) : Eval Value := do
  match ← distanceOf? id with
  | none => fail .superOutsideClass
  | some d =>
    let frame ← currentFrame
    let superclass ← readAt frame d "super"
    let receiver ← readAt frame (d - 1) "this"
    match superclass, receiver with
    | .cls c, .object _ _ =>
      match c.findMethod? method with
      | some f =>
        let bound ← bindMethod f receiver
        pure (.function bound)
      | none => fail (.undefinedProperty method)
    | _, _ => fail .invalidSuper

/-- Declares a class in the current frame. Its name is bound before its methods are made; a class
with a superclass gets a frame for it around its methods. -/
def declareClass (name : String) (superclass : Option Class) (methods : List FunctionDecl) :
    Eval Unit := do
  define name .nil
  let here ← currentFrame
  match superclass with
  | none => assignOutward name (.cls (.base name (methodTable here methods)))
  | some c =>
    let frame ← childFrame here
    defineIn frame "super" (.cls c)
    assignOutward name (.cls (.derived name c (methodTable frame methods)))

mutual

def execute : Nat → Stmt → Eval Flow
  | 0, _ => exhausted
  | n + 1, .expression e => do
    let _ ← evaluate n e
    pure .normal
  | n + 1, .var name init => do
    let v ← evaluateOption n init
    define name.lexeme v
    pure .normal
  | n + 1, .block body => do
    let here ← currentFrame
    let frame ← childFrame here
    inFrame frame (executeAll n body)
  | n + 1, .ifThen condition yes => do
    let v ← evaluate n condition
    if v.isTruthy then execute n yes else pure .normal
  | n + 1, .ifElse condition yes no => do
    let v ← evaluate n condition
    if v.isTruthy then execute n yes else execute n no
  | n + 1, .loop condition body => do
    let v ← evaluate n condition
    if v.isTruthy then
      match ← execute n body with
      | .returned r => pure (.returned r)
      | .normal => execute n (.loop condition body)
    else pure .normal
  | _ + 1, .function decl => do
    let here ← currentFrame
    define decl.name.lexeme (.function ⟨decl, here, false⟩)
    pure .normal
  | n + 1, .ret _ value => do
    let v ← evaluateOption n value
    pure (.returned v)
  | _ + 1, .cls name none methods => do
    declareClass name.lexeme none methods
    pure .normal
  | n + 1, .cls name (some superclass) methods => do
    match ← evaluate n superclass with
    | .cls c =>
      declareClass name.lexeme (some c) methods
      pure .normal
    | _ => fail .superclassNotClass

/-- Statements in order, up to the first that returns. -/
def executeAll : Nat → List Stmt → Eval Flow
  | 0, _ => exhausted
  | _ + 1, [] => pure .normal
  | n + 1, s :: ss => do
    match ← execute n s with
    | .returned v => pure (.returned v)
    | .normal => executeAll n ss

def evaluate : Nat → Expr → Eval Value
  | 0, _ => exhausted
  | _ + 1, .constant c => pure (.ofConstant c)
  | n + 1, .grouping e => evaluate n e
  | n + 1, .unary operator e => do
    let v ← evaluate n e
    ofExcept (Operator.unary operator v)
  | n + 1, .binary left operator right => do
    let l ← evaluate n left
    let r ← evaluate n right
    ofExcept (Operator.binary l operator r)
  | n + 1, .logical left operator right => do
    let l ← evaluate n left
    if Operator.isDecided operator l then pure l else evaluate n right
  | _ + 1, .var id name => lookUp id name.lexeme
  | n + 1, .assign id name value => do
    let v ← evaluate n value
    assign id name.lexeme v
    pure v
  | n + 1, .call callee _ args => do
    let f ← evaluate n callee
    let vs ← evaluateAll n args
    invoke n f vs
  | n + 1, .get object name => do
    match ← evaluate n object with
    | .object c fields => property c fields name.lexeme
    | _ => fail .noProperties
  | n + 1, .set object name value => do
    match ← evaluate n object with
    | .object _ fields =>
      let v ← evaluate n value
      setField fields name.lexeme v
      pure v
    | _ => fail .noFields
  | _ + 1, .thisRef id keyword => lookUp id keyword.lexeme
  | _ + 1, .superRef id _ method => superMethod id method.lexeme
  | _ + 1, .unparsed => fail .unparsedExpression

/-- A missing expression stands for nil. -/
def evaluateOption : Nat → Option Expr → Eval Value
  | 0, _ => exhausted
  | _ + 1, none => pure .nil
  | n + 1, some e => evaluate n e

def evaluateAll : Nat → List Expr → Eval (List Value)
  | 0, _ => exhausted
  | _ + 1, [] => pure []
  | n + 1, e :: es => do
    let v ← evaluate n e
    let vs ← evaluateAll n es
    pure (v :: vs)

/-- A call written in a program: the value must be callable and the arguments as many as it takes. -/
def invoke : Nat → Value → List Value → Eval Value
  | 0, _, _ => exhausted
  | n + 1, callee, args =>
    match callee.callable? with
    | none => fail .notCallable
    | some c =>
      if args.length = c.arity then call n c args
      else fail (.wrongArity c.arity args.length)

/-- A call without a check on the number of arguments. A class makes an instance and runs its
initializer, if it has one, for effect. -/
def call : Nat → Callable → List Value → Eval Value
  | 0, _, _ => exhausted
  | _ + 1, .native f, args => onWorld (f.run args)
  | n + 1, .function f, args => callFunction n f args
  | n + 1, .cls c, args => do
    let object ← newObject c
    match c.findMethod? initializerName with
    | none => pure object
    | some init =>
      let bound ← bindMethod init object
      let _ ← callFunction n bound args
      pure object

/-- Parameters without an argument stay unbound, and arguments without a parameter are dropped. An
initializer yields its receiver whatever it returns. -/
def callFunction : Nat → Closure → List Value → Eval Value
  | 0, _, _ => exhausted
  | n + 1, f, args => do
    let frame ← childFrame f.env
    defineAll frame f.decl.params args
    let flow ← inFrame frame (executeAll n f.decl.body)
    if f.isInitializer then readAt f.env 0 "this"
    else
      match flow with
      | .returned v => pure v
      | .normal => pure .nil

end

/-! ## Without fuel nothing runs -/

@[simp] theorem execute_zero (s : Stmt) : execute 0 s = exhausted := by rw [execute]

@[simp] theorem executeAll_zero (ss : List Stmt) : executeAll 0 ss = exhausted := by rw [executeAll]

@[simp] theorem evaluate_zero (e : Expr) : evaluate 0 e = exhausted := by rw [evaluate]

@[simp] theorem evaluateOption_zero (e : Option Expr) : evaluateOption 0 e = exhausted := by
  rw [evaluateOption]

@[simp] theorem evaluateAll_zero (es : List Expr) : evaluateAll 0 es = exhausted := by
  rw [evaluateAll]

@[simp] theorem invoke_zero (f : Value) (args : List Value) : invoke 0 f args = exhausted := by
  rw [invoke]

@[simp] theorem call_zero (c : Callable) (args : List Value) : call 0 c args = exhausted := by
  rw [call]

@[simp] theorem callFunction_zero (f : Closure) (args : List Value) :
    callFunction 0 f args = exhausted := by
  rw [callFunction]

/-! ## Function bodies -/

/-- The run of a function body, in a frame of its own. -/
def runBody (n : Nat) (f : Closure) (args : List Value) : Eval Flow := do
  let frame ← childFrame f.env
  defineAll frame f.decl.params args
  inFrame frame (executeAll n f.decl.body)

theorem callFunction_succ (n : Nat) (f : Closure) (args : List Value) :
    callFunction (n + 1) f args = runBody n f args >>= fun flow =>
      if f.isInitializer then readAt f.env 0 "this"
      else
        match flow with
        | .returned v => pure v
        | .normal => pure .nil := by
  rw [callFunction, runBody]
  simp only [bind_assoc]

/-! ## Programs -/

/-- Adds distances for the references of newly parsed code. -/
def addLocals (locals : Locals) : Eval Unit := fun m =>
  .done () { m with locals := locals.merge m.locals }

/-- Runs the statements of a program. One that returns does not end it. -/
def runAll (fuel : Nat) : List Stmt → Eval Unit
  | [] => pure ()
  | s :: ss => do
    let _ ← execute fuel s
    runAll fuel ss

/-- Runs a program whose references have the given distances. -/
def interpret (fuel : Nat) (program : List Stmt) (locals : Locals) : Eval Unit := do
  addLocals locals
  runAll fuel program

end Eval
end Lox
