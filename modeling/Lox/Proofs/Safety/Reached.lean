import Lox.Session

/-!
# Lox.Proofs.Safety.Reached

Everything that happens while sessions run. An activity is one call of the evaluator; `Enters` says
which activities it is made of, and on which machine each of them starts (one rule for each place
where the evaluator calls itself or writes a variable). What sessions ever do is what is reached that
way from the top level of their programs (`Reached`).
-/

namespace Lox

inductive Activity where
  /-- The statements of a program that are still to run. -/
  | program (n : Nat) (ss : List Stmt)
  /-- A statement of a program itself. -/
  | statement (n : Nat) (s : Stmt)
  | execute (n : Nat) (s : Stmt)
  | executeAll (n : Nat) (ss : List Stmt)
  | evaluate (n : Nat) (e : Expr)
  | evaluateOption (n : Nat) (e : Option Expr)
  | evaluateAll (n : Nat) (es : List Expr)
  | assign (id : RefId) (name : Token) (v : Value)
  | declareClass (name : Token) (superclass : Option Class) (methods : List FunctionDecl)
  | invoke (n : Nat) (f : Value) (args : List Value)
  | call (n : Nat) (c : Callable) (args : List Value)
  | callFunction (n : Nat) (f : Closure) (args : List Value)

open Eval

/-- The first activity, started on the first machine, comes to the second one on the second. -/
inductive Enters : Activity → Machine → Activity → Machine → Prop
  | programHead {n s ss m} : Enters (.program n (s :: ss)) m (.statement n s) m
  | programTail {n s ss m flow m'} : execute n s m = .done flow m' →
      Enters (.program n (s :: ss)) m (.program n ss) m'
  | statement {n s m} : Enters (.statement n s) m (.execute n s) m
  | expression {n e m} : Enters (.execute (n + 1) (.expression e)) m (.evaluate n e) m
  | var {n name init m} :
      Enters (.execute (n + 1) (.var name init)) m (.evaluateOption n init) m
  | block {n body m frame m'} : childFrame m.current m = .done frame m' →
      Enters (.execute (n + 1) (.block body)) m (.executeAll n body) { m' with current := frame }
  | ifCondition {n condition yes m} :
      Enters (.execute (n + 1) (.ifThen condition yes)) m (.evaluate n condition) m
  | ifYes {n condition yes m v m'} : evaluate n condition m = .done v m' → v.isTruthy = true →
      Enters (.execute (n + 1) (.ifThen condition yes)) m (.execute n yes) m'
  | elseCondition {n condition yes no m} :
      Enters (.execute (n + 1) (.ifElse condition yes no)) m (.evaluate n condition) m
  | elseYes {n condition yes no m v m'} : evaluate n condition m = .done v m' →
      v.isTruthy = true → Enters (.execute (n + 1) (.ifElse condition yes no)) m (.execute n yes) m'
  | elseNo {n condition yes no m v m'} : evaluate n condition m = .done v m' →
      v.isTruthy = false → Enters (.execute (n + 1) (.ifElse condition yes no)) m (.execute n no) m'
  | loopCondition {n condition body m} :
      Enters (.execute (n + 1) (.loop condition body)) m (.evaluate n condition) m
  | loopBody {n condition body m v m'} : evaluate n condition m = .done v m' →
      v.isTruthy = true → Enters (.execute (n + 1) (.loop condition body)) m (.execute n body) m'
  | loopAgain {n condition body m v m' m''} : evaluate n condition m = .done v m' →
      v.isTruthy = true → execute n body m' = .done .normal m'' →
      Enters (.execute (n + 1) (.loop condition body)) m (.execute n (.loop condition body)) m''
  | ret {n keyword value m} :
      Enters (.execute (n + 1) (.ret keyword value)) m (.evaluateOption n value) m
  | baseClass {n name ms m} :
      Enters (.execute (n + 1) (.cls name none ms)) m (.declareClass name none ms) m
  | superclass {n name e ms m} :
      Enters (.execute (n + 1) (.cls name (some e) ms)) m (.evaluate n e) m
  | derivedClass {n name e ms m c m'} : evaluate n e m = .done (.cls c) m' →
      Enters (.execute (n + 1) (.cls name (some e) ms)) m (.declareClass name (some c) ms) m'
  | firstStatement {n s ss m} : Enters (.executeAll (n + 1) (s :: ss)) m (.execute n s) m
  | moreStatements {n s ss m m'} : execute n s m = .done .normal m' →
      Enters (.executeAll (n + 1) (s :: ss)) m (.executeAll n ss) m'
  | grouping {n e m} : Enters (.evaluate (n + 1) (.grouping e)) m (.evaluate n e) m
  | unary {n operator e m} : Enters (.evaluate (n + 1) (.unary operator e)) m (.evaluate n e) m
  | binaryLeft {n l operator r m} :
      Enters (.evaluate (n + 1) (.binary l operator r)) m (.evaluate n l) m
  | binaryRight {n l operator r m v m'} : evaluate n l m = .done v m' →
      Enters (.evaluate (n + 1) (.binary l operator r)) m (.evaluate n r) m'
  | logicalLeft {n l operator r m} :
      Enters (.evaluate (n + 1) (.logical l operator r)) m (.evaluate n l) m
  | logicalRight {n l operator r m v m'} : evaluate n l m = .done v m' →
      Operator.isDecided operator v = false →
      Enters (.evaluate (n + 1) (.logical l operator r)) m (.evaluate n r) m'
  | assignValue {n id name e m} :
      Enters (.evaluate (n + 1) (.assign id name e)) m (.evaluate n e) m
  | assign {n id name e m v m'} : evaluate n e m = .done v m' →
      Enters (.evaluate (n + 1) (.assign id name e)) m (.assign id name v) m'
  | callee {n callee paren args m} :
      Enters (.evaluate (n + 1) (.call callee paren args)) m (.evaluate n callee) m
  | arguments {n callee paren args m f m'} : evaluate n callee m = .done f m' →
      Enters (.evaluate (n + 1) (.call callee paren args)) m (.evaluateAll n args) m'
  | invoke {n callee paren args m f m' vs m''} : evaluate n callee m = .done f m' →
      evaluateAll n args m' = .done vs m'' →
      Enters (.evaluate (n + 1) (.call callee paren args)) m (.invoke n f vs) m''
  | getObject {n object name m} :
      Enters (.evaluate (n + 1) (.get object name)) m (.evaluate n object) m
  | setObject {n object name value m} :
      Enters (.evaluate (n + 1) (.set object name value)) m (.evaluate n object) m
  | setValue {n object name value m c o m'} : evaluate n object m = .done (.object c o) m' →
      Enters (.evaluate (n + 1) (.set object name value)) m (.evaluate n value) m'
  | option {n e m} : Enters (.evaluateOption (n + 1) (some e)) m (.evaluate n e) m
  | firstArgument {n e es m} : Enters (.evaluateAll (n + 1) (e :: es)) m (.evaluate n e) m
  | moreArguments {n e es m v m'} : evaluate n e m = .done v m' →
      Enters (.evaluateAll (n + 1) (e :: es)) m (.evaluateAll n es) m'
  | call {n f c args m} : f.callable? = some c → args.length = c.arity →
      Enters (.invoke (n + 1) f args) m (.call n c args) m
  | function {n f args m} : Enters (.call (n + 1) (.function f) args) m (.callFunction n f args) m
  | initializer {n c args m object m' init bound m''} : newObject c m = .done object m' →
      c.findMethod? initializerName = some init → bindMethod init object m' = .done bound m'' →
      Enters (.call (n + 1) (.cls c) args) m (.callFunction n bound args) m''
  | body {n f args m frame m' m''} : childFrame f.env m = .done frame m' →
      defineAll frame f.decl.params args m' = .done () m'' →
      Enters (.callFunction (n + 1) f args) m (.executeAll n f.decl.body)
        { m'' with current := frame }

/-- The sessions that there may be, each run with fuel of its own. -/
inductive Session.Reached : Session → Prop
  | new (sink : Sink) (clock : Nat → Float) : Reached (.new sink clock)
  | reset {s} : Reached s → Reached s.reset
  | run {s fuel source s' status} : Reached s → s.run fuel source = some (s', status) → Reached s'

/-- The activities that there may be, and the machines on which they start. -/
inductive Reached : Activity → Machine → Prop
  | program {s s' : Session} {source ss} (n : Nat) : s.Reached → s.check source = (s', some ss) →
      Reached (.program n ss)
        { s'.machine with locals := (Locals.ofProgram ss).merge s'.machine.locals }
  | enter {a m a' m'} : Reached a m → Enters a m a' m' → Reached a' m'

/-- What the static checks are there for, activity by activity. -/
def Activity.Safe : Activity → Machine → Prop
  -- A program does not return.
  | .statement n s, m => ∀ v m', Eval.execute n s m ≠ .done (.returned v) m'
  -- A variable with a distance is found there, and so are the receiver and the superclass always.
  | .evaluate _ (.var id name), m =>
    ∀ d, m.locals.find? id = some d → ∃ v, m.store.getAt? m.current d name.lexeme = some v
  | .evaluate _ (.thisRef id keyword), m =>
    ∃ d c o, m.locals.find? id = some d ∧
      m.store.getAt? m.current d keyword.lexeme = some (.object c o)
  | .evaluate _ (.superRef id _ _), m =>
    ∃ d c c' o, m.locals.find? id = some d ∧ m.store.getAt? m.current d "super" = some (.cls c) ∧
      m.store.getAt? m.current (d - 1) "this" = some (.object c' o)
  | .evaluate _ .unparsed, _ => False
  | .evaluate _ (.unary operator _), _ =>
    ∀ v lexeme, Operator.unary operator (v : Value) ≠ .error (.unknownUnary lexeme)
  | .evaluate _ (.binary _ operator _), _ =>
    ∀ v v' lexeme l r,
      Operator.binary (v : Value) operator v' ≠ .error (.unknownBinary lexeme l r)
  -- A write at a distance is done there, and the last step of a class declaration finds its name.
  | .assign id name v, m =>
    ∀ d, m.locals.find? id = some d → ∃ m', Eval.assign id name.lexeme v m = .done () m' ∧
      m'.store.getAt? m.current d name.lexeme = some v
  | .declareClass name superclass methods, m =>
    ∃ m', Eval.declareClass name.lexeme superclass methods m = .done () m'
  -- The body of an initializer returns no value, and the receiver is there to be returned.
  | .callFunction (n + 1) f args, m => f.isInitializer = true →
    ∀ flow m', runBody n f args m = .done flow m' →
      (∀ v, flow = .returned v → v = .nil) ∧ ∃ c o, m'.store.getAt? f.env 0 "this" = some (.object c o)
  | _, _ => True

end Lox
