import Mathlib
import Lox.Proofs.Safety.Reached

/-!
# Lox.Proofs.Activity.Rules

What holds of every step of an evaluation holds of whole evaluations. A judgement says something of
a computation that starts on a machine, and of what it gives. `Rules` lists the steps for which it has
to be shown; the induction over the evaluator is done here once (`Rules.holdsAt`).
-/

namespace Lox

open Eval

/-! ## Values by what they may refer to -/

/-- Values that refer to nothing in memory: all that operators and constants give. -/
def Value.IsData : Value → Prop
  | .nil | .bool _ | .number _ | .string _ => True
  | _ => False

/-- The property of values holds of what is called. -/
def Callable.Holds (value : Value → Prop) : Callable → Prop
  | .native _ => True
  | .function f => value (.function f)
  | .cls c => value (.cls c)

/-- The property of values holds of what is returned. -/
def Flow.Holds (value : Value → Prop) : Flow → Prop
  | .normal => True
  | .returned v => value v

theorem Value.isData_ofConstant (c : Constant) : (Value.ofConstant c).IsData := by
  cases c <;> trivial

theorem Value.holds_of_callable? {value : Value → Prop} {f : Value} {c : Callable} (hf : value f)
    (h : f.callable? = some c) : c.Holds value := by
  cases f with
  | native n => cases h; trivial
  | function f => cases h; exact hf
  | cls c => cases h; exact hf
  | _ => cases h

namespace Operator

theorem isData_of_unary {operator : Token} {v u : Value} (h : unary operator v = .ok u) :
    u.IsData := by
  unfold unary at h
  split at h
  · cases v <;> cases h
    trivial
  · cases h
    trivial
  · cases h

theorem isData_of_onNumbers {f : Float → Float → Value} (hf : ∀ a b, (f a b).IsData)
    {l r u : Value} (h : onNumbers f l r = .ok u) : u.IsData := by
  unfold onNumbers at h
  split at h
  · cases h
    exact hf _ _
  · cases h

theorem isData_of_add {l r u : Value} (h : add l r = .ok u) : u.IsData := by
  unfold add at h
  split at h <;> cases h <;> trivial

theorem isData_of_map {x : Except RuntimeProblem Bool} {f : Bool → Value}
    (hf : ∀ b, (f b).IsData) {u : Value} (h : x.map f = .ok u) : u.IsData := by
  cases x with
  | error p => cases h
  | ok b =>
    cases h
    exact hf b

theorem isData_of_binary {operator : Token} {l r u : Value} (h : binary l operator r = .ok u) :
    u.IsData := by
  unfold binary at h
  split at h
  case h_1 | h_2 => exact isData_of_map (fun _ => by trivial) h
  case h_3 => exact isData_of_add h
  case h_11 => cases h
  all_goals exact isData_of_onNumbers (fun _ _ => by trivial) h

end Operator

/-! ## Judgements -/

/-- What has to be shown of a judgement on computations: `J Q x m` says that all is well with `x` when
it starts on `m`, and that `Q` holds of what it gives. Activities are those of which `P` holds, values
and frames those that have the given properties. Only code needs the frame it runs in; calls do not. -/
structure Rules (P : Activity → Machine → Prop) (value : Value → Prop) (frame : FrameId → Prop)
    (J : ∀ {α : Type}, (α → Prop) → Eval α → Machine → Prop) : Prop where
  enters {a m a' m'} : Enters a m a' m' → P a m → P a' m'
  data {v} : v.IsData → value v
  env {f} : value (.function f) → frame f.env
  -- Ends and sequences of computations.
  ret {α} {Q : α → Prop} {v m} : Q v → J Q (pure v) m
  fail {α} {Q : α → Prop} {m} (p : RuntimeProblem) : J Q (Computation.fail p) m
  exhausted {α} {Q : α → Prop} {m} : J Q (Computation.exhausted) m
  bind {α β} {Q : α → Prop} {R : β → Prop} {x f m} : J Q x m →
    (∀ v m', x m = .done v m' → m'.current = m.current → Q v → J R (f v) m') → J R (x >>= f) m
  -- Frames.
  inFrame {α} {Q : α → Prop} {x f m} : frame f → J Q x { m with current := f } → J Q (inFrame f x) m
  currentFrame {m} : frame m.current → J frame currentFrame m
  childFrame {e m} : frame e → J frame (childFrame e) m
  -- Variables.
  lookUp {m} (id : RefId) (name : String) : frame m.current → J value (lookUp id name) m
  this {e m} : frame e → J value (readAt e 0 "this") m
  assign {id name v m} : P (.assign id name v) m → frame m.current → value v →
    J (fun _ => True) (assign id name.lexeme v) m
  define {n name init v m m'} : P (.execute (n + 1) (.var name init)) m → frame m'.current →
    value v → J (fun _ => True) (define name.lexeme v) m'
  -- Functions.
  function {n decl m} : P (.execute (n + 1) (.function decl)) m → frame m.current →
    J (fun _ => True) (Eval.define decl.name.lexeme (.function ⟨decl, m.current, false⟩)) m
  native {n f args m} : P (.call (n + 1) (.native f) args) m → (∀ v ∈ args, value v) →
    J value (onWorld (f.run args)) m
  defineAll {n f args e m m'} : P (.callFunction (n + 1) f args) m → (∀ v ∈ args, value v) →
    frame e → J (fun _ => True) (defineAll e f.decl.params args) m'
  -- Classes and instances.
  declareClass {name superclass ms m} : P (.declareClass name superclass ms) m →
    frame m.current → (∀ c, superclass = some c → value (.cls c)) →
    J (fun _ => True) (declareClass name.lexeme superclass ms) m
  newObject {c m} : value (.cls c) → J value (newObject c) m
  initializer {n c args m object m' init} : P (.call (n + 1) (.cls c) args) m →
    value (.cls c) → Eval.newObject c m = .done object m' → value object →
    c.findMethod? initializerName = some init →
    J (fun f => value (.function f)) (bindMethod init object) m'
  property {n object name m c o m'} : P (.evaluate (n + 1) (.get object name)) m →
    evaluate n object m = .done (.object c o) m' → value (.object c o) →
    J value (property c o name.lexeme) m'
  superMethod {n id keyword name m} : P (.evaluate (n + 1) (.superRef id keyword name)) m →
    frame m.current → J value (superMethod id name.lexeme) m
  setField {c o name v m} : value (.object c o) → value v →
    J (fun _ => True) (setField o name v) m

/-- The judgement holds of all evaluations with this much fuel. -/
structure HoldsAt (P : Activity → Machine → Prop) (value : Value → Prop) (frame : FrameId → Prop)
    (J : ∀ {α : Type}, (α → Prop) → Eval α → Machine → Prop) (n : Nat) : Prop where
  execute {s m} : P (.execute n s) m → frame m.current → J (Flow.Holds value) (execute n s) m
  executeAll {ss m} : P (.executeAll n ss) m → frame m.current →
    J (Flow.Holds value) (executeAll n ss) m
  evaluate {e m} : P (.evaluate n e) m → frame m.current → J value (evaluate n e) m
  evaluateOption {e m} : P (.evaluateOption n e) m → frame m.current →
    J value (evaluateOption n e) m
  evaluateAll {es m} : P (.evaluateAll n es) m → frame m.current →
    J (fun vs => ∀ v ∈ vs, value v) (evaluateAll n es) m
  invoke {f args m} : P (.invoke n f args) m → value f → (∀ v ∈ args, value v) →
    J value (invoke n f args) m
  call {c args m} : P (.call n c args) m → c.Holds value → (∀ v ∈ args, value v) →
    J value (call n c args) m
  callFunction {f args m} : P (.callFunction n f args) m → value (.function f) →
    (∀ v ∈ args, value v) → J value (callFunction n f args) m

namespace Rules

variable {P : Activity → Machine → Prop} {value : Value → Prop} {frame : FrameId → Prop}
  {J : ∀ {α : Type}, (α → Prop) → Eval α → Machine → Prop} (rules : Rules P value frame J)
include rules

theorem ofExcept {r : Except RuntimeProblem Value} (h : ∀ v, r = .ok v → v.IsData) {m : Machine} :
    J value (Computation.ofExcept r) m := by
  cases r with
  | ok v => exact rules.ret (rules.data (h v rfl))
  | error p => exact rules.fail p

theorem zero : HoldsAt P value frame J 0 where
  execute _ _ := by rw [execute_zero]; exact rules.exhausted
  executeAll _ _ := by rw [executeAll_zero]; exact rules.exhausted
  evaluate _ _ := by rw [evaluate_zero]; exact rules.exhausted
  evaluateOption _ _ := by rw [evaluateOption_zero]; exact rules.exhausted
  evaluateAll _ _ := by rw [evaluateAll_zero]; exact rules.exhausted
  invoke _ _ _ := by rw [invoke_zero]; exact rules.exhausted
  call _ _ _ := by rw [call_zero]; exact rules.exhausted
  callFunction _ _ _ := by rw [callFunction_zero]; exact rules.exhausted

variable {n : Nat} {m m' : Machine} (ih : HoldsAt P value frame J n)
include ih

/-! What is left of a statement or an expression when its first part is done. -/

theorem binary {l r : Expr} {operator : Token} {v : Value}
    (h : P (.evaluate (n + 1) (.binary l operator r)) m) (hv : evaluate n l m = .done v m')
    (hc : frame m'.current) :
    J value (do
      let u ← evaluate n r
      Computation.ofExcept (Operator.binary v operator u)) m' :=
  rules.bind (ih.evaluate (rules.enters (.binaryRight hv) h) hc) fun _ _ _ _ _ =>
    rules.ofExcept fun _ => Operator.isData_of_binary

theorem logical {l r : Expr} {operator : Token} {v : Value}
    (h : P (.evaluate (n + 1) (.logical l operator r)) m) (hv : evaluate n l m = .done v m')
    (hc : frame m'.current) (hval : value v) :
    J value (if Operator.isDecided operator v then pure v else evaluate n r) m' := by
  split
  · exact rules.ret hval
  · rename_i hd
    exact ih.evaluate (rules.enters (.logicalRight hv (by simpa using hd)) h) hc

theorem arguments {callee : Expr} {paren : Token} {args : List Expr} {f : Value}
    (h : P (.evaluate (n + 1) (.call callee paren args)) m)
    (hf : evaluate n callee m = .done f m') (hc : frame m'.current) (hval : value f) :
    J value (do
      let vs ← evaluateAll n args
      invoke n f vs) m' :=
  rules.bind (ih.evaluateAll (rules.enters (.arguments hf) h) hc) fun _ _ hvs _ hvals =>
    ih.invoke (rules.enters (.invoke hf hvs) h) hval hvals

theorem ifThen {condition : Expr} {yes : Stmt} {v : Value}
    (h : P (.execute (n + 1) (.ifThen condition yes)) m)
    (hv : evaluate n condition m = .done v m') (hc : frame m'.current) :
    J (Flow.Holds value) (if v.isTruthy then execute n yes else pure .normal) m' := by
  split
  · rename_i ht
    exact ih.execute (rules.enters (.ifYes hv ht) h) hc
  · exact rules.ret trivial

theorem ifElse {condition : Expr} {yes no : Stmt} {v : Value}
    (h : P (.execute (n + 1) (.ifElse condition yes no)) m)
    (hv : evaluate n condition m = .done v m') (hc : frame m'.current) :
    J (Flow.Holds value) (if v.isTruthy then execute n yes else execute n no) m' := by
  split
  · rename_i ht
    exact ih.execute (rules.enters (.elseYes hv ht) h) hc
  · rename_i ht
    exact ih.execute (rules.enters (.elseNo hv (by simpa using ht)) h) hc

theorem loop {condition : Expr} {body : Stmt} {v : Value}
    (h : P (.execute (n + 1) (.loop condition body)) m)
    (hv : evaluate n condition m = .done v m') (hc : frame m'.current) :
    J (Flow.Holds value) (if v.isTruthy then do
        match ← execute n body with
        | .returned r => pure (.returned r)
        | .normal => execute n (.loop condition body)
      else pure .normal) m' := by
  split
  · rename_i ht
    refine rules.bind (ih.execute (rules.enters (.loopBody hv ht) h) hc) fun flow _ hb hcur hflow => ?_
    cases flow with
    | returned r => exact rules.ret hflow
    | normal => exact ih.execute (rules.enters (.loopAgain hv ht hb) h) (hcur ▸ hc)
  · exact rules.ret trivial

/-! Whole statements, expressions and calls. -/

theorem evaluate_succ {e : Expr} (h : P (.evaluate (n + 1) e) m) (hc : frame m.current) :
    J value (evaluate (n + 1) e) m := by
  cases e with
  | constant c =>
    rw [Eval.evaluate]
    exact rules.ret (rules.data (Value.isData_ofConstant c))
  | grouping e =>
    rw [Eval.evaluate]
    exact ih.evaluate (rules.enters .grouping h) hc
  | unary operator e =>
    rw [Eval.evaluate]
    exact rules.bind (ih.evaluate (rules.enters .unary h) hc) fun v _ _ _ _ =>
      rules.ofExcept fun _ => Operator.isData_of_unary
  | binary l operator r =>
    rw [Eval.evaluate]
    exact rules.bind (ih.evaluate (rules.enters .binaryLeft h) hc) fun _ _ hl hcur _ =>
      rules.binary ih h hl (hcur ▸ hc)
  | logical l operator r =>
    rw [Eval.evaluate]
    exact rules.bind (ih.evaluate (rules.enters .logicalLeft h) hc) fun _ _ hl hcur hv =>
      rules.logical ih h hl (hcur ▸ hc) hv
  | var id name =>
    rw [Eval.evaluate]
    exact rules.lookUp _ _ hc
  | assign id name e =>
    rw [Eval.evaluate]
    refine rules.bind (ih.evaluate (rules.enters .assignValue h) hc) fun v _ hd hcur hv => ?_
    exact rules.bind (rules.assign (rules.enters (.assign hd) h) (hcur ▸ hc) hv) fun _ _ _ _ _ =>
      rules.ret hv
  | call callee paren args =>
    rw [Eval.evaluate]
    exact rules.bind (ih.evaluate (rules.enters .callee h) hc) fun _ _ hf hcur hv =>
      rules.arguments ih h hf (hcur ▸ hc) hv
  | get object name =>
    rw [Eval.evaluate]
    refine rules.bind (ih.evaluate (rules.enters .getObject h) hc) fun v _ hd _ hv => ?_
    cases v with
    | object c o => exact rules.property h hd hv
    | _ => exact rules.fail _
  | set object name e =>
    rw [Eval.evaluate]
    refine rules.bind (ih.evaluate (rules.enters .setObject h) hc) fun v _ hd hcur hv => ?_
    cases v with
    | object c o =>
      have hvalue := ih.evaluate (rules.enters (.setValue hd) h) (hcur ▸ hc)
      refine rules.bind hvalue fun u _ _ _ hu => ?_
      exact rules.bind (rules.setField hv hu) fun _ _ _ _ _ => rules.ret hu
    | _ => exact rules.fail _
  | thisRef id keyword =>
    rw [Eval.evaluate]
    exact rules.lookUp _ _ hc
  | superRef id keyword method =>
    rw [Eval.evaluate]
    exact rules.superMethod h hc
  | unparsed =>
    rw [Eval.evaluate]
    exact rules.fail _

theorem execute_succ {s : Stmt} (h : P (.execute (n + 1) s) m) (hc : frame m.current) :
    J (Flow.Holds value) (execute (n + 1) s) m := by
  cases s with
  | expression e =>
    rw [Eval.execute]
    exact rules.bind (ih.evaluate (rules.enters .expression h) hc) fun _ _ _ _ _ => rules.ret trivial
  | var name init =>
    rw [Eval.execute]
    refine rules.bind (ih.evaluateOption (rules.enters .var h) hc) fun v _ _ hcur hv => ?_
    exact rules.bind (rules.define h (hcur ▸ hc) hv) fun _ _ _ _ _ => rules.ret trivial
  | block body =>
    rw [Eval.execute]
    refine rules.bind (rules.currentFrame hc) fun here _ hd _ hh => ?_
    cases hd
    refine rules.bind (rules.childFrame hh) fun f _ hf _ hframe => rules.inFrame hframe ?_
    exact ih.executeAll (rules.enters (.block hf) h) hframe
  | ifThen condition yes =>
    rw [Eval.execute]
    exact rules.bind (ih.evaluate (rules.enters .ifCondition h) hc) fun _ _ hv hcur _ =>
      rules.ifThen ih h hv (hcur ▸ hc)
  | ifElse condition yes no =>
    rw [Eval.execute]
    exact rules.bind (ih.evaluate (rules.enters .elseCondition h) hc) fun _ _ hv hcur _ =>
      rules.ifElse ih h hv (hcur ▸ hc)
  | loop condition body =>
    rw [Eval.execute]
    exact rules.bind (ih.evaluate (rules.enters .loopCondition h) hc) fun _ _ hv hcur _ =>
      rules.loop ih h hv (hcur ▸ hc)
  | function decl =>
    rw [Eval.execute]
    refine rules.bind (rules.currentFrame hc) fun here _ hd _ _ => ?_
    cases hd
    exact rules.bind (rules.function h hc) fun _ _ _ _ _ => rules.ret trivial
  | ret keyword e =>
    rw [Eval.execute]
    exact rules.bind (ih.evaluateOption (rules.enters .ret h) hc) fun _ _ _ _ hv => rules.ret hv
  | cls name superclass ms =>
    cases superclass with
    | none =>
      rw [Eval.execute]
      have hdeclare := rules.declareClass (rules.enters .baseClass h) hc fun _ hc => by cases hc
      exact rules.bind hdeclare fun _ _ _ _ _ => rules.ret trivial
    | some e =>
      rw [Eval.execute]
      refine rules.bind (ih.evaluate (rules.enters .superclass h) hc) fun v _ hd hcur hv => ?_
      cases v with
      | cls c =>
        have hdeclare := rules.declareClass (rules.enters (.derivedClass hd) h) (hcur ▸ hc)
          fun _ hc => by cases hc; exact hv
        exact rules.bind hdeclare fun _ _ _ _ _ => rules.ret trivial
      | _ => exact rules.fail _

theorem executeAll_succ {ss : List Stmt} (h : P (.executeAll (n + 1) ss) m)
    (hc : frame m.current) : J (Flow.Holds value) (executeAll (n + 1) ss) m := by
  cases ss with
  | nil =>
    rw [Eval.executeAll]
    exact rules.ret trivial
  | cons s ss =>
    rw [Eval.executeAll]
    refine rules.bind (ih.execute (rules.enters .firstStatement h) hc) fun flow _ hs hcur hflow => ?_
    cases flow with
    | returned v => exact rules.ret hflow
    | normal => exact ih.executeAll (rules.enters (.moreStatements hs) h) (hcur ▸ hc)

theorem evaluateOption_succ {e : Option Expr} (h : P (.evaluateOption (n + 1) e) m)
    (hc : frame m.current) : J value (evaluateOption (n + 1) e) m := by
  cases e with
  | none =>
    rw [Eval.evaluateOption]
    exact rules.ret (rules.data trivial)
  | some e =>
    rw [Eval.evaluateOption]
    exact ih.evaluate (rules.enters .option h) hc

theorem evaluateAll_succ {es : List Expr} (h : P (.evaluateAll (n + 1) es) m)
    (hc : frame m.current) : J (fun vs => ∀ v ∈ vs, value v) (evaluateAll (n + 1) es) m := by
  cases es with
  | nil =>
    rw [Eval.evaluateAll]
    exact rules.ret fun _ hv => absurd hv List.not_mem_nil
  | cons e es =>
    rw [Eval.evaluateAll]
    refine rules.bind (ih.evaluate (rules.enters .firstArgument h) hc) fun v _ hd hcur hv => ?_
    have hrest := ih.evaluateAll (rules.enters (.moreArguments hd) h) (hcur ▸ hc)
    exact rules.bind hrest fun vs _ _ _ hvs => rules.ret (List.forall_mem_cons.2 ⟨hv, hvs⟩)

theorem invoke_succ {f : Value} {args : List Value} (h : P (.invoke (n + 1) f args) m)
    (hf : value f) (hargs : ∀ v ∈ args, value v) : J value (invoke (n + 1) f args) m := by
  rw [Eval.invoke]
  cases hc : f.callable? with
  | none => exact rules.fail _
  | some c =>
    dsimp only
    split
    · rename_i hlen
      exact ih.call (rules.enters (.call hc hlen) h) (Value.holds_of_callable? hf hc) hargs
    · exact rules.fail _

theorem call_succ {c : Callable} {args : List Value} (h : P (.call (n + 1) c args) m)
    (hc : c.Holds value) (hargs : ∀ v ∈ args, value v) : J value (call (n + 1) c args) m := by
  cases c with
  | native f =>
    rw [Eval.call]
    exact rules.native h hargs
  | function f =>
    rw [Eval.call]
    exact ih.callFunction (rules.enters .function h) hc hargs
  | cls c =>
    rw [Eval.call]
    refine rules.bind (rules.newObject hc) fun object _ ho _ hobject => ?_
    cases hi : c.findMethod? initializerName with
    | none => exact rules.ret hobject
    | some init =>
      refine rules.bind (rules.initializer h hc ho hobject hi) fun bound _ hb _ hbound => ?_
      exact rules.bind (ih.callFunction (rules.enters (.initializer ho hi hb) h) hbound hargs)
        fun _ _ _ _ _ => rules.ret hobject

theorem runBody {f : Closure} {args : List Value} (h : P (.callFunction (n + 1) f args) m)
    (hf : value (.function f)) (hargs : ∀ v ∈ args, value v) :
    J (Flow.Holds value) (runBody n f args) m := by
  unfold Eval.runBody
  refine rules.bind (rules.childFrame (rules.env hf)) fun e _ he _ hframe => ?_
  refine rules.bind (rules.defineAll h hargs hframe) fun _ _ hp _ _ => rules.inFrame hframe ?_
  exact ih.executeAll (rules.enters (.body he hp) h) hframe

theorem callFunction_succ {f : Closure} {args : List Value}
    (h : P (.callFunction (n + 1) f args) m) (hf : value (.function f))
    (hargs : ∀ v ∈ args, value v) : J value (callFunction (n + 1) f args) m := by
  rw [Eval.callFunction_succ]
  refine rules.bind (rules.runBody ih h hf hargs) fun flow _ _ _ hflow => ?_
  split
  · exact rules.this (rules.env hf)
  · cases flow with
    | returned v => exact rules.ret hflow
    | normal => exact rules.ret (rules.data trivial)

theorem succ : HoldsAt P value frame J (n + 1) where
  execute := rules.execute_succ ih
  executeAll := rules.executeAll_succ ih
  evaluate := rules.evaluate_succ ih
  evaluateOption := rules.evaluateOption_succ ih
  evaluateAll := rules.evaluateAll_succ ih
  invoke := rules.invoke_succ ih
  call := rules.call_succ ih
  callFunction := rules.callFunction_succ ih

omit ih

theorem holdsAt : ∀ n, HoldsAt P value frame J n
  | 0 => rules.zero
  | n + 1 => rules.succ (holdsAt n)

theorem runAll {ss : List Stmt} : ∀ {m : Machine}, P (.program n ss) m → frame m.current →
    J (fun _ => True) (runAll n ss) m := by
  induction ss with
  | nil => exact fun _ _ => rules.ret trivial
  | cons s ss ih =>
    intro m h hc
    rw [Eval.runAll]
    have hs : P (.execute n s) m := rules.enters .statement (rules.enters .programHead h)
    exact rules.bind ((rules.holdsAt n).execute hs hc) fun _ _ hd hcur _ =>
      ih (rules.enters (.programTail hd) h) (hcur ▸ hc)

end Rules

end Lox
