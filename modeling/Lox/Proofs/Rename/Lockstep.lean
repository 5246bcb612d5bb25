import Lox.Proofs.Rename.Computations

/-!
# Lox.Proofs.Rename.Lockstep

The evaluator runs twin programs alike (`twinAt`). The induction is on the fuel, which both runs spend
in the same places; each form of the source is one lemma over the statement for less fuel.
-/

namespace Lox

/-- Statements that end alike. -/
inductive Flow.Twin (p : RefId → RefId → Prop) : Flow → Flow → Prop
  | normal : Twin p .normal .normal
  | returned {v v' : Value} : v.Twin p v' → Twin p (.returned v) (.returned v')

namespace Eval

open Lox.Computation

variable {w : Renaming}

/-! ## Classes -/

theorem twin_methodTable (env : FrameId) {p : RefId → RefId → Prop} {ms ms' : List FunctionDecl}
    (h : FunctionDecl.AllTwin p ms ms') :
    Bindings.Twin (Closure.Twin p) (methodTable env ms) (methodTable env ms') := by
  have hfold (table table' : Bindings Closure) (ht : Bindings.Twin (Closure.Twin p) table table') :
      Bindings.Twin (Closure.Twin p)
        (ms.foldl (fun t d => t.insert d.name.lexeme ⟨d, env, d.isInitializer⟩) table)
        (ms'.foldl (fun t d => t.insert d.name.lexeme ⟨d, env, d.isInitializer⟩) table') := by
    induction ms generalizing ms' table table' with
    | nil =>
      cases h
      exact ht
    | cons d ds ih =>
      cases h with
      | cons hd hds =>
        rw [List.foldl_cons, List.foldl_cons, hd.name_eq]
        exact ih hds _ _ (ht.insert _ ⟨hd, rfl, hd.isInitializer_eq⟩)
  exact hfold .empty .empty Bindings.Twin.empty

theorem twin_declareClass (name : String) {superclass superclass' : Option Class}
    (hs : Option.Rel (Class.Twin w.pairs) superclass superclass') {ms ms' : List FunctionDecl}
    (hm : FunctionDecl.AllTwin w.pairs ms ms') :
    Twin w Eq (declareClass name superclass ms) (declareClass name superclass' ms') := by
  refine twin_bind (twin_define name .nil) fun _ _ _ => ?_
  refine twin_bind twin_currentFrame fun here _ hhere => ?_
  subst hhere
  cases hs with
  | none => exact twin_assignOutward name (.cls (.base name (twin_methodTable here hm)))
  | some hc =>
    refine twin_bind (twin_childFrame here) fun frame _ hframe => ?_
    subst hframe
    exact twin_bind (twin_defineIn frame "super" (.cls hc)) fun _ _ _ =>
      twin_assignOutward name (.cls (.derived name hc (twin_methodTable frame hm)))

/-- A method that a class has is bound to the receiver. -/
def boundMethod (receiver : Value) (otherwise : RuntimeProblem) : Option Closure → Eval Value
  | some f => do
    let bound ← bindMethod f receiver
    pure (.function bound)
  | none => fail otherwise

theorem twin_boundMethod {receiver receiver' : Value} (hr : receiver.Twin w.pairs receiver')
    (otherwise : RuntimeProblem) {f f' : Option Closure}
    (hf : Option.Rel (Closure.Twin w.pairs) f f') :
    Twin w (Value.Twin w.pairs) (boundMethod receiver otherwise f)
      (boundMethod receiver' otherwise f') := by
  cases hf with
  | none => exact twin_fail _
  | some hf => exact twin_bind (twin_bindMethod hf hr) fun _ _ hb => twin_pure (.function hb)

theorem twin_property {c c' : Class} (hc : c.Twin w.pairs c') (fields : ObjectId) (name : String) :
    Twin w (Value.Twin w.pairs) (property c fields name) (property c' fields name) := by
  refine twin_bind (twin_field? fields name) fun v v' hv => ?_
  cases hv with
  | none =>
    exact twin_boundMethod (.object fields hc) (.undefinedProperty name) (hc.findMethod? name)
  | some hv => exact twin_pure hv

theorem twin_superMethod {i j : RefId} (hij : w.pairs i j) (method : String) :
    Twin w (Value.Twin w.pairs) (superMethod i method) (superMethod j method) := by
  refine twin_bind (twin_distanceOf? hij) fun d _ hd => ?_
  subst hd
  cases d with
  | none => exact twin_fail _
  | some d =>
    refine twin_bind twin_currentFrame fun frame _ hframe => ?_
    subst hframe
    refine twin_bind (twin_readAt frame d "super") fun superclass superclass' hsuper => ?_
    refine twin_bind (twin_readAt frame (d - 1) "this") fun receiver receiver' hreceiver => ?_
    cases hsuper with
    | cls hc =>
      cases hreceiver with
      | object o hr =>
        exact twin_boundMethod (.object o hr) (.undefinedProperty method) (hc.findMethod? method)
      | _ => exact twin_fail _
    | _ => exact twin_fail _

/-! ## The evaluator -/

/-- With this fuel the evaluator runs twin programs alike. -/
structure TwinAt (w : Renaming) (n : Nat) : Prop where
  evaluate : ∀ {e e' : Expr}, e.Twin w.pairs e' →
    Twin w (Value.Twin w.pairs) (evaluate n e) (evaluate n e')
  evaluateOption : ∀ {e e' : Option Expr}, Option.Rel (Expr.Twin w.pairs) e e' →
    Twin w (Value.Twin w.pairs) (evaluateOption n e) (evaluateOption n e')
  evaluateAll : ∀ {es es' : List Expr}, Expr.AllTwin w.pairs es es' →
    Twin w (List.Forall₂ (Value.Twin w.pairs)) (evaluateAll n es) (evaluateAll n es')
  execute : ∀ {s s' : Stmt}, s.Twin w.pairs s' →
    Twin w (Flow.Twin w.pairs) (execute n s) (execute n s')
  executeAll : ∀ {ss ss' : List Stmt}, Stmt.AllTwin w.pairs ss ss' →
    Twin w (Flow.Twin w.pairs) (executeAll n ss) (executeAll n ss')
  invoke : ∀ {f f' : Value} {args args' : List Value}, f.Twin w.pairs f' →
    List.Forall₂ (Value.Twin w.pairs) args args' →
    Twin w (Value.Twin w.pairs) (invoke n f args) (invoke n f' args')
  call : ∀ {c c' : Callable} {args args' : List Value}, c.Twin w.pairs c' →
    List.Forall₂ (Value.Twin w.pairs) args args' →
    Twin w (Value.Twin w.pairs) (call n c args) (call n c' args')
  callFunction : ∀ {f f' : Closure} {args args' : List Value}, f.Twin w.pairs f' →
    List.Forall₂ (Value.Twin w.pairs) args args' →
    Twin w (Value.Twin w.pairs) (callFunction n f args) (callFunction n f' args')

theorem twinAt_zero : TwinAt w 0 := by
  constructor
  all_goals
    intros
    simp only [evaluate_zero, evaluateOption_zero, evaluateAll_zero, execute_zero, executeAll_zero,
      invoke_zero, call_zero, callFunction_zero]
    exact fun _ _ _ => .outOfFuel

namespace TwinAt

variable {n : Nat} (ih : TwinAt w n)
include ih

theorem evaluate_succ {e e' : Expr} (h : e.Twin w.pairs e') :
    Twin w (Value.Twin w.pairs) (Eval.evaluate (n + 1) e) (Eval.evaluate (n + 1) e') := by
  cases h with
  | constant c =>
    simp only [Eval.evaluate]
    exact twin_pure (.ofConstant c)
  | grouping h =>
    simp only [Eval.evaluate]
    exact ih.evaluate h
  | unary ho h =>
    simp only [Eval.evaluate]
    exact twin_bind (ih.evaluate h) fun _ _ hv => twin_ofExcept (Operator.twin_unary ho hv)
  | binary hl ho hr =>
    simp only [Eval.evaluate]
    exact twin_bind (ih.evaluate hl) fun _ _ hv => twin_bind (ih.evaluate hr) fun _ _ hv' =>
      twin_ofExcept (Operator.twin_binary hv ho hv')
  | logical hl ho hr =>
    simp only [Eval.evaluate]
    refine twin_bind (ih.evaluate hl) fun v v' hv => ?_
    rw [Operator.isDecided_eq ho hv]
    split
    · exact twin_pure hv
    · exact ih.evaluate hr
  | var hid hn =>
    simp only [Eval.evaluate]
    rw [hn.lexeme]
    exact twin_lookUp hid _
  | assign hid hn hv =>
    simp only [Eval.evaluate]
    rw [hn.lexeme]
    exact twin_bind (ih.evaluate hv) fun _ _ hv => twin_bind (twin_assign hid _ hv) fun _ _ _ =>
      twin_pure hv
  | call hc _ hs =>
    simp only [Eval.evaluate]
    exact twin_bind (ih.evaluate hc) fun _ _ hf => twin_bind (ih.evaluateAll hs) fun _ _ hvs =>
      ih.invoke hf hvs
  | get ho hn =>
    simp only [Eval.evaluate]
    rw [hn.lexeme]
    refine twin_bind (ih.evaluate ho) fun v v' hv => ?_
    cases hv with
    | object o hc => exact twin_property hc o _
    | _ => exact twin_fail _
  | set ho hn hv =>
    simp only [Eval.evaluate]
    rw [hn.lexeme]
    refine twin_bind (ih.evaluate ho) fun v v' hobject => ?_
    cases hobject with
    | object o hc =>
      exact twin_bind (ih.evaluate hv) fun _ _ hv => twin_bind (twin_setField o _ hv) fun _ _ _ =>
        twin_pure hv
    | _ => exact twin_fail _
  | thisRef hid hk =>
    simp only [Eval.evaluate]
    rw [hk.lexeme]
    exact twin_lookUp hid _
  | superRef hid _ hm =>
    simp only [Eval.evaluate]
    rw [hm.lexeme]
    exact twin_superMethod hid _
  | unparsed =>
    simp only [Eval.evaluate]
    exact twin_fail _

theorem evaluateOption_succ {e e' : Option Expr} (h : Option.Rel (Expr.Twin w.pairs) e e') :
    Twin w (Value.Twin w.pairs) (Eval.evaluateOption (n + 1) e)
      (Eval.evaluateOption (n + 1) e') := by
  cases h with
  | none =>
    simp only [Eval.evaluateOption]
    exact twin_pure .nil
  | some h =>
    simp only [Eval.evaluateOption]
    exact ih.evaluate h

theorem evaluateAll_succ {es es' : List Expr} (h : Expr.AllTwin w.pairs es es') :
    Twin w (List.Forall₂ (Value.Twin w.pairs)) (Eval.evaluateAll (n + 1) es)
      (Eval.evaluateAll (n + 1) es') := by
  cases h with
  | nil =>
    simp only [Eval.evaluateAll]
    exact twin_pure .nil
  | cons h hs =>
    simp only [Eval.evaluateAll]
    exact twin_bind (ih.evaluate h) fun _ _ hv => twin_bind (ih.evaluateAll hs) fun _ _ hvs =>
      twin_pure (.cons hv hvs)

theorem execute_succ {s s' : Stmt} (h : s.Twin w.pairs s') :
    Twin w (Flow.Twin w.pairs) (Eval.execute (n + 1) s) (Eval.execute (n + 1) s') := by
  cases h with
  | expression h =>
    simp only [Eval.execute]
    exact twin_bind (ih.evaluate h) fun _ _ _ => twin_pure .normal
  | var hn hi =>
    simp only [Eval.execute]
    rw [hn.lexeme]
    exact twin_bind (ih.evaluateOption hi) fun _ _ hv => twin_bind (twin_define _ hv) fun _ _ _ =>
      twin_pure .normal
  | block h =>
    simp only [Eval.execute]
    refine twin_bind twin_currentFrame fun here _ hhere => ?_
    subst hhere
    refine twin_bind (twin_childFrame here) fun frame _ hframe => ?_
    subst hframe
    exact twin_inFrame frame (ih.executeAll h)
  | ifThen hc hy =>
    simp only [Eval.execute]
    refine twin_bind (ih.evaluate hc) fun v v' hv => ?_
    rw [hv.isTruthy_eq]
    split
    · exact ih.execute hy
    · exact twin_pure .normal
  | ifElse hc hy hn =>
    simp only [Eval.execute]
    refine twin_bind (ih.evaluate hc) fun v v' hv => ?_
    rw [hv.isTruthy_eq]
    split
    · exact ih.execute hy
    · exact ih.execute hn
  | loop hc hb =>
    simp only [Eval.execute]
    refine twin_bind (ih.evaluate hc) fun v v' hv => ?_
    rw [hv.isTruthy_eq]
    split
    · refine twin_bind (ih.execute hb) fun flow flow' hflow => ?_
      cases hflow with
      | normal => exact ih.execute (.loop hc hb)
      | returned hr => exact twin_pure (.returned hr)
    · exact twin_pure .normal
  | function h =>
    simp only [Eval.execute]
    rw [h.name_eq]
    refine twin_bind twin_currentFrame fun here _ hhere => ?_
    subst hhere
    exact twin_bind (twin_define _ (.function ⟨h, rfl, rfl⟩)) fun _ _ _ => twin_pure .normal
  | ret _ hv =>
    simp only [Eval.execute]
    exact twin_bind (ih.evaluateOption hv) fun _ _ hv => twin_pure (.returned hv)
  | cls hn hs hm =>
    cases hs with
    | none =>
      simp only [Eval.execute]
      rw [hn.lexeme]
      exact twin_bind (twin_declareClass _ .none hm) fun _ _ _ => twin_pure .normal
    | some hs =>
      simp only [Eval.execute]
      rw [hn.lexeme]
      refine twin_bind (ih.evaluate hs) fun v v' hv => ?_
      cases hv with
      | cls hc => exact twin_bind (twin_declareClass _ (.some hc) hm) fun _ _ _ => twin_pure .normal
      | _ => exact twin_fail _

theorem executeAll_succ {ss ss' : List Stmt} (h : Stmt.AllTwin w.pairs ss ss') :
    Twin w (Flow.Twin w.pairs) (Eval.executeAll (n + 1) ss) (Eval.executeAll (n + 1) ss') := by
  cases h with
  | nil =>
    simp only [Eval.executeAll]
    exact twin_pure .normal
  | cons h hs =>
    simp only [Eval.executeAll]
    refine twin_bind (ih.execute h) fun flow flow' hflow => ?_
    cases hflow with
    | normal => exact ih.executeAll hs
    | returned hv => exact twin_pure (.returned hv)

theorem invoke_succ {f f' : Value} {args args' : List Value} (hf : f.Twin w.pairs f')
    (ha : List.Forall₂ (Value.Twin w.pairs) args args') :
    Twin w (Value.Twin w.pairs) (Eval.invoke (n + 1) f args)
      (Eval.invoke (n + 1) f' args') := by
  have hcallable := hf.callable?
  simp only [Eval.invoke]
  revert hcallable
  cases f.callable? <;> cases f'.callable? <;> rintro ⟨⟩
  · exact twin_fail _
  · rename_i hc
    simp only [hc.arity_eq, ← ha.length_eq]
    split
    · exact ih.call hc ha
    · exact twin_fail _

theorem call_succ {c c' : Callable} {args args' : List Value} (hc : c.Twin w.pairs c')
    (ha : List.Forall₂ (Value.Twin w.pairs) args args') :
    Twin w (Value.Twin w.pairs) (Eval.call (n + 1) c args) (Eval.call (n + 1) c' args') := by
  cases hc with
  | native f =>
    simp only [Eval.call, f.run_eq ha]
    exact twin_onWorld fun _ _ _ h => Native.twin_of_run h
  | function hf =>
    simp only [Eval.call]
    exact ih.callFunction hf ha
  | cls hc =>
    simp only [Eval.call]
    refine twin_bind (twin_newObject hc) fun object object' hobject => ?_
    have hinit := hc.findMethod? initializerName
    revert hinit
    generalize Class.findMethod? initializerName _ = init,
      Class.findMethod? initializerName _ = init'
    intro hinit
    cases hinit with
    | none => exact twin_pure hobject
    | some hinit =>
      exact twin_bind (twin_bindMethod hinit hobject) fun _ _ hb =>
        twin_bind (ih.callFunction hb ha) fun _ _ _ => twin_pure hobject

theorem callFunction_succ {f f' : Closure} {args args' : List Value} (hf : f.Twin w.pairs f')
    (ha : List.Forall₂ (Value.Twin w.pairs) args args') :
    Twin w (Value.Twin w.pairs) (Eval.callFunction (n + 1) f args)
      (Eval.callFunction (n + 1) f' args') := by
  simp only [Eval.callFunction]
  rw [hf.env, hf.isInitializer]
  refine twin_bind (twin_childFrame f.env) fun frame _ hframe => ?_
  subst hframe
  refine twin_bind (twin_defineAll frame hf.decl.params ha) fun _ _ _ => ?_
  refine twin_bind (twin_inFrame frame (ih.executeAll hf.decl.body)) fun flow flow' hflow => ?_
  split
  · exact twin_readAt f.env 0 "this"
  · cases hflow with
    | normal => exact twin_pure .nil
    | returned hv => exact twin_pure hv

end TwinAt

/-- The evaluator runs twin programs alike. -/
theorem twinAt (n : Nat) : TwinAt w n := by
  induction n with
  | zero => exact twinAt_zero
  | succ n ih =>
    exact
      { evaluate := ih.evaluate_succ
        evaluateOption := ih.evaluateOption_succ
        evaluateAll := ih.evaluateAll_succ
        execute := ih.execute_succ
        executeAll := ih.executeAll_succ
        invoke := ih.invoke_succ
        call := ih.call_succ
        callFunction := ih.callFunction_succ }

/-! ## Programs -/

/-- Twin programs are run alike. -/
theorem twin_runAll (n : Nat) {ss ss' : List Stmt} (h : Stmt.AllTwin w.pairs ss ss') :
    Twin w Eq (runAll n ss) (runAll n ss') := by
  induction ss generalizing ss' with
  | nil =>
    cases h
    exact twin_pure rfl
  | cons s ss ih =>
    cases h with
    | cons hfirst h => exact twin_bind ((twinAt n).execute hfirst) fun _ _ _ => ih h

end Eval
end Lox
