import Lox.Proofs.Respell.Machines

/-!
# Lox.Proofs.Respell.Lockstep

The lexical evaluator runs programs alike that differ only in how variables are spelled (`alikeAt`).
The induction is on the fuel, which both runs spend in the same places; each form of the source is one
case over the statement for less fuel.
-/

namespace Lox
namespace Lexical

open Lox.Computation

/-- Statements that end alike. -/
inductive FlowAlike : Flow Names → Flow Names → Prop
  | normal : FlowAlike .normal .normal
  | returned {v v' : Value Names} : ValueAlike v v' → FlowAlike (.returned v) (.returned v')

/-- Statements that end alike, in scopes with this spelling. -/
structure EndAlike (isTop : Bool) (r : Spelling) (p p' : Flow Names × Scope) : Prop where
  flow : FlowAlike p.1 p'.1
  scope : p.2.Alike isTop r p'.2

/-! ## Classes -/

theorem alike_methodTable {r : Spelling} {names names' : Names} (hn : Names.Alike r names names')
    {ms ms' : List FunctionDecl} (h : FunctionDecl.AllAlike r ms ms') :
    Bindings.Rel MethodAlike (Lox.Eval.methodTable names ms)
      (Lox.Eval.methodTable names' ms') := by
  have hfold (table table' : Bindings (Closure Names))
      (ht : Bindings.Rel MethodAlike table table') :
      Bindings.Rel MethodAlike
        (ms.foldl (fun t d => t.insert d.name.lexeme ⟨d, names, d.isInitializer⟩) table)
        (ms'.foldl (fun t d => t.insert d.name.lexeme ⟨d, names', d.isInitializer⟩) table') := by
    induction ms generalizing ms' table table' with
    | nil =>
      cases h
      exact ht
    | cons d ds ih =>
      cases h with
      | cons hd hthis hdecl hds =>
        rw [List.foldl_cons, List.foldl_cons, hdecl.name_eq]
        exact ih hds _ _ (ht.insert _ ⟨hdecl.isInitializer_eq, r, _, hn, hd, hthis, hdecl⟩)
  exact hfold .empty .empty Bindings.Rel.empty

theorem alike_declareClass {isTop : Bool} {r r' : Spelling} {scope scope' : Scope}
    (hs : scope.Alike isTop r scope') {name : String} (hd : r.Declares isTop name name r')
    {ms ms' : List FunctionDecl} (hm : FunctionDecl.AllAlike r' ms ms') :
    Alike (Scope.Alike isTop r') (Eval.declareClass scope name none ms)
      (Eval.declareClass scope' name none ms') := by
  refine rel_bind (alike_declare hs hd) fun p p' hp => ?_
  refine rel_bind (alike_define hp.place hp.global ?_) fun _ _ _ => rel_pure hp.scope
  exact .cls (.base name (alike_methodTable hp.scope.names hm))

theorem alike_declareSubclass {isTop : Bool} {r r' r'' : Spelling} {scope scope' : Scope}
    (hs : scope.Alike isTop r scope') {name : String} (hd : r.Declares isTop name name r')
    (hsuper : r'.Declares false "super" "super" r'') {c c' : Class Names} (hc : ClassAlike c c')
    {ms ms' : List FunctionDecl} (hm : FunctionDecl.AllAlike r'' ms ms') :
    Alike (Scope.Alike isTop r') (Eval.declareClass scope name (some c) ms)
      (Eval.declareClass scope' name (some c') ms') := by
  refine rel_bind (alike_declare hs hd) fun p p' hp => ?_
  refine rel_bind (alike_newCell (.cls hc)) fun cell _ hcell => ?_
  subst hcell
  refine rel_bind (alike_define hp.place hp.global ?_) fun _ _ _ => rel_pure hp.scope
  exact .cls (.derived name hc (alike_methodTable (hp.scope.names.insert hsuper cell) hm))

/-- A method that a class has is bound to the receiver. -/
def boundMethod (receiver : Value Names) (otherwise : RuntimeProblem) :
    Option (Closure Names) → Eval (Value Names)
  | some f => do
    let bound ← bindMethod f receiver
    pure (.function bound)
  | none => fail otherwise

theorem alike_boundMethod {receiver receiver' : Value Names} (hr : ValueAlike receiver receiver')
    (otherwise : RuntimeProblem) {f f' : Option (Closure Names)}
    (hf : Option.Rel MethodAlike f f') :
    Alike ValueAlike (boundMethod receiver otherwise f) (boundMethod receiver' otherwise f') := by
  cases hf with
  | none => exact rel_fail (.refl _)
  | some hf => exact rel_bind (alike_bindMethod hf hr) fun _ _ hb => rel_pure (.function hb.1)

theorem alike_property {c c' : Class Names} (hc : ClassAlike c c') (o : ObjectId)
    (name : String) : Alike ValueAlike (Eval.property c o name) (Eval.property c' o name) := by
  refine rel_bind (alike_field? o name) fun v v' hv => ?_
  cases hv with
  | none => exact alike_boundMethod (.object o hc) (.undefinedProperty name) (hc.findMethod? name)
  | some hv => exact rel_pure hv

theorem alike_superMethod {r : Spelling} {names names' : Names} (hn : Names.Alike r names names')
    (hsuper : r "super" "super") (hthis : r "this" "this") (method : String) :
    Alike ValueAlike (Eval.superMethod names method) (Eval.superMethod names' method) := by
  refine rel_bind (alike_lookUp hn hsuper) fun superclass superclass' hs => ?_
  refine rel_bind (alike_lookUp hn hthis) fun receiver receiver' hr => ?_
  cases hs with
  | cls hc =>
    cases hr with
    | object o ho =>
      exact alike_boundMethod (.object o ho) (.undefinedProperty method) (hc.findMethod? method)
    | _ => exact rel_fail (.refl _)
  | _ => exact rel_fail (.refl _)

/-! ## The evaluator -/

/-- With this fuel the evaluator runs such programs alike. -/
structure AlikeAt (n : Nat) : Prop where
  evaluate : ∀ {r : Spelling} {names names' : Names} {e e' : Expr}, Names.Alike r names names' →
    e.Alike r e' → Alike ValueAlike (Eval.evaluate n names e) (Eval.evaluate n names' e')
  evaluateOption : ∀ {r : Spelling} {names names' : Names} {e e' : Option Expr},
    Names.Alike r names names' → Option.Rel (Expr.Alike r) e e' →
    Alike ValueAlike (Eval.evaluateOption n names e) (Eval.evaluateOption n names' e')
  evaluateAll : ∀ {r : Spelling} {names names' : Names} {es es' : List Expr},
    Names.Alike r names names' → Expr.AllAlike r es es' →
    Alike (List.Forall₂ ValueAlike) (Eval.evaluateAll n names es) (Eval.evaluateAll n names' es')
  execute : ∀ {isTop : Bool} {r r' : Spelling} {scope scope' : Scope} {s s' : Stmt},
    scope.Alike isTop r scope' → Stmt.Alike isTop r r' s s' →
    Alike (EndAlike isTop r') (Eval.execute n scope s) (Eval.execute n scope' s')
  executeAll : ∀ {isTop : Bool} {r : Spelling} {scope scope' : Scope} {ss ss' : List Stmt},
    scope.Alike isTop r scope' → Stmt.AllAlike isTop r ss ss' →
    Alike FlowAlike (Eval.executeAll n scope ss) (Eval.executeAll n scope' ss')
  invoke : ∀ {f f' : Value Names} {args args' : List (Value Names)}, ValueAlike f f' →
    List.Forall₂ ValueAlike args args' →
    Alike ValueAlike (Eval.invoke n f args) (Eval.invoke n f' args')
  call : ∀ {c c' : Callable Names} {args args' : List (Value Names)}, CallableAlike c c' →
    List.Forall₂ ValueAlike args args' → args.length = c.arity →
    Alike ValueAlike (Eval.call n c args) (Eval.call n c' args')
  callFunction : ∀ {f f' : Closure Names} {args args' : List (Value Names)}, FunctionAlike f f' →
    List.Forall₂ ValueAlike args args' → args.length = f.arity →
    Alike ValueAlike (Eval.callFunction n f args) (Eval.callFunction n f' args')

theorem alikeAt_zero : AlikeAt 0 := by
  constructor
  all_goals
    intros
    simp only [Eval.evaluate_zero, Eval.evaluateOption_zero, Eval.evaluateAll_zero,
      Eval.execute_zero, Eval.executeAll_zero, Eval.invoke_zero, Eval.call_zero,
      Eval.callFunction_zero]
    exact rel_exhausted

namespace AlikeAt

variable {n : Nat} (ih : AlikeAt n) {isTop : Bool} {r r' : Spelling} {names names' : Names}
  {scope scope' : Scope}
include ih

theorem evaluate_succ (hn : Names.Alike r names names') {e e' : Expr} (h : e.Alike r e') :
    Alike ValueAlike (Eval.evaluate (n + 1) names e) (Eval.evaluate (n + 1) names' e') := by
  cases h with
  | constant c =>
    simp only [Eval.evaluate]
    exact rel_pure (.ofConstant c)
  | grouping h =>
    simp only [Eval.evaluate]
    exact ih.evaluate hn h
  | unary h =>
    simp only [Eval.evaluate]
    exact rel_bind (ih.evaluate hn h) fun _ _ hv =>
      rel_ofExcept .refl (Operator.rel_unary rfl rfl hv)
  | binary hl hr =>
    simp only [Eval.evaluate]
    exact rel_bind (ih.evaluate hn hl) fun _ _ hv => rel_bind (ih.evaluate hn hr) fun _ _ hv' =>
      rel_ofExcept .refl (Operator.rel_binary rfl rfl hv hv')
  | logical hl hr =>
    simp only [Eval.evaluate]
    refine rel_bind (ih.evaluate hn hl) fun v v' hv => ?_
    rw [Operator.isDecided_rel rfl hv]
    split
    · exact rel_pure hv
    · exact ih.evaluate hn hr
  | var h =>
    simp only [Eval.evaluate]
    exact alike_lookUp hn h
  | assign h hv =>
    simp only [Eval.evaluate]
    exact rel_bind (ih.evaluate hn hv) fun _ _ hv => rel_bind (alike_assign hn h hv) fun _ _ _ =>
      rel_pure hv
  | call hc hs =>
    simp only [Eval.evaluate]
    exact rel_bind (ih.evaluate hn hc) fun _ _ hf => rel_bind (ih.evaluateAll hn hs)
      fun _ _ hvs => ih.invoke hf hvs
  | get ho =>
    simp only [Eval.evaluate]
    refine rel_bind (ih.evaluate hn ho) fun v v' hv => ?_
    cases hv with
    | object o hc => exact alike_property hc o _
    | _ => exact rel_fail (.refl _)
  | set ho hv =>
    simp only [Eval.evaluate]
    refine rel_bind (ih.evaluate hn ho) fun v v' hobject => ?_
    cases hobject with
    | object o hc =>
      exact rel_bind (ih.evaluate hn hv) fun _ _ hv => rel_bind (alike_setField o _ hv)
        fun _ _ _ => rel_pure hv
    | _ => exact rel_fail (.refl _)
  | thisRef h =>
    simp only [Eval.evaluate]
    exact alike_lookUp hn h
  | superRef hsuper hthis =>
    simp only [Eval.evaluate]
    exact alike_superMethod hn hsuper hthis _
  | unparsed =>
    simp only [Eval.evaluate]
    exact rel_fail (.refl _)

theorem evaluateOption_succ (hn : Names.Alike r names names') {e e' : Option Expr}
    (h : Option.Rel (Expr.Alike r) e e') :
    Alike ValueAlike (Eval.evaluateOption (n + 1) names e)
      (Eval.evaluateOption (n + 1) names' e') := by
  cases h with
  | none =>
    simp only [Eval.evaluateOption]
    exact rel_pure .nil
  | some h =>
    simp only [Eval.evaluateOption]
    exact ih.evaluate hn h

theorem evaluateAll_succ (hn : Names.Alike r names names') {es es' : List Expr}
    (h : Expr.AllAlike r es es') :
    Alike (List.Forall₂ ValueAlike) (Eval.evaluateAll (n + 1) names es)
      (Eval.evaluateAll (n + 1) names' es') := by
  cases h with
  | nil =>
    simp only [Eval.evaluateAll]
    exact rel_pure .nil
  | cons h hs =>
    simp only [Eval.evaluateAll]
    exact rel_bind (ih.evaluate hn h) fun _ _ hv => rel_bind (ih.evaluateAll hn hs)
      fun _ _ hvs => rel_pure (.cons hv hvs)

theorem execute_succ (hs : scope.Alike isTop r scope') {s s' : Stmt}
    (h : Stmt.Alike isTop r r' s s') :
    Alike (EndAlike isTop r') (Eval.execute (n + 1) scope s)
      (Eval.execute (n + 1) scope' s') := by
  cases h with
  | expression h =>
    simp only [Eval.execute]
    exact rel_bind (ih.evaluate hs.names h) fun _ _ _ => rel_pure ⟨.normal, hs⟩
  | var hd hi =>
    simp only [Eval.execute]
    refine rel_bind (alike_declare hs hd) fun p p' hp => ?_
    refine rel_bind (ih.evaluateOption hp.scope.names hi) fun v v' hv => ?_
    exact rel_bind (alike_define hp.place hp.global hv) fun _ _ _ =>
      rel_pure ⟨.normal, hp.scope⟩
  | block h =>
    simp only [Eval.execute]
    exact rel_bind (ih.executeAll ⟨rfl, rfl, hs.names⟩ h) fun _ _ hflow =>
      rel_pure ⟨hflow, hs⟩
  | ifThen hc hy =>
    simp only [Eval.execute]
    refine rel_bind (ih.evaluate hs.names hc) fun v v' hv => ?_
    rw [hv.isTruthy_eq]
    split
    · exact ih.execute hs hy
    · exact rel_pure ⟨.normal, hs⟩
  | ifElse hc hy hn =>
    simp only [Eval.execute]
    refine rel_bind (ih.evaluate hs.names hc) fun v v' hv => ?_
    rw [hv.isTruthy_eq]
    split
    · exact ih.execute hs hy
    · exact ih.execute hs hn
  | loop hc hb =>
    simp only [Eval.execute]
    refine rel_bind (ih.evaluate hs.names hc) fun v v' hv => ?_
    rw [hv.isTruthy_eq]
    split
    · refine rel_bind (ih.execute hs hb) fun p p' hp => ?_
      obtain ⟨flow, _⟩ := p
      obtain ⟨flow', _⟩ := p'
      cases hp.flow with
      | normal => exact ih.execute hs (.loop hc hb)
      | returned hr => exact rel_pure ⟨.returned hr, hs⟩
    · exact rel_pure ⟨.normal, hs⟩
  | function hd hdecl =>
    simp only [Eval.execute]
    rw [hdecl.name_eq]
    refine rel_bind (alike_declare hs hd) fun p p' hp => ?_
    refine rel_bind (alike_define hp.place hp.global ?_) fun _ _ _ => rel_pure ⟨.normal, hp.scope⟩
    exact .function ⟨rfl, r', hp.scope.names, hdecl, fun h => absurd h Bool.false_ne_true⟩
  | ret hv =>
    simp only [Eval.execute]
    exact rel_bind (ih.evaluateOption hs.names hv) fun _ _ hv => rel_pure ⟨.returned hv, hs⟩
  | cls hd hm =>
    simp only [Eval.execute]
    exact rel_bind (alike_declareClass hs hd hm) fun _ _ hs => rel_pure ⟨.normal, hs⟩
  | subclass hsuperclass hd hsuper hm =>
    simp only [Eval.execute]
    refine rel_bind (ih.evaluate hs.names hsuperclass) fun v v' hv => ?_
    cases hv with
    | cls hc =>
      exact rel_bind (alike_declareSubclass hs hd hsuper hc hm) fun _ _ hs =>
        rel_pure ⟨.normal, hs⟩
    | _ => exact rel_fail (.refl _)

theorem executeAll_succ (hs : scope.Alike isTop r scope') {ss ss' : List Stmt}
    (h : Stmt.AllAlike isTop r ss ss') :
    Alike FlowAlike (Eval.executeAll (n + 1) scope ss) (Eval.executeAll (n + 1) scope' ss') := by
  cases h with
  | nil =>
    simp only [Eval.executeAll]
    exact rel_pure .normal
  | cons h hss =>
    simp only [Eval.executeAll]
    refine rel_bind (ih.execute hs h) fun p p' hp => ?_
    obtain ⟨flow, _⟩ := p
    obtain ⟨flow', _⟩ := p'
    cases hp.flow with
    | normal => exact ih.executeAll hp.scope hss
    | returned hv => exact rel_pure (.returned hv)

theorem invoke_succ {f f' : Value Names} {args args' : List (Value Names)} (hf : ValueAlike f f')
    (ha : List.Forall₂ ValueAlike args args') :
    Alike ValueAlike (Eval.invoke (n + 1) f args) (Eval.invoke (n + 1) f' args') := by
  have hcallable := hf.callable?
  simp only [Eval.invoke]
  revert hcallable
  cases f.callable? <;> cases f'.callable? <;> rintro ⟨⟩
  · exact rel_fail (.refl _)
  · rename_i hc
    simp only [CallableAlike.arity_eq hc, ← ha.length_eq]
    split
    · exact ih.call hc ha ‹_›
    · exact rel_fail (.refl _)

theorem call_succ {c c' : Callable Names} {args args' : List (Value Names)}
    (hc : CallableAlike c c') (ha : List.Forall₂ ValueAlike args args')
    (hlen : args.length = c.arity) :
    Alike ValueAlike (Eval.call (n + 1) c args) (Eval.call (n + 1) c' args') := by
  cases hc with
  | native f =>
    simp only [Eval.call]
    exact alike_onWorld (f.rel_run FunctionAlike.resembles .refl ha)
  | function hf =>
    simp only [Eval.call]
    exact ih.callFunction hf ha hlen
  | @cls c c' hc =>
    simp only [Eval.call]
    refine rel_bind (alike_newObject hc) fun object object' hobject => ?_
    have hinit := hc.findMethod? initializerName
    simp only [Callable.arity, Class.arity] at hlen
    revert hinit hlen
    generalize Class.findMethod? initializerName c = init,
      Class.findMethod? initializerName c' = init'
    intro hlen hinit
    cases hinit with
    | none => exact rel_pure hobject
    | some hinit =>
      refine rel_bind (alike_bindMethod hinit hobject) fun g g' hb => ?_
      have harity : args.length = g.arity := by
        rw [Closure.arity, hb.2]
        exact hlen
      exact rel_bind (ih.callFunction hb.1 ha harity) fun _ _ _ => rel_pure hobject

theorem callFunction_succ {f f' : Closure Names} {args args' : List (Value Names)}
    (hf : FunctionAlike f f') (ha : List.Forall₂ ValueAlike args args')
    (hlen : args.length = f.arity) :
    Alike ValueAlike (Eval.callFunction (n + 1) f args)
      (Eval.callFunction (n + 1) f' args') := by
  obtain ⟨hinit, r, hnames, hdecl, hthis⟩ := hf
  simp only [Eval.callFunction]
  rw [hinit]
  revert hlen
  rw [Closure.arity, FunctionDecl.arity]
  generalize f.decl = d, f'.decl = d' at hdecl
  intro hlen
  cases hdecl with
  | mk hparams hbody =>
    refine rel_bind (alike_declareAll hparams hnames ha hlen) fun _ _ hnames' => ?_
    refine rel_bind (ih.executeAll ⟨rfl, rfl, hnames'⟩ hbody) fun flow flow' hflow => ?_
    split
    · exact alike_lookUp hnames (hthis ‹_›)
    · cases hflow with
      | normal => exact rel_pure .nil
      | returned hv => exact rel_pure hv

end AlikeAt

/-- The evaluator runs programs alike that differ only in how variables are spelled. -/
theorem alikeAt (n : Nat) : AlikeAt n := by
  induction n with
  | zero => exact alikeAt_zero
  | succ n ih =>
    exact
      { evaluate := fun hn h => ih.evaluate_succ hn h
        evaluateOption := fun hn h => ih.evaluateOption_succ hn h
        evaluateAll := fun hn h => ih.evaluateAll_succ hn h
        execute := fun hs h => ih.execute_succ hs h
        executeAll := fun hs h => ih.executeAll_succ hs h
        invoke := ih.invoke_succ
        call := ih.call_succ
        callFunction := ih.callFunction_succ }

/-! ## Programs -/

/-- At the top level no name has another spelling. -/
theorem alike_interpret (n : Nat) {ss ss' : List Stmt} {r : Spelling}
    (hr : ∀ {a a'}, r a a' → a' = a) (h : Stmt.AllAlike true r ss ss') :
    Alike Eq (Eval.interpret n ss) (Eval.interpret n ss') := by
  induction ss generalizing ss' r with
  | nil =>
    cases h
    exact rel_pure rfl
  | cons s ss ih =>
    cases h with
    | cons hfirst hmore =>
      have hnames : Names.Alike r .empty .empty := (Names.Alike.refl _).mono fun ha => (hr ha).symm
      exact rel_bind ((alikeAt n).execute ⟨rfl, rfl, hnames⟩ hfirst) fun _ _ _ =>
        ih (fun ha => hr (hfirst.le_of_top ha)) hmore

end Lexical
end Lox
