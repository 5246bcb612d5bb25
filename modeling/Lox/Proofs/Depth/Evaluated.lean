import Lox.Proofs.Depth.Ends

/-!
# Lox.Proofs.Depth.Evaluated

Evaluations keep to the chart (`chartsAt`): code that stands in the frame of a machine with a chart
ends on one with a later chart, and a statement that runs on leaves what is to come after it where
the walk has it. The induction is on the fuel; each form of the source is one lemma over the
statement for less fuel.
-/

namespace Lox

open Resolve

/-- A flow goes on at the point, or it has returned a value. -/
def Flow.GoesOn (ps : List (List Stmt)) (frame : FrameId) (p : Point) (w : Chart) : Flow → Prop
  | .normal => w.Stands frame p
  | .returned v => v.In (w.region ps)

/-- With this fuel evaluations keep to the chart. -/
structure ChartsAt (ps : List (List Stmt)) (T : Table) (n : Nat) : Prop where
  evaluate : ∀ {w : Chart} {frame : FrameId} {m : Machine} {p : Point} {e : Expr},
    Charted ps T w frame m → w.Stands frame p → Visits ps (.expr e) p →
    Charts ps T w frame (fun w' v => v.In (w'.region ps)) (Eval.evaluate n e m)
  evaluateOption : ∀ {w : Chart} {frame : FrameId} {m : Machine} {p : Point} {e : Option Expr},
    Charted ps T w frame m → w.Stands frame p → (∀ e', e = some e' → Visits ps (.expr e') p) →
    Charts ps T w frame (fun w' v => v.In (w'.region ps)) (Eval.evaluateOption n e m)
  evaluateAll : ∀ {w : Chart} {frame : FrameId} {m : Machine} {p : Point} {es : List Expr},
    Charted ps T w frame m → w.Stands frame p → Visits ps (.exprs es) p →
    Charts ps T w frame (fun w' vs => ∀ v ∈ vs, v.In (w'.region ps)) (Eval.evaluateAll n es m)
  execute : ∀ {w : Chart} {frame : FrameId} {m : Machine} {p : Point} {s : Stmt},
    Charted ps T w frame m → w.Stands frame p → Visits ps (.stmt s) p →
    Charts ps T w frame (Flow.GoesOn ps frame (p.after s)) (Eval.execute n s m)
  executeAll : ∀ {w : Chart} {frame : FrameId} {m : Machine} {p : Point} {ss : List Stmt},
    Charted ps T w frame m → w.Stands frame p → Visits ps (.stmts ss) p →
    Charts ps T w frame (fun w' flow => flow.Holds (Value.In (w'.region ps)))
      (Eval.executeAll n ss m)
  invoke : ∀ {w : Chart} {frame : FrameId} {m : Machine} {f : Value} {args : List Value},
    Charted ps T w frame m → f.In (w.region ps) → (∀ v ∈ args, v.In (w.region ps)) →
    Charts ps T w frame (fun w' v => v.In (w'.region ps)) (Eval.invoke n f args m)
  call : ∀ {w : Chart} {frame : FrameId} {m : Machine} {c : Callable} {args : List Value},
    Charted ps T w frame m → c.Holds (Value.In (w.region ps)) →
    (∀ v ∈ args, v.In (w.region ps)) → args.length = c.arity →
    Charts ps T w frame (fun w' v => v.In (w'.region ps)) (Eval.call n c args m)
  callFunction : ∀ {w : Chart} {frame : FrameId} {m : Machine} {f : Closure} {args : List Value},
    Charted ps T w frame m → f.Stands ps w → (∀ v ∈ args, v.In (w.region ps)) →
    args.length = f.arity →
    Charts ps T w frame (fun w' v => v.In (w'.region ps)) (Eval.callFunction n f args m)

theorem chartsAt_zero (ps : List (List Stmt)) (T : Table) : ChartsAt ps T 0 := by
  constructor
  all_goals
    intros
    simp only [Eval.evaluate_zero, Eval.evaluateOption_zero, Eval.evaluateAll_zero,
      Eval.execute_zero, Eval.executeAll_zero, Eval.invoke_zero, Eval.call_zero,
      Eval.callFunction_zero]
    trivial

namespace ChartsAt

variable {ps : List (List Stmt)} {T : Table} {n : Nat} (ih : ChartsAt ps T n) {w : Chart}
  {frame : FrameId} {m : Machine} {p : Point}

/-! ## Expressions -/

section Expressions

variable (h : Charted ps T w frame m) (hs : w.Stands frame p)
include ih h hs

theorem evaluate_assign {id : RefId} {name : Token} {e : Expr}
    (hv : Visits ps (.expr (.assign id name e)) p) :
    Charts ps T w frame (fun w' v => v.In (w'.region ps))
      (Eval.evaluate (n + 1) (.assign id name e) m) := by
  obtain ⟨t, ctx, scopes, ht, hl, hsub⟩ := hv.fits h.known
  rw [Eval.evaluate]
  refine (ih.evaluate h hs (hv.part (.inner (.head _)))).bind fun w₁ v m₁ hle₁ h₁ hval => ?_
  refine (h₁.assign (hs.mono hle₁) ht hsub hl.2.1 hval).bind fun w₂ _ m₂ hle₂ h₂ _ => ?_
  exact .ret h₂ (.mono hle₂ hval)

theorem evaluate_call {callee : Expr} {paren : Token} {args : List Expr}
    (hv : Visits ps (.expr (.call callee paren args)) p) :
    Charts ps T w frame (fun w' v => v.In (w'.region ps))
      (Eval.evaluate (n + 1) (.call callee paren args) m) := by
  rw [Eval.evaluate]
  refine (ih.evaluate h hs (hv.part (.inner (.head _)))).bind fun w₁ f m₁ hle₁ h₁ hf => ?_
  have hargs := hv.part (.inner (.tail _ (.head _)))
  refine (ih.evaluateAll h₁ (hs.mono hle₁) hargs).bind fun w₂ vs m₂ hle₂ h₂ hvs => ?_
  exact ih.invoke h₂ (.mono hle₂ hf) hvs

theorem evaluate_get {object : Expr} {name : Token} (hv : Visits ps (.expr (.get object name)) p) :
    Charts ps T w frame (fun w' v => v.In (w'.region ps))
      (Eval.evaluate (n + 1) (.get object name) m) := by
  rw [Eval.evaluate]
  refine (ih.evaluate h hs (hv.part (.inner (.head _)))).bind fun w₁ v m₁ _ h₁ hval => ?_
  cases v with
  | object c o => exact h₁.property hval.1 o name.lexeme
  | _ => exact .fail h₁ _

theorem evaluate_set {object value : Expr} {name : Token}
    (hv : Visits ps (.expr (.set object name value)) p) :
    Charts ps T w frame (fun w' v => v.In (w'.region ps))
      (Eval.evaluate (n + 1) (.set object name value) m) := by
  rw [Eval.evaluate]
  refine (ih.evaluate h hs (hv.part (.inner (.head _)))).bind fun w₁ v m₁ hle₁ h₁ _ => ?_
  cases v with
  | object c o =>
    have hvalue := hv.part (.inner (.tail _ (.head _)))
    refine (ih.evaluate h₁ (hs.mono hle₁) hvalue).bind fun w₂ u m₂ hle₂ h₂ hu => ?_
    refine (h₂.assignField o name.lexeme hu).bind fun w₃ _ m₃ hle₃ h₃ _ => ?_
    exact .ret h₃ (.mono hle₃ hu)
  | _ => exact .fail h₁ _

theorem evaluate_succ {e : Expr} (hv : Visits ps (.expr e) p) :
    Charts ps T w frame (fun w' v => v.In (w'.region ps)) (Eval.evaluate (n + 1) e m) := by
  cases e with
  | constant c =>
    rw [Eval.evaluate]
    exact .ret h (Value.in_of_isData (Value.isData_ofConstant c))
  | grouping e =>
    rw [Eval.evaluate]
    exact ih.evaluate h hs (hv.part (.inner (.head _)))
  | unary operator e =>
    rw [Eval.evaluate]
    exact (ih.evaluate h hs (hv.part (.inner (.head _)))).bind fun w₁ v m₁ _ h₁ _ =>
      .ofExcept h₁ fun _ => Operator.isData_of_unary
  | binary l operator r =>
    rw [Eval.evaluate]
    refine (ih.evaluate h hs (hv.part (.inner (.head _)))).bind fun w₁ v m₁ hle₁ h₁ _ => ?_
    have hright := hv.part (.inner (.tail _ (.head _)))
    exact (ih.evaluate h₁ (hs.mono hle₁) hright).bind fun w₂ u m₂ _ h₂ _ =>
      .ofExcept h₂ fun _ => Operator.isData_of_binary
  | logical l operator r =>
    rw [Eval.evaluate]
    refine (ih.evaluate h hs (hv.part (.inner (.head _)))).bind fun w₁ v m₁ hle₁ h₁ hval => ?_
    split
    · exact .ret h₁ hval
    · exact ih.evaluate h₁ (hs.mono hle₁) (hv.part (.inner (.tail _ (.head _))))
  | var id name =>
    rw [Eval.evaluate]
    exact h.lookUp id name.lexeme
  | assign => exact evaluate_assign ih h hs hv
  | call => exact evaluate_call ih h hs hv
  | get => exact evaluate_get ih h hs hv
  | set => exact evaluate_set ih h hs hv
  | thisRef id keyword =>
    rw [Eval.evaluate]
    exact h.lookUp id keyword.lexeme
  | superRef id keyword method =>
    rw [Eval.evaluate]
    exact h.superMethod id method.lexeme
  | unparsed =>
    rw [Eval.evaluate]
    exact .fail h _

theorem evaluateOption_succ {e : Option Expr} (hv : ∀ e', e = some e' → Visits ps (.expr e') p) :
    Charts ps T w frame (fun w' v => v.In (w'.region ps)) (Eval.evaluateOption (n + 1) e m) := by
  cases e with
  | none =>
    rw [Eval.evaluateOption]
    exact .ret h trivial
  | some e =>
    rw [Eval.evaluateOption]
    exact ih.evaluate h hs (hv e rfl)

theorem evaluateAll_succ {es : List Expr} (hv : Visits ps (.exprs es) p) :
    Charts ps T w frame (fun w' vs => ∀ v ∈ vs, v.In (w'.region ps))
      (Eval.evaluateAll (n + 1) es m) := by
  cases es with
  | nil =>
    rw [Eval.evaluateAll]
    exact .ret h (List.forall_mem_nil _)
  | cons e es =>
    rw [Eval.evaluateAll]
    refine (ih.evaluate h hs (hv.part (.inner (.head _)))).bind fun w₁ v m₁ hle₁ h₁ hval => ?_
    have hmore := hv.part (.inner (.tail _ (.head _)))
    refine (ih.evaluateAll h₁ (hs.mono hle₁) hmore).bind fun w₂ vs m₂ hle₂ h₂ hvs => ?_
    exact .ret h₂ (List.forall_mem_cons.2 ⟨.mono hle₂ hval, hvs⟩)

end Expressions

/-! ## Statements -/

section Statements

variable (h : Charted ps T w frame m) (hs : w.Stands frame p)
include ih h hs

theorem execute_var {name : Token} {init : Option Expr}
    (hv : Visits ps (.stmt (.var name init)) p) :
    Charts ps T w frame (Flow.GoesOn ps frame (p.declare name))
      (Eval.execute (n + 1) (.var name init) m) := by
  rw [Eval.execute]
  have hinit : ∀ e, init = some e →
      Visits ps (.expr e) { p with scopes := (Resolve.declare p.scopes name).1 } := by
    rintro e rfl
    exact hv.part .initializer
  refine (ih.evaluateOption h (hs.begin name) hinit).bind fun w₁ v m₁ hle₁ h₁ hval => ?_
  have hs₁ := hs.mono hle₁
  have hle₂ := w₁.le_bind frame name.lexeme
  have h₂ := h₁.declare hs₁ name (hv.fits h.known).2.1 (.mono hle₂ hval)
  obtain rfl := h₁.current
  exact ⟨_, hle₂, h₂, hs₁.declare name⟩

theorem execute_block {body : List Stmt} (hv : Visits ps (.stmt (.block body)) p) :
    Charts ps T w frame (Flow.GoesOn ps frame p) (Eval.execute (n + 1) (.block body) m) := by
  have hnone : p.clauseOf = none := (hv.fits h.known).2.2
  rw [Eval.execute]
  refine (h.currentFrame (Q := fun w' here => w'.Stands here p) hs).bind ?_
  intro w₁ here m₁ hle₁ h₁ hs₁
  refine (h₁.childFrame hs₁ hnone [] body).bind fun w₂ inner m₂ hle₂ h₂ hbody => .inFrame h₂ ?_
  refine (ih.executeAll (h₂.inFrame inner) hbody (hv.part .block)).weaken (.refl _) ?_
  intro w₃ flow hle₃ hflow
  -- What comes after the block stands in the frame around it as before.
  cases flow with
  | normal => exact hs.mono ((hle₁.trans hle₂).trans hle₃)
  | returned v => exact hflow

theorem execute_expression {e : Expr} (hv : Visits ps (.stmt (.expression e)) p) :
    Charts ps T w frame (Flow.GoesOn ps frame p) (Eval.execute (n + 1) (.expression e) m) := by
  rw [Eval.execute]
  refine (ih.evaluate h hs (hv.part (.inner (.head _)))).bind fun w₁ v m₁ hle₁ h₁ _ => ?_
  exact .ret h₁ (hs.mono hle₁)

/-- A statement that declares nothing leaves the point as it is. -/
theorem execute_inner {s : Stmt} (hv : Visits ps (.stmt s) p) (hstatement : s.isStatement = true) :
    Charts ps T w frame (Flow.GoesOn ps frame p) (Eval.execute n s m) := by
  have hdone := ih.execute h hs hv
  rwa [(hv.fits h.known).after_eq hstatement] at hdone

theorem execute_ifThen {condition : Expr} {yes : Stmt}
    (hv : Visits ps (.stmt (.ifThen condition yes)) p) :
    Charts ps T w frame (Flow.GoesOn ps frame p)
      (Eval.execute (n + 1) (.ifThen condition yes) m) := by
  obtain ⟨t, -, -, hstatement, -⟩ := (hv.fits h.known).1
  rw [Eval.execute]
  refine (ih.evaluate h hs (hv.part (.inner (.head _)))).bind fun w₁ v m₁ hle₁ h₁ _ => ?_
  split
  · exact execute_inner ih h₁ (hs.mono hle₁) (hv.part (.inner (.tail _ (.head _)))) hstatement
  · exact .ret h₁ (hs.mono hle₁)

theorem execute_ifElse {condition : Expr} {yes no : Stmt}
    (hv : Visits ps (.stmt (.ifElse condition yes no)) p) :
    Charts ps T w frame (Flow.GoesOn ps frame p)
      (Eval.execute (n + 1) (.ifElse condition yes no) m) := by
  obtain ⟨t, -, -, ⟨hyes, -⟩, hno, -⟩ := (hv.fits h.known).1
  have hvyes : Visits ps (.stmt yes) p := hv.part (.inner (.tail _ (.head _)))
  have hvno : Visits ps (.stmt no) p := by
    have hafter := hv.part .no
    rwa [(hvyes.fits h.known).after_eq hyes] at hafter
  rw [Eval.execute]
  refine (ih.evaluate h hs (hv.part (.inner (.head _)))).bind fun w₁ v m₁ hle₁ h₁ _ => ?_
  split
  · exact execute_inner ih h₁ (hs.mono hle₁) hvyes hyes
  · exact execute_inner ih h₁ (hs.mono hle₁) hvno hno

theorem execute_loop {condition : Expr} {body : Stmt}
    (hv : Visits ps (.stmt (.loop condition body)) p) :
    Charts ps T w frame (Flow.GoesOn ps frame p)
      (Eval.execute (n + 1) (.loop condition body) m) := by
  obtain ⟨t, -, -, hstatement, -⟩ := (hv.fits h.known).1
  rw [Eval.execute]
  refine (ih.evaluate h hs (hv.part (.inner (.head _)))).bind fun w₁ v m₁ hle₁ h₁ _ => ?_
  have hs₁ := hs.mono hle₁
  split
  · have hbody := hv.part (.inner (.tail _ (.head _)))
    refine (execute_inner ih h₁ hs₁ hbody hstatement).bind fun w₂ flow m₂ hle₂ h₂ hflow => ?_
    cases flow with
    | returned r => exact .ret h₂ hflow
    -- A loop declares nothing, so the next round is at the same point.
    | normal => exact execute_inner ih h₂ hflow hv rfl
  · exact .ret h₁ hs₁

omit ih in
theorem execute_function {d : FunctionDecl} (hv : Visits ps (.stmt (.function d)) p) :
    Charts ps T w frame (Flow.GoesOn ps frame (p.declare d.name))
      (Eval.execute (n + 1) (.function d) m) := by
  rw [Eval.execute]
  refine (h.currentFrame (Q := fun w' here => w' = w ∧ here = frame) ⟨rfl, rfl⟩).bind ?_
  rintro w here m₁ - h₁ ⟨rfl, rfl⟩
  have hstands := hs.declare d.name
  have hf : Closure.Stands ps _ ⟨d, here, false⟩ := ⟨_, hv.part .function, hstands⟩
  have h₂ := h₁.declare (v := .function _) hs d.name (hv.fits h₁.known).2.1 hf
  obtain rfl := h₁.current
  exact ⟨_, w.le_bind m₁.current d.name.lexeme, h₂, hstands⟩

theorem execute_ret {keyword : Token} {e : Option Expr}
    (hv : Visits ps (.stmt (.ret keyword e)) p) :
    Charts ps T w frame (Flow.GoesOn ps frame p) (Eval.execute (n + 1) (.ret keyword e) m) := by
  rw [Eval.execute]
  have hvalue : ∀ e', e = some e' → Visits ps (.expr e') p := by
    rintro e rfl
    exact hv.part (.inner (.head _))
  exact (ih.evaluateOption h hs hvalue).bind fun w₁ v m₁ _ h₁ hval => .ret h₁ hval

theorem execute_cls {name : Token} {superclass : Option Expr} {ms : List FunctionDecl}
    (hv : Visits ps (.stmt (.cls name superclass ms)) p) :
    Charts ps T w frame (Flow.GoesOn ps frame (p.declare name))
      (Eval.execute (n + 1) (.cls name superclass ms) m) := by
  cases superclass with
  | none =>
    rw [Eval.execute]
    exact (h.declareClass_base hv hs).bind fun w₁ _ m₁ _ h₁ hs₁ => .ret h₁ hs₁
  | some e =>
    have hclause := hs.clause (hv.fits h.known).2.2 name
    rw [Eval.execute]
    refine (ih.evaluate h hclause (hv.part .superclass)).bind fun w₁ v m₁ hle₁ h₁ hval => ?_
    cases v with
    | cls c =>
      have hdeclared := h₁.declareClass_derived hv (hs.mono hle₁) (c := c) hval
      exact hdeclared.bind fun w₂ _ m₂ _ h₂ hs₂ => .ret h₂ hs₂
    | _ => exact .fail h₁ _

theorem execute_succ {s : Stmt} (hv : Visits ps (.stmt s) p) :
    Charts ps T w frame (Flow.GoesOn ps frame (p.after s)) (Eval.execute (n + 1) s m) := by
  cases s with
  | expression => exact execute_expression ih h hs hv
  | var => exact execute_var ih h hs hv
  | block => exact execute_block ih h hs hv
  | ifThen condition yes =>
    rw [(hv.fits h.known).after_eq rfl]
    exact execute_ifThen ih h hs hv
  | ifElse condition yes no =>
    rw [(hv.fits h.known).after_eq rfl]
    exact execute_ifElse ih h hs hv
  | loop condition body =>
    rw [(hv.fits h.known).after_eq rfl]
    exact execute_loop ih h hs hv
  | function => exact execute_function h hs hv
  | ret => exact execute_ret ih h hs hv
  | cls name superclass ms =>
    cases superclass with
    | none => exact execute_cls ih h hs hv
    | some => exact execute_cls ih h hs hv

theorem executeAll_succ {ss : List Stmt} (hv : Visits ps (.stmts ss) p) :
    Charts ps T w frame (fun w' flow => flow.Holds (Value.In (w'.region ps)))
      (Eval.executeAll (n + 1) ss m) := by
  cases ss with
  | nil =>
    rw [Eval.executeAll]
    exact .ret h trivial
  | cons s ss =>
    rw [Eval.executeAll]
    refine (ih.execute h hs (hv.part (.inner (.head _)))).bind fun w₁ flow m₁ _ h₁ hflow => ?_
    cases flow with
    | returned v => exact .ret h₁ hflow
    | normal => exact ih.executeAll h₁ hflow (hv.part .more)

end Statements

/-! ## Calls -/

section Calls

variable (h : Charted ps T w frame m)
include ih h

theorem invoke_succ {f : Value} {args : List Value} (hf : f.In (w.region ps))
    (hargs : ∀ v ∈ args, v.In (w.region ps)) :
    Charts ps T w frame (fun w' v => v.In (w'.region ps)) (Eval.invoke (n + 1) f args m) := by
  rw [Eval.invoke]
  cases hc : f.callable? with
  | none => exact .fail h _
  | some c =>
    dsimp only
    split
    · exact ih.call h (Value.holds_of_callable? hf hc) hargs ‹_›
    · exact .fail h _

theorem call_succ {c : Callable} {args : List Value} (hc : c.Holds (Value.In (w.region ps)))
    (hargs : ∀ v ∈ args, v.In (w.region ps)) (hlen : args.length = c.arity) :
    Charts ps T w frame (fun w' v => v.In (w'.region ps)) (Eval.call (n + 1) c args m) := by
  cases c with
  | native f =>
    rw [Eval.call]
    exact h.native f args
  | function f =>
    rw [Eval.call]
    exact ih.callFunction h hc hargs hlen
  | cls c =>
    rw [Eval.call]
    refine (h.newObject (c := c) hc).bind fun w₁ object m₁ hle₁ h₁ hobject => ?_
    cases hi : c.findMethod? initializerName with
    | none => exact .ret h₁ hobject
    | some init =>
      have hclass : c.In (w₁.region ps) := Value.In.mono (v := .cls c) hle₁ hc
      refine (h₁.bindMethod (hclass.findMethod? hi) hobject).bind fun w₂ bound m₂ hle₂ h₂ hb => ?_
      have hargs₂ : ∀ v ∈ args, v.In (w₂.region ps) := fun v hv =>
        .mono (hle₁.trans hle₂) (hargs v hv)
      have hlen₂ : args.length = bound.arity := by
        rw [Closure.arity, hb.2]
        simp only [Callable.arity, Class.arity, hi] at hlen
        exact hlen
      refine (ih.callFunction h₂ hb.1 hargs₂ hlen₂).bind fun w₃ _ m₃ hle₃ h₃ _ => ?_
      exact .ret h₃ (.mono (hle₂.trans hle₃) hobject)

theorem runBody {f : Closure} {args : List Value} (hf : f.Stands ps w)
    (hargs : ∀ v ∈ args, v.In (w.region ps)) (hlen : args.length = f.arity) :
    Charts ps T w frame (fun w' flow => flow.Holds (Value.In (w'.region ps)))
      (Eval.runBody n f args m) := by
  obtain ⟨q, hq, hs⟩ := hf
  have hnone : q.clauseOf = none := (hq.fits h.known).2.2
  have hbody := hq.part .body
  have hsub := (hbody.fits h.known).allSub
  unfold Eval.runBody
  refine (h.childFrame hs hnone f.decl.params f.decl.body).bind fun w₁ inner m₁ hle₁ h₁ hs₁ => ?_
  have hargs₁ := fun v hv => (hargs v hv).mono hle₁
  refine (Charted.defineAll h₁ hs₁ hsub hargs₁ hlen).bind fun w₂ _ m₂ hle₂ h₂ hs₂ => ?_
  exact .inFrame h₂ (ih.executeAll (h₂.inFrame inner) hs₂ hbody)

theorem callFunction_succ {f : Closure} {args : List Value} (hf : f.Stands ps w)
    (hargs : ∀ v ∈ args, v.In (w.region ps)) (hlen : args.length = f.arity) :
    Charts ps T w frame (fun w' v => v.In (w'.region ps)) (Eval.callFunction (n + 1) f args m) := by
  rw [Eval.callFunction_succ]
  refine (runBody ih h hf hargs hlen).bind fun w₁ flow m₁ _ h₁ hflow => ?_
  split
  · exact h₁.readAt f.env 0 "this"
  · cases flow with
    | returned v => exact .ret h₁ hflow
    | normal => exact .ret h₁ trivial

end Calls

include ih in
theorem succ : ChartsAt ps T (n + 1) where
  evaluate h hs hv := evaluate_succ ih h hs hv
  evaluateOption h hs hv := evaluateOption_succ ih h hs hv
  evaluateAll h hs hv := evaluateAll_succ ih h hs hv
  execute h hs hv := execute_succ ih h hs hv
  executeAll h hs hv := executeAll_succ ih h hs hv
  invoke h hf hargs := invoke_succ ih h hf hargs
  call h hc hargs hlen := call_succ ih h hc hargs hlen
  callFunction h hf hargs hlen := callFunction_succ ih h hf hargs hlen

end ChartsAt

theorem chartsAt (ps : List (List Stmt)) (T : Table) : ∀ n, ChartsAt ps T n
  | 0 => chartsAt_zero ps T
  | n + 1 => (chartsAt ps T n).succ

end Lox
