import Lox.Proofs.Lexical.Classes

/-!
# Lox.Proofs.Lexical.Simulation

The evaluators run linked programs alike (`simAt`). The induction is on the fuel, which both spend in
the same places; each form of the source is one lemma over the statement for less fuel.
-/

namespace Lox
namespace Lexical

/-- Expressions can be evaluated in this frame and with these names. -/
structure Visible (w : Plan) (t : Table) (cls : ClassContext) (scopes : List Lox.Scope)
    (frame : FrameId) (names : Names) : Prop where
  aligned : Aligned w scopes frame names
  carries : Scope.Carries scopes cls
  table : t.Le w.table

theorem Visible.mono {w w' : Plan} {t : Table} {cls : ClassContext} {scopes : List Lox.Scope}
    {frame : FrameId} {names : Names} (h : Visible w t cls scopes frame names) (hle : w.Le w') :
    Visible w' t cls scopes frame names :=
  ⟨h.aligned.mono hle, h.carries, h.table.trans hle.table⟩

theorem At.visible {w : Plan} {t : Table} {cls : ClassContext} {scopes : List Lox.Scope}
    {frame : FrameId} {scope : Scope} (h : At w cls scopes frame scope) (ht : t.Le w.table) :
    Visible w t cls scopes frame scope.names :=
  ⟨h.aligned, h.carries, ht⟩

/-- Statements end alike. A return leaves a function, and an initializer without a value. -/
def FlowRel (w : Plan) (left : FunctionContext) : Flow → Flow Names → Prop
  | .normal, .normal => True
  | .returned v, .returned v' =>
    ValueRel w v v' ∧ left ≠ .outside ∧ (left = .initializer → v = .nil)
  | _, _ => False

/-- What a statement ends with: a flow, and the scope of the statements after it. -/
def EndRel (ctx : ResolveContext) (scopes : List Lox.Scope) (frame : FrameId) (w : Plan)
    (flow : Flow) (r : Flow Names × Scope) : Prop :=
  FlowRel w ctx.function flow r.1 ∧ At w ctx.cls scopes frame r.2

/-- With this fuel the evaluators run linked programs alike. -/
structure SimAt (n : Nat) : Prop where
  evaluate : ∀ {w : Plan} {t : Table} {ctx : ResolveContext} {scopes : List Lox.Scope}
    {frame : FrameId} {names : Names} {m : Lox.Machine} {x : Machine} {e : Expr},
    Agree w frame m x → Visible w t ctx.cls scopes frame names → e.Linked t ctx scopes →
    Matches w none frame ValueRel (Lox.Eval.evaluate n e m) (Eval.evaluate n names e x)
  evaluateOption : ∀ {w : Plan} {t : Table} {ctx : ResolveContext} {scopes : List Lox.Scope}
    {frame : FrameId} {names : Names} {m : Lox.Machine} {x : Machine} {e : Option Expr},
    Agree w frame m x → Visible w t ctx.cls scopes frame names → Expr.OptionLinked t ctx scopes e →
    Matches w none frame (fun w' v v' => ValueRel w' v v' ∧ (e = none → v = .nil))
      (Lox.Eval.evaluateOption n e m) (Eval.evaluateOption n names e x)
  evaluateAll : ∀ {w : Plan} {t : Table} {ctx : ResolveContext} {scopes : List Lox.Scope}
    {frame : FrameId} {names : Names} {m : Lox.Machine} {x : Machine} {es : List Expr},
    Agree w frame m x → Visible w t ctx.cls scopes frame names → Expr.AllLinked t ctx scopes es →
    Matches w none frame (fun w' vs vs' => List.Forall₂ (ValueRel w') vs vs')
      (Lox.Eval.evaluateAll n es m) (Eval.evaluateAll n names es x)
  execute : ∀ {w : Plan} {t : Table} {ctx : ResolveContext} {scopes : List Lox.Scope}
    {frame : FrameId} {scope : Scope} {m : Lox.Machine} {x : Machine} {s : Stmt},
    Agree w frame m x → At w ctx.cls scopes frame scope → t.Le w.table → s.Linked t ctx scopes →
    Matches w (some frame) frame (EndRel ctx (s.after scopes) frame)
      (Lox.Eval.execute n s m) (Eval.execute n scope s x)
  executeAll : ∀ {w : Plan} {t : Table} {ctx : ResolveContext} {scopes : List Lox.Scope}
    {frame : FrameId} {scope : Scope} {m : Lox.Machine} {x : Machine} {ss : List Stmt},
    Agree w frame m x → At w ctx.cls scopes frame scope → t.Le w.table →
    Stmt.AllLinked t ctx scopes ss →
    Matches w (some frame) frame (fun w' flow flow' => FlowRel w' ctx.function flow flow')
      (Lox.Eval.executeAll n ss m) (Eval.executeAll n scope ss x)
  invoke : ∀ {w : Plan} {frame : FrameId} {m : Lox.Machine} {x : Machine} {f : Value}
    {f' : Value Names} {args : List Value} {args' : List (Value Names)},
    Agree w frame m x → ValueRel w f f' → List.Forall₂ (ValueRel w) args args' →
    Matches w none frame ValueRel (Lox.Eval.invoke n f args m) (Eval.invoke n f' args' x)
  call : ∀ {w : Plan} {frame : FrameId} {m : Lox.Machine} {x : Machine} {c : Callable}
    {c' : Callable Names} {args : List Value} {args' : List (Value Names)},
    Agree w frame m x → CallableRel w c c' → List.Forall₂ (ValueRel w) args args' →
    args.length = c.arity →
    Matches w none frame ValueRel (Lox.Eval.call n c args m) (Eval.call n c' args' x)
  callFunction : ∀ {w : Plan} {frame : FrameId} {m : Lox.Machine} {x : Machine} {f : Closure}
    {g : Closure Names} {args : List Value} {args' : List (Value Names)},
    Agree w frame m x → FunctionRel w f g → List.Forall₂ (ValueRel w) args args' →
    args.length = f.arity →
    Matches w none frame ValueRel (Lox.Eval.callFunction n f args m)
      (Eval.callFunction n g args' x)

theorem simAt_zero : SimAt 0 := by
  constructor
  all_goals
    intros
    simp only [Lox.Eval.evaluate_zero, Lox.Eval.evaluateOption_zero, Lox.Eval.evaluateAll_zero,
      Lox.Eval.execute_zero, Lox.Eval.executeAll_zero, Lox.Eval.invoke_zero, Lox.Eval.call_zero,
      Lox.Eval.callFunction_zero, Eval.evaluate_zero, Eval.evaluateOption_zero,
      Eval.evaluateAll_zero, Eval.execute_zero, Eval.executeAll_zero, Eval.invoke_zero,
      Eval.call_zero, Eval.callFunction_zero]
    trivial

namespace SimAt

variable {n : Nat} (ih : SimAt n) {w : Plan} {t : Table} {ctx : ResolveContext}
  {scopes : List Lox.Scope} {frame : FrameId} {names : Names} {scope : Scope} {m : Lox.Machine}
  {x : Machine}

/-! ## Expressions -/

section Expressions

variable (h : Agree w frame m x) (hv : Visible w t ctx.cls scopes frame names)
include ih h hv

theorem evaluate_unary {operator : Token} {e : Expr}
    (hl : (Expr.unary operator e).Linked t ctx scopes) :
    Matches w none frame ValueRel (Lox.Eval.evaluate (n + 1) (.unary operator e) m)
      (Eval.evaluate (n + 1) names (.unary operator e) x) := by
  simp only [Lox.Eval.evaluate, Eval.evaluate]
  exact (ih.evaluate h hv hl.2).bind fun w' v v' m' x' hg h' hr => .ofExcept h' (unary_rel hr hl.1)

theorem evaluate_binary {operator : Token} {l r : Expr}
    (hl : (Expr.binary l operator r).Linked t ctx scopes) :
    Matches w none frame ValueRel (Lox.Eval.evaluate (n + 1) (.binary l operator r) m)
      (Eval.evaluate (n + 1) names (.binary l operator r) x) := by
  simp only [Lox.Eval.evaluate, Eval.evaluate]
  refine (ih.evaluate h hv hl.2.1).bind fun w₁ u u' m₁ x₁ hg₁ h₁ hu => ?_
  refine (ih.evaluate h₁ (hv.mono hg₁.toLe) hl.2.2).bind fun w₂ v v' m₂ x₂ hg₂ h₂ hv₂ => ?_
  exact .ofExcept h₂ (binary_rel (hu.mono hg₂.toLe) hv₂ hl.1)

theorem evaluate_logical {operator : Token} {l r : Expr}
    (hl : (Expr.logical l operator r).Linked t ctx scopes) :
    Matches w none frame ValueRel (Lox.Eval.evaluate (n + 1) (.logical l operator r) m)
      (Eval.evaluate (n + 1) names (.logical l operator r) x) := by
  simp only [Lox.Eval.evaluate, Eval.evaluate]
  refine (ih.evaluate h hv hl.1).bind fun w₁ u u' m₁ x₁ hg₁ h₁ hu => ?_
  rw [isDecided_eq hu]
  split
  · exact .ret h₁ hu
  · exact ih.evaluate h₁ (hv.mono hg₁.toLe) hl.2

theorem evaluate_assign {id : RefId} {name : Token} {e : Expr}
    (hl : (Expr.assign id name e).Linked t ctx scopes) :
    Matches w none frame ValueRel (Lox.Eval.evaluate (n + 1) (.assign id name e) m)
      (Eval.evaluate (n + 1) names (.assign id name e) x) := by
  simp only [Lox.Eval.evaluate, Eval.evaluate]
  refine (ih.evaluate h hv hl.2.2).bind fun w₁ u u' m₁ x₁ hg₁ h₁ hu => ?_
  have hv₁ := hv.mono hg₁.toLe
  refine (matches_assign h₁ hv₁.aligned hv₁.table hl.1 hl.2.1 hu).bind
    fun w₂ _ _ m₂ x₂ hg₂ h₂ _ => ?_
  exact .ret h₂ (hu.mono hg₂.toLe)

theorem evaluate_call {callee : Expr} {paren : Token} {args : List Expr}
    (hl : (Expr.call callee paren args).Linked t ctx scopes) :
    Matches w none frame ValueRel (Lox.Eval.evaluate (n + 1) (.call callee paren args) m)
      (Eval.evaluate (n + 1) names (.call callee paren args) x) := by
  simp only [Lox.Eval.evaluate, Eval.evaluate]
  refine (ih.evaluate h hv hl.1).bind fun w₁ f f' m₁ x₁ hg₁ h₁ hf => ?_
  refine (ih.evaluateAll h₁ (hv.mono hg₁.toLe) hl.2).bind fun w₂ vs vs' m₂ x₂ hg₂ h₂ hvs => ?_
  exact ih.invoke h₂ (hf.mono hg₂.toLe) hvs

theorem evaluate_get {object : Expr} {name : Token}
    (hl : (Expr.get object name).Linked t ctx scopes) :
    Matches w none frame ValueRel (Lox.Eval.evaluate (n + 1) (.get object name) m)
      (Eval.evaluate (n + 1) names (.get object name) x) := by
  simp only [Lox.Eval.evaluate, Eval.evaluate]
  refine (ih.evaluate (e := object) h hv hl).bind fun w₁ u u' m₁ x₁ hg₁ h₁ hu => ?_
  cases hu with
  | object o hc => exact matches_property h₁ o hc name.lexeme
  | _ => exact .fail h₁ rfl

theorem evaluate_set {object value : Expr} {name : Token}
    (hl : (Expr.set object name value).Linked t ctx scopes) :
    Matches w none frame ValueRel (Lox.Eval.evaluate (n + 1) (.set object name value) m)
      (Eval.evaluate (n + 1) names (.set object name value) x) := by
  simp only [Lox.Eval.evaluate, Eval.evaluate]
  refine (ih.evaluate h hv hl.1).bind fun w₁ u u' m₁ x₁ hg₁ h₁ hu => ?_
  cases hu with
  | object o hc =>
    refine (ih.evaluate h₁ (hv.mono hg₁.toLe) hl.2).bind fun w₂ v v' m₂ x₂ hg₂ h₂ hv₂ => ?_
    exact (matches_setField h₂ o name.lexeme hv₂).bind fun w₃ _ _ m₃ x₃ hg₃ h₃ _ =>
      .ret h₃ (hv₂.mono hg₃.toLe)
  | _ => exact .fail h₁ rfl

omit ih in
theorem evaluate_thisRef {id : RefId} {keyword : Token}
    (hl : (Expr.thisRef id keyword).Linked t ctx scopes) :
    Matches w none frame ValueRel (Lox.Eval.evaluate (n + 1) (.thisRef id keyword) m)
      (Eval.evaluate (n + 1) names (.thisRef id keyword) x) := by
  obtain ⟨hkeyword, hcls, hid⟩ := hl
  obtain ⟨d, hthis⟩ := hv.carries.exists_this hcls
  simp only [Lox.Eval.evaluate, Eval.evaluate, hkeyword]
  exact matches_lookUp h hv.aligned hv.table hid hthis.2

omit ih in
theorem evaluate_superRef {id : RefId} {keyword method : Token}
    (hl : (Expr.superRef id keyword method).Linked t ctx scopes) :
    Matches w none frame ValueRel (Lox.Eval.evaluate (n + 1) (.superRef id keyword method) m)
      (Eval.evaluate (n + 1) names (.superRef id keyword method) x) := by
  simp only [Lox.Eval.evaluate, Eval.evaluate]
  have hcarries := hv.carries
  rw [hl.1] at hcarries
  exact matches_superMethod h hv.aligned hv.table hcarries hl.2 method.lexeme

theorem evaluate_succ {e : Expr} (hl : e.Linked t ctx scopes) :
    Matches w none frame ValueRel (Lox.Eval.evaluate (n + 1) e m)
      (Eval.evaluate (n + 1) names e x) := by
  cases e with
  | constant c => exact .ret h (.ofConstant c)
  | grouping e => exact ih.evaluate (e := e) h hv hl
  | unary => exact evaluate_unary ih h hv hl
  | binary => exact evaluate_binary ih h hv hl
  | logical => exact evaluate_logical ih h hv hl
  | var id name => exact matches_lookUp h hv.aligned hv.table hl.1 hl.2
  | assign => exact evaluate_assign ih h hv hl
  | call => exact evaluate_call ih h hv hl
  | get => exact evaluate_get ih h hv hl
  | set => exact evaluate_set ih h hv hl
  | thisRef => exact evaluate_thisRef h hv hl
  | superRef => exact evaluate_superRef h hv hl
  | unparsed => exact hl.elim

theorem evaluateOption_succ {e : Option Expr} (hl : Expr.OptionLinked t ctx scopes e) :
    Matches w none frame (fun w' v v' => ValueRel w' v v' ∧ (e = none → v = .nil))
      (Lox.Eval.evaluateOption (n + 1) e m) (Eval.evaluateOption (n + 1) names e x) := by
  cases e with
  | none => exact .ret h ⟨.nil, fun _ => rfl⟩
  | some e => exact (ih.evaluate h hv hl).weaken (fun _ => id) fun _ _ _ hr => ⟨hr, nofun⟩

theorem evaluateAll_succ {es : List Expr} (hl : Expr.AllLinked t ctx scopes es) :
    Matches w none frame (fun w' vs vs' => List.Forall₂ (ValueRel w') vs vs')
      (Lox.Eval.evaluateAll (n + 1) es m) (Eval.evaluateAll (n + 1) names es x) := by
  cases es with
  | nil => exact .ret h .nil
  | cons e es =>
    simp only [Lox.Eval.evaluateAll, Eval.evaluateAll]
    refine (ih.evaluate h hv hl.1).bind fun w₁ v v' m₁ x₁ hg₁ h₁ hv₁ => ?_
    refine (ih.evaluateAll h₁ (hv.mono hg₁.toLe) hl.2).bind fun w₂ vs vs' m₂ x₂ hg₂ h₂ hvs => ?_
    exact .ret h₂ (.cons (hv₁.mono hg₂.toLe) hvs)

end Expressions

/-! ## Statements -/

section Statements

variable (h : Agree w frame m x) (hat : At w ctx.cls scopes frame scope) (ht : t.Le w.table)
include ih h hat ht

theorem execute_expression {e : Expr} (hl : (Stmt.expression e).Linked t ctx scopes) :
    Matches w (some frame) frame (EndRel ctx scopes frame)
      (Lox.Eval.execute (n + 1) (.expression e) m)
      (Eval.execute (n + 1) scope (.expression e) x) := by
  simp only [Lox.Eval.execute, Eval.execute]
  exact (ih.evaluate h (hat.visible ht) hl).bindNone fun w₁ _ _ m₁ x₁ hg₁ h₁ _ =>
    .ret h₁ ⟨trivial, hat.mono hg₁⟩

theorem execute_var {name : Token} {init : Option Expr}
    (hl : (Stmt.var name init).Linked t ctx scopes) :
    Matches w (some frame) frame (EndRel ctx (Scope.declare scopes name) frame)
      (Lox.Eval.execute (n + 1) (.var name init) m)
      (Eval.execute (n + 1) scope (.var name init) x) := by
  obtain ⟨place, scope', x', w₁, hdeclare, hg₁, h₁, hbegun⟩ := hat.begin hl.1 h
  simp only [Lox.Eval.execute, Eval.execute]
  rw [Computation.bind_of_done hdeclare]
  refine Matches.after hg₁ ?_
  have hv : Visible w₁ t ctx.cls _ frame scope'.names :=
    ⟨hbegun.aligned, hbegun.carries_enter, ht.trans hg₁.toLe.table⟩
  refine (ih.evaluateOption h₁ hv hl.2).bindNone fun w₂ v v' m₂ x₂ hg₂ h₂ hr => ?_
  have hbegun₂ := hbegun.mono hg₂
  have hg₃ := w₂.grows_complete (some frame) place
  obtain ⟨x₃, hdefine, h₃⟩ := hbegun₂.define h₂ (hr.1.mono hg₃.toLe)
  rw [Computation.bind_of_done hdefine]
  obtain rfl := h₂.current
  exact ⟨w₂.complete place, hg₃, h₃, trivial, hbegun₂.at_complete⟩

theorem execute_block {body : List Stmt} (hl : (Stmt.block body).Linked t ctx scopes) :
    Matches w (some frame) frame (EndRel ctx scopes frame)
      (Lox.Eval.execute (n + 1) (.block body) m)
      (Eval.execute (n + 1) scope (.block body) x) := by
  simp only [Lox.Eval.execute, Eval.execute]
  rw [Computation.bind_of_done h.currentFrame_eq, Computation.bind_of_done (h.childFrame_eq frame)]
  have hg := w.grows_addFrame none frame
  have h' := h.addFrame frame
  have hinside := At.inside hat.aligned hat.carries hat.settled
  have hbody := ih.executeAll (h'.inFrame w.links.length) hinside (ht.trans hg.toLe.table) hl
  have hframed := Matches.inside hg (Nat.le_refl _) (Matches.inFrame h' hbody)
  exact hframed.mapRight fun w' _ _ hg' hflow => ⟨hflow, hat.mono hg'⟩

theorem execute_ifThen {condition : Expr} {yes : Stmt}
    (hl : (Stmt.ifThen condition yes).Linked t ctx scopes) :
    Matches w (some frame) frame (EndRel ctx scopes frame)
      (Lox.Eval.execute (n + 1) (.ifThen condition yes) m)
      (Eval.execute (n + 1) scope (.ifThen condition yes) x) := by
  obtain ⟨hc, hstmt, hyes⟩ := hl
  simp only [Lox.Eval.execute, Eval.execute]
  refine (ih.evaluate h (hat.visible ht) hc).bindNone fun w₁ v v' m₁ x₁ hg₁ h₁ hv => ?_
  rw [hv.isTruthy_eq]
  split
  · have hend := ih.execute h₁ (hat.mono hg₁) (ht.trans hg₁.toLe.table) hyes
    rwa [Stmt.after_of_isStatement hstmt] at hend
  · exact .ret h₁ ⟨trivial, hat.mono hg₁⟩

theorem execute_ifElse {condition : Expr} {yes no : Stmt}
    (hl : (Stmt.ifElse condition yes no).Linked t ctx scopes) :
    Matches w (some frame) frame (EndRel ctx scopes frame)
      (Lox.Eval.execute (n + 1) (.ifElse condition yes no) m)
      (Eval.execute (n + 1) scope (.ifElse condition yes no) x) := by
  obtain ⟨hc, ⟨hys, hyes⟩, hns, hno⟩ := hl
  simp only [Lox.Eval.execute, Eval.execute]
  refine (ih.evaluate h (hat.visible ht) hc).bindNone fun w₁ v v' m₁ x₁ hg₁ h₁ hv => ?_
  have hat₁ := hat.mono hg₁
  have ht₁ := ht.trans hg₁.toLe.table
  rw [hv.isTruthy_eq]
  split
  · have hend := ih.execute h₁ hat₁ ht₁ hyes
    rwa [Stmt.after_of_isStatement hys] at hend
  · have hend := ih.execute h₁ hat₁ ht₁ hno
    rwa [Stmt.after_of_isStatement hns] at hend

theorem execute_loop {condition : Expr} {body : Stmt}
    (hl : (Stmt.loop condition body).Linked t ctx scopes) :
    Matches w (some frame) frame (EndRel ctx scopes frame)
      (Lox.Eval.execute (n + 1) (.loop condition body) m)
      (Eval.execute (n + 1) scope (.loop condition body) x) := by
  obtain ⟨hc, hstmt, hbody⟩ := hl
  simp only [Lox.Eval.execute, Eval.execute]
  refine (ih.evaluate h (hat.visible ht) hc).bindNone fun w₁ v v' m₁ x₁ hg₁ h₁ hv => ?_
  have hat₁ := hat.mono hg₁
  have ht₁ := ht.trans hg₁.toLe.table
  rw [hv.isTruthy_eq]
  split
  · have hround := ih.execute h₁ hat₁ ht₁ hbody
    rw [Stmt.after_of_isStatement hstmt] at hround
    refine hround.bind fun w₂ flow r m₂ x₂ hg₂ h₂ hend => ?_
    obtain ⟨flow', scope'⟩ := r
    obtain ⟨hflow, hat'⟩ := hend
    -- A body that is no declaration leaves the scope around it as it is.
    have hat₂ : At w₂ ctx.cls scopes frame scope :=
      ⟨hat₁.aligned.mono hg₂.toLe, hat.carries, hat.settled, hat'.owned, hat.isTop⟩
    cases flow with
    | returned u =>
      cases flow' with
      | returned u' => exact .ret h₂ ⟨hflow, hat₂⟩
      | normal => exact hflow.elim
    | normal =>
      cases flow' with
      | returned u' => exact hflow.elim
      | normal => exact ih.execute h₂ hat₂ (ht₁.trans hg₂.toLe.table) ⟨hc, hstmt, hbody⟩
  · exact .ret h₁ ⟨trivial, hat₁⟩

omit ih in
theorem execute_function {decl : FunctionDecl} (hl : (Stmt.function decl).Linked t ctx scopes) :
    Matches w (some frame) frame (EndRel ctx (Scope.declare scopes decl.name) frame)
      (Lox.Eval.execute (n + 1) (.function decl) m)
      (Eval.execute (n + 1) scope (.function decl) x) := by
  obtain ⟨place, scope', x', w₁, hdeclare, hg₁, h₁, hbegun⟩ := hat.begin hl.1 h
  have hat' := hbegun.at_complete
  have hg₂ := w₁.grows_complete (some frame) place
  have hfunction : FunctionRel (w₁.complete place) ⟨decl, frame, false⟩
      ⟨decl, scope'.names, false⟩ :=
    ⟨rfl, rfl, Scope.declare scopes decl.name,
      ⟨⟨t, _, ht.trans (hg₁.trans hg₂).toLe.table, hl.2, hat'.carries, ⟨nofun, nofun⟩⟩,
        nofun⟩, hat'.settled, hat'.aligned⟩
  obtain ⟨x₂, hdefine, h₂⟩ := hbegun.define h₁ (.function hfunction)
  simp only [Lox.Eval.execute, Eval.execute]
  rw [Computation.bind_of_done h.currentFrame_eq, Computation.bind_of_done hdeclare,
    Computation.bind_of_done hdefine]
  obtain rfl := h.current
  exact ⟨w₁.complete place, hg₁.trans hg₂, h₂, trivial, hat'⟩

theorem execute_ret {keyword : Token} {value : Option Expr}
    (hl : (Stmt.ret keyword value).Linked t ctx scopes) :
    Matches w (some frame) frame (EndRel ctx scopes frame)
      (Lox.Eval.execute (n + 1) (.ret keyword value) m)
      (Eval.execute (n + 1) scope (.ret keyword value) x) := by
  obtain ⟨⟨hout, hinit⟩, hvalue⟩ := hl
  simp only [Lox.Eval.execute, Eval.execute]
  refine (ih.evaluateOption h (hat.visible ht) hvalue).bindNone
    fun w₁ v v' m₁ x₁ hg₁ h₁ hv => ?_
  exact .ret h₁ ⟨⟨hv.1, hout, fun hi => hv.2 (hinit hi)⟩, hat.mono hg₁⟩

theorem execute_cls {name : Token} {superclass : Option Expr} {ms : List FunctionDecl}
    (hl : (Stmt.cls name superclass ms).Linked t ctx scopes) :
    Matches w (some frame) frame (EndRel ctx (Scope.declare scopes name) frame)
      (Lox.Eval.execute (n + 1) (.cls name superclass ms) m)
      (Eval.execute (n + 1) scope (.cls name superclass ms) x) := by
  cases superclass with
  | none =>
    simp only [Lox.Eval.execute, Eval.execute]
    exact (matches_declareClass_base h hat ht hl.1 hl.2).bind fun w₁ _ scope₁ m₁ x₁ _ h₁ hat₁ =>
      .ret h₁ ⟨trivial, hat₁⟩
  | some e =>
    simp only [Lox.Eval.execute, Eval.execute]
    refine (ih.evaluate h (hat.visible ht) hl.2.1).bindNone fun w₁ v v' m₁ x₁ hg₁ h₁ hv => ?_
    cases hv with
    | cls hc =>
      exact (matches_declareClass_derived h₁ (hat.mono hg₁) (ht.trans hg₁.toLe.table) hl.1 hc
        hl.2.2).bind fun w₂ _ scope₂ m₂ x₂ _ h₂ hat₂ => .ret h₂ ⟨trivial, hat₂⟩
    | _ => exact .fail h₁ rfl

theorem execute_succ {s : Stmt} (hl : s.Linked t ctx scopes) :
    Matches w (some frame) frame (EndRel ctx (s.after scopes) frame)
      (Lox.Eval.execute (n + 1) s m) (Eval.execute (n + 1) scope s x) := by
  cases s with
  | expression => exact execute_expression ih h hat ht hl
  | var => exact execute_var ih h hat ht hl
  | block => exact execute_block ih h hat ht hl
  | ifThen => exact execute_ifThen ih h hat ht hl
  | ifElse => exact execute_ifElse ih h hat ht hl
  | loop => exact execute_loop ih h hat ht hl
  | function => exact execute_function h hat ht hl
  | ret => exact execute_ret ih h hat ht hl
  | cls => exact execute_cls ih h hat ht hl

theorem executeAll_succ {ss : List Stmt} (hl : Stmt.AllLinked t ctx scopes ss) :
    Matches w (some frame) frame (fun w' flow flow' => FlowRel w' ctx.function flow flow')
      (Lox.Eval.executeAll (n + 1) ss m) (Eval.executeAll (n + 1) scope ss x) := by
  cases ss with
  | nil => exact .ret h trivial
  | cons s ss =>
    simp only [Lox.Eval.executeAll, Eval.executeAll]
    refine (ih.execute h hat ht hl.1).bind fun w₁ flow r m₁ x₁ hg₁ h₁ hend => ?_
    obtain ⟨flow', scope'⟩ := r
    obtain ⟨hflow, hat₁⟩ := hend
    cases flow with
    | returned u =>
      cases flow' with
      | returned u' => exact .ret h₁ hflow
      | normal => exact hflow.elim
    | normal =>
      cases flow' with
      | returned u' => exact hflow.elim
      | normal => exact ih.executeAll h₁ hat₁ (ht.trans hg₁.toLe.table) hl.2

end Statements

/-! ## Calls -/

section Calls

variable (h : Agree w frame m x) {args : List Value} {args' : List (Value Names)}
  (hargs : List.Forall₂ (ValueRel w) args args')
include ih h hargs

theorem invoke_succ {f : Value} {f' : Value Names} (hf : ValueRel w f f') :
    Matches w none frame ValueRel (Lox.Eval.invoke (n + 1) f args m)
      (Eval.invoke (n + 1) f' args' x) := by
  have hcallable := hf.callable?
  simp only [Lox.Eval.invoke, Eval.invoke]
  revert hcallable
  cases f.callable? <;> cases f'.callable? <;> rintro ⟨⟩
  · exact .fail h rfl
  · rename_i c c' hc
    simp only [hc.arity_eq, ← hargs.length_eq]
    split
    · rename_i harity
      exact ih.call h hc hargs harity
    · exact .fail h rfl

/-- What the body of a function ends with depends on what kind of function it is. -/
theorem runBody_rel {f : Closure} {g : Closure Names} (hf : FunctionRel w f g)
    (hlen : args.length = f.arity) :
    ∃ left, (left = .initializer ↔ f.isInitializer = true) ∧
      Matches w none frame (fun w' flow flow' => FlowRel w' left flow flow')
        (Lox.Eval.runBody n f args m) (Eval.runBody n g args' x) := by
  obtain ⟨hdecl, -, scopes, ⟨⟨t, ctx, ht, hlinked, hc, hleft⟩, -⟩, hs, ha⟩ := hf
  obtain ⟨⟨name, params, body⟩, env, isInitializer⟩ := f
  obtain ⟨decl', names, isInitializer'⟩ := g
  cases hdecl
  obtain ⟨hparams, hbody⟩ := hlinked
  refine ⟨ctx.function, hleft, ?_⟩
  have hg := w.grows_addFrame none env
  have hat := At.inside ha hc hs
  simp only [Lox.Eval.runBody, Eval.runBody]
  rw [Computation.bind_of_done (h.childFrame_eq env)]
  refine Matches.inside hg (Nat.le_refl _) ?_
  have hargs := ValueRel.monoAll hg.toLe hargs
  refine (matches_defineAll (h.addFrame env) hat (List.cons_ne_nil _ _) hparams hargs hlen).bind
    fun w₁ _ names₁ m₁ x₁ hg₁ h₁ hat₁ => ?_
  have ht₁ : t.Le w₁.table := ht.trans (hg.toLe.trans hg₁.toLe).table
  exact Matches.inFrame h₁ (ih.executeAll (h₁.inFrame w.links.length) hat₁ ht₁ hbody)

theorem callFunction_succ {f : Closure} {g : Closure Names} (hf : FunctionRel w f g)
    (hlen : args.length = f.arity) :
    Matches w none frame ValueRel (Lox.Eval.callFunction (n + 1) f args m)
      (Eval.callFunction (n + 1) g args' x) := by
  obtain ⟨left, -, hbody⟩ := runBody_rel ih h hargs hf hlen
  obtain ⟨-, hinit, scopes, ⟨-, hthis⟩, -, ha⟩ := hf
  rw [Lox.Eval.callFunction_succ, Eval.callFunction_succ, hinit]
  refine hbody.bind fun w₁ flow flow' m₁ x₁ hg₁ h₁ hflow => ?_
  by_cases hi : f.isInitializer = true
  · obtain ⟨v, c, v', hv, hcell, hv', hrel, -⟩ := (ha.mono hg₁.toLe).exists_value h₁ (hthis hi)
    simp only [hi, if_true, Lox.Eval.readAt, Lox.Eval.found, hv, lookUp, hcell, hv']
    exact ⟨w₁, .refl w₁, h₁, hrel⟩
  · simp only [hi]
    cases flow with
    | returned u =>
      cases flow' with
      | returned u' => exact .ret h₁ hflow.1
      | normal => exact hflow.elim
    | normal =>
      cases flow' with
      | returned u' => exact hflow.elim
      | normal => exact .ret h₁ .nil

theorem call_succ {c : Callable} {c' : Callable Names} (hc : CallableRel w c c')
    (hlen : args.length = c.arity) :
    Matches w none frame ValueRel (Lox.Eval.call (n + 1) c args m)
      (Eval.call (n + 1) c' args' x) := by
  cases hc with
  | native f => exact matches_native h f hargs
  | function hf => exact ih.callFunction h hf hargs hlen
  | @cls c c' hc =>
    simp only [Lox.Eval.call, Eval.call]
    refine (matches_newObject h hc).bind fun w₁ o o' m₁ x₁ hg₁ h₁ ho => ?_
    have hfound := (hc.mono hg₁.toLe).findMethod? initializerName
    simp only [Callable.arity, Class.arity] at hlen
    revert hfound hlen
    cases c.findMethod? initializerName <;> cases c'.findMethod? initializerName <;>
      rintro hlen ⟨⟩
    · exact .ret h₁ ho.1
    · rename_i hinit
      refine (matches_bindMethod h₁ hinit ho.1 ho.2).bind fun w₂ f f' m₂ x₂ hg₂ h₂ hf => ?_
      have hlen' : args.length = f.arity := hlen.trans (congrArg FunctionDecl.arity hf.2.symm)
      have hargs₂ := ValueRel.monoAll (hg₁.toLe.trans hg₂.toLe) hargs
      exact (ih.callFunction h₂ hf.1 hargs₂ hlen').bind fun w₃ _ _ m₃ x₃ hg₃ h₃ _ =>
        .ret h₃ (ho.1.mono (hg₂.toLe.trans hg₃.toLe))

end Calls

include ih in
theorem succ : SimAt (n + 1) where
  evaluate h hv hl := ih.evaluate_succ h hv hl
  evaluateOption h hv hl := ih.evaluateOption_succ h hv hl
  evaluateAll h hv hl := ih.evaluateAll_succ h hv hl
  execute h hat ht hl := ih.execute_succ h hat ht hl
  executeAll h hat ht hl := ih.executeAll_succ h hat ht hl
  invoke h hf hargs := ih.invoke_succ h hargs hf
  call h hc hargs hlen := ih.call_succ h hargs hc hlen
  callFunction h hf hargs hlen := ih.callFunction_succ h hargs hf hlen

end SimAt

theorem simAt (n : Nat) : SimAt n := by
  induction n with
  | zero => exact simAt_zero
  | succ n ih => exact ih.succ

end Lexical
end Lox
