import Lox.Proofs.Receiver.Later

/-!
# Lox.Proofs.Receiver.Bound

Methods and their receivers. Where an activity binds a method (`Binds`), the frame made for it keeps the
receiver; and all that the body of the method does itself, at whatever later time it is called, is
done under that frame (`Activity.Under`), so `this` means the receiver there. Initializers yield it.
-/

namespace Lox

open Eval
open Lexical (Plan Agree MethodRel Names simAt exists_of_rel_some)

/-! ## Binding -/

/-- The activity binds a method to a receiver; the second machine is the one right after. -/
inductive Binds : Activity → Machine → Value → Closure → Machine → Prop
  /-- A property is read that is no field. -/
  | get {n object name m c o m' f bound m''} : evaluate n object m = .done (.object c o) m' →
      m'.store.field? o name.lexeme = none → c.findMethod? name.lexeme = some f →
      bindMethod f (.object c o) m' = .done bound m'' →
      Binds (.evaluate (n + 1) (.get object name)) m (.object c o) bound m''
  /-- A method of the superclass is read; the receiver stays the same. -/
  | super {n id keyword method m d c c' o f bound m'} : m.locals.find? id = some d →
      m.store.getAt? m.current d "super" = some (.cls c) →
      m.store.getAt? m.current (d - 1) "this" = some (.object c' o) →
      c.findMethod? method.lexeme = some f →
      bindMethod f (.object c' o) m = .done bound m' →
      Binds (.evaluate (n + 1) (.superRef id keyword method)) m (.object c' o) bound m'
  /-- A class is called that has an initializer. -/
  | construct {n c args m object m' init bound m''} : newObject c m = .done object m' →
      c.findMethod? initializerName = some init → bindMethod init object m' = .done bound m'' →
      Binds (.call (n + 1) (.cls c) args) m object bound m''

/-- The new frame has the receiver. -/
theorem local?_of_bindMethod {f bound : Closure} {receiver : Value} {m m' : Machine}
    (h : bindMethod f receiver m = .done bound m') :
    bound = { f with env := m.store.frames.size } ∧
      m'.store.local? bound.env "this" = some receiver := by
  cases h
  refine ⟨rfl, ?_⟩
  show (Store.define _ m.store.frames.size "this" receiver).local? m.store.frames.size "this" = _
  rw [Store.local?_define _ _ (by simp [Store.addFrame]), if_pos rfl]

/-- A receiver or superclass that a frame has once stays. -/
theorem Kept.local? {m m' : Machine} (h : Kept m m') {f : FrameId} {name : String} {v : Value}
    (hn : IsReceiverName name) (hv : m.store.local? f name = some v) :
    m'.store.local? f name = some v := by
  rw [h.store.bound f (Store.lt_of_local? hv) name hn]
  exact hv

theorem Binds.local? {a : Activity} {m m' : Machine} {receiver : Value} {bound : Closure}
    (h : Binds a m receiver bound m') :
    m'.store.local? bound.env "this" = some receiver := by
  cases h with
  | get _ _ _ hb => exact (local?_of_bindMethod hb).2
  | super _ _ _ _ hb => exact (local?_of_bindMethod hb).2
  | construct _ _ hb => exact (local?_of_bindMethod hb).2

/-! ## The code of methods -/

/-- The declaration is linked as a method is, by distances that the machine has. -/
def Machine.Knows (m : Machine) (decl : FunctionDecl) : Prop :=
  ∃ (t : Table) (ctx : ResolveContext) (scopes : List Scope),
    decl.Linked t ctx (Resolve.thisScope :: scopes) ∧
      Scope.Carries (Resolve.thisScope :: scopes) ctx.cls ∧
      ∀ id d, t.Says id (some d) → m.locals.find? id = some d

theorem Lexical.MethodRel.knows {w : Plan} {f : Closure} {g : Closure Names} {frame : FrameId}
    {m m' : Lox.Machine} {x : Machine} (h : MethodRel w f g) (ha : Agree w frame m x)
    (hk : Kept m m') : m'.Knows f.decl := by
  obtain ⟨-, -, scopes, ⟨⟨t, ctx, ht, hl, hc, -⟩, -⟩, -, -⟩ := h
  exact ⟨t, ctx, scopes, hl, hc, fun id d hid => hk.locals id d (ha.find?_locals ht hid)⟩

/-- Only methods are ever bound. -/
theorem Binds.knows {a : Activity} {m m' : Machine} {receiver : Value} {bound : Closure}
    (h : Binds a m receiver bound m') (hs : a.Sound m) : m'.Knows bound.decl := by
  cases h with
  | @get n _ name _ _ _ _ _ _ _ hobject _ hf hb =>
    obtain ⟨w, x, t, ctx, scopes, frame, names, ha, hv, hl⟩ := sound_of_enters .getObject hs
    obtain ⟨w₁, v', x₁, hg₁, ha₁, hrel⟩ := ((simAt n).evaluate ha hv hl).of_done hobject
    cases hrel with
    | object o hc =>
      have hfound := hc.findMethod? name.lexeme
      rw [hf] at hfound
      obtain ⟨g, -, hm⟩ := exists_of_rel_some hfound
      have hdecl := hm.knows ha₁ ((keeps_bindMethod _ _).of_done hb)
      rwa [(local?_of_bindMethod hb).1]
  | @super _ _ _ method _ _ _ _ _ _ _ _ hd hc ho hf hb =>
    obtain ⟨w, x, t, ⟨left, cls⟩, scopes, frame, names, ha, ⟨haligned, hcarries, ht⟩, hcls, hid⟩ := hs
    obtain rfl : cls = .subclass := hcls
    obtain ⟨d', hthis, hsuper⟩ := hcarries
    obtain ⟨v, -, v', hv, -, -, hrel, -⟩ := haligned.exists_value ha hsuper
    have hdistance := (ha.find?_locals ht hid).trans hsuper.1
    rw [hd, Option.some.injEq] at hdistance
    subst hdistance
    rw [ha.current, hv, Option.some.injEq] at hc
    subst hc
    cases hrel with
    | cls hc =>
      have hfound := hc.findMethod? method.lexeme
      rw [hf] at hfound
      obtain ⟨g, -, hm⟩ := exists_of_rel_some hfound
      have hdecl := hm.knows ha ((keeps_bindMethod _ _).of_done hb)
      rwa [(local?_of_bindMethod hb).1]
  | construct hobject hinit hb =>
    obtain ⟨w, x, frame, c', args', ha, hc, hargs, hlen⟩ := hs
    cases hc with
    | cls hc =>
      have hfound := hc.findMethod? initializerName
      rw [hinit] at hfound
      obtain ⟨g, -, hm⟩ := exists_of_rel_some hfound
      have hk := ((keeps_newObject _).of_done hobject).trans ((keeps_bindMethod _ _).of_done hb)
      have hdecl := hm.knows ha hk
      rwa [(local?_of_bindMethod hb).1]

/-! ## What a body does itself -/

/-- A program and a call of a function start code of their own. -/
def Activity.IsInner : Activity → Prop
  | .program _ _ | .statement _ _ | .callFunction _ _ _ => False
  | _ => True

/-- What the body of a function does when it is called, without what the bodies of the functions do
that it calls. -/
inductive InBody (n : Nat) (f : Closure) (args : List Value) (m : Machine) :
    Activity → Machine → Prop
  | start {frame m' m''} : childFrame f.env m = .done frame m' →
      defineAll frame f.decl.params args m' = .done () m'' →
      InBody n f args m (.executeAll n f.decl.body) { m'' with current := frame }
  | enter {a m₁ a' m₂} : InBody n f args m a m₁ → a.IsInner → Enters a m₁ a' m₂ →
      InBody n f args m a' m₂

/-- What is part of a body is reached when the call is. -/
theorem InBody.reached {n : Nat} {f : Closure} {args : List Value} {m m₁ : Machine} {a : Activity}
    (h : InBody n f args m a m₁) (hr : Reached (.callFunction (n + 1) f args) m) :
    Reached a m₁ ∧ Later m m₁ := by
  induction h with
  | start hchild hparams =>
    have he : Enters (.callFunction (n + 1) f args) m _ _ := .body hchild hparams
    exact ⟨hr.enter he, .enter hr he⟩
  | enter _ _ he ih => exact ⟨ih.1.enter he, ih.2.trans (.enter ih.1 he)⟩

/-- Code runs in scopes with a receiver, this frame being the one that has it. -/
def Under (env : FrameId) (m : Machine) (P : Table → ResolveContext → List Scope → Prop) : Prop :=
  ∃ t ctx scopes k, (P t ctx scopes ∧ Scope.Carries scopes ctx.cls) ∧
    (∀ id d, t.Says id (some d) → m.locals.find? id = some d) ∧
    Scope.distance? "this" scopes = some k ∧ m.store.ancestor? k m.current = some env

def Activity.Under (env : FrameId) : Activity → Machine → Prop
  | .execute _ s, m => Lox.Under env m fun t ctx scopes => s.Linked t ctx scopes
  | .executeAll _ ss, m => Lox.Under env m fun t ctx scopes => Stmt.AllLinked t ctx scopes ss
  | .evaluate _ e, m => Lox.Under env m fun t ctx scopes => e.Linked t ctx scopes
  | .evaluateOption _ e, m => Lox.Under env m fun t ctx scopes => Expr.OptionLinked t ctx scopes e
  | .evaluateAll _ es, m => Lox.Under env m fun t ctx scopes => Expr.AllLinked t ctx scopes es
  | _, _ => True

/-- An evaluation comes back to the frame that it started in. -/
structure Stays (m m' : Machine) : Prop where
  current : m'.current = m.current
  locals : m'.locals = m.locals
  enclosing : ∀ f e, m.store.enclosing? f = some e → m'.store.enclosing? f = some e

theorem Lexical.Agree.stays {own : Option FrameId} {w w' : Plan} {frame : FrameId}
    {m m' : Lox.Machine} {x x' : Machine} (h : Agree w frame m x) (h' : Agree w' frame m' x')
    (hg : w.Grows own w') : Stays m m' := by
  refine ⟨h'.current.trans h.current.symm, ?_, fun f e he => ?_⟩
  · rw [h'.locals, h.locals, hg.sameTable]
  · rw [h.enclosing] at he
    rw [h'.enclosing]
    exact hg.toLe.enclosing? he

section

variable {env : FrameId} {m m' : Machine} {n : Nat}
  {P Q : Table → ResolveContext → List Scope → Prop}

theorem Activity.Sound.stays_evaluate {e : Expr} {v : Value}
    (h : (Activity.evaluate n e).Sound m) (hd : Eval.evaluate n e m = .done v m') : Stays m m' := by
  obtain ⟨w, x, t, ctx, scopes, frame, names, ha, hv, hl⟩ := h
  obtain ⟨w', v', x', hg, ha', -⟩ := ((simAt n).evaluate ha hv hl).of_done hd
  exact ha.stays ha' hg

theorem Activity.Sound.stays_execute {s : Stmt} {flow : Flow}
    (h : (Activity.execute n s).Sound m) (hd : Eval.execute n s m = .done flow m') : Stays m m' := by
  obtain ⟨w, x, t, ctx, scopes, frame, scope, ha, hat, ht, hl⟩ := h
  obtain ⟨w', r, x', hg, ha', -⟩ := ((simAt n).execute ha hat ht hl).of_done hd
  exact ha.stays ha' hg

theorem Under.imp (h : Under env m P) (hP : ∀ t ctx scopes, P t ctx scopes → Q t ctx scopes) :
    Under env m Q := by
  obtain ⟨t, ctx, scopes, k, ⟨hp, hc⟩, hrest⟩ := h
  exact ⟨t, ctx, scopes, k, ⟨hP t ctx scopes hp, hc⟩, hrest⟩

theorem Under.stays (h : Under env m P) (hst : Stays m m') : Under env m' P := by
  obtain ⟨t, ctx, scopes, k, hp, ht, hthis, hanc⟩ := h
  refine ⟨t, ctx, scopes, k, hp, ?_, hthis, ?_⟩
  · rw [hst.locals]
    exact ht
  · rw [hst.current]
    exact Store.ancestor?_mono hst.enclosing hanc

/-- A statement declares a name of a program, or nothing. -/
theorem Stmt.Linked.after_cases {t : Table} {ctx : ResolveContext} {scopes : List Scope}
    {s : Stmt} (h : s.Linked t ctx scopes) :
    s.after scopes = scopes ∨ ∃ name : Token, name.IsName ∧
      s.after scopes = Scope.enter name.lexeme true scopes := by
  have hdeclare {name : Token} (hn : name.IsName) : ∃ name' : Token, name'.IsName ∧
      Scope.declare scopes name = Scope.enter name'.lexeme true scopes :=
    ⟨name, hn, Scope.declare_eq_enter scopes name⟩
  cases s with
  | var name init => exact .inr (hdeclare h.1.1)
  | function decl => exact .inr (hdeclare h.1.1)
  | cls name superclass methods =>
    cases superclass with
    | none => exact .inr (hdeclare h.1.1)
    | some e => exact .inr (hdeclare h.1.1)
  | _ => exact .inl rfl

theorem Under.after {s : Stmt} (h : Under env m P)
    (hs : ∀ t ctx scopes, P t ctx scopes → s.Linked t ctx scopes)
    (hP : ∀ t ctx scopes, P t ctx scopes → Q t ctx (s.after scopes)) : Under env m Q := by
  obtain ⟨t, ctx, scopes, k, ⟨hp, hc⟩, ht, hthis, hanc⟩ := h
  have hq := hP t ctx scopes hp
  obtain hafter | ⟨name, hn, hafter⟩ := (hs t ctx scopes hp).after_cases
  · rw [hafter] at hq
    exact ⟨t, ctx, scopes, k, ⟨hq, hc⟩, ht, hthis, hanc⟩
  · rw [hafter] at hq
    refine ⟨t, ctx, _, k, ⟨hq, hc.enter hn true⟩, ht, ?_, hanc⟩
    rw [Scope.distance?_enter_of_ne hn.1]
    exact hthis

theorem Under.declare {name : Token} (h : Under env m P)
    (hn : ∀ t ctx scopes, P t ctx scopes → name.IsName)
    (hP : ∀ t ctx scopes, P t ctx scopes → Q t ctx (Scope.enter name.lexeme false scopes)) :
    Under env m Q := by
  obtain ⟨t, ctx, scopes, k, ⟨hp, hc⟩, ht, hthis, hanc⟩ := h
  have hname := hn t ctx scopes hp
  refine ⟨t, ctx, _, k, ⟨hP t ctx scopes hp, hc.enter hname false⟩, ht, ?_, hanc⟩
  rw [Scope.distance?_enter_of_ne hname.1]
  exact hthis

/-- A new frame, from which the rest is one link further outward. -/
theorem stays_of_childFrame {f frame : FrameId} (h : childFrame f m = .done frame m') :
    Stays m m' ∧ m'.store.enclosing? frame = some f := by
  cases h
  have henclosing := Store.enclosing?_addFrame m.store (some f)
  refine ⟨⟨rfl, rfl, fun g e he => ?_⟩, ?_⟩
  · show (m.store.addFrame (some f)).2.enclosing? g = some e
    rw [henclosing, if_neg, he]
    rintro rfl
    simp [Store.enclosing?] at he
  · show (m.store.addFrame (some f)).2.enclosing? m.store.frames.size = some f
    rw [henclosing, if_pos rfl]

/-- A block runs inside the frame that it starts in. -/
theorem Under.inside {frame : FrameId} (h : Under env m P)
    (hP : ∀ t ctx scopes, P t ctx scopes → Q t ctx (.empty :: scopes))
    (hchild : childFrame m.current m = .done frame m') :
    Under env { m' with current := frame } Q := by
  obtain ⟨t, ctx, scopes, k, ⟨hp, hc⟩, ht, hthis, hanc⟩ := h
  obtain ⟨hst, henclosing⟩ := stays_of_childFrame hchild
  refine ⟨t, ctx, _, k + 1, ⟨hP t ctx scopes hp, hc.within_empty⟩, ?_, ?_, ?_⟩
  · show ∀ id d, t.Says id (some d) → m'.locals.find? id = some d
    rw [hst.locals]
    exact ht
  · rw [Scope.distance?_empty_cons, hthis]
    rfl
  · show m'.store.ancestor? (k + 1) frame = some env
    unfold Store.ancestor?
    rw [henclosing]
    exact Store.ancestor?_mono hst.enclosing hanc

end

/-- A part of a body that runs under a frame runs under it as well. -/
theorem under_of_enters {env : FrameId} {a a' : Activity} {m m' : Machine} (h : Enters a m a' m')
    (hs : a.Sound m) (hi : a.IsInner) (hu : a.Under env m) : a'.Under env m' := by
  cases h with
  | programHead => exact hi.elim
  | programTail _ => exact hi.elim
  | statement => exact hi.elim
  | body _ _ => exact hi.elim
  | expression => exact hu
  | var => exact Under.declare hu (fun _ _ _ h => h.1.1) fun _ _ _ h => h.2
  | block hchild => exact Under.inside hu (fun _ _ _ h => h) hchild
  | ifCondition => exact Under.imp hu fun _ _ _ h => h.1
  | ifYes hv _ =>
    have hst := (sound_of_enters .ifCondition hs).stays_evaluate hv
    exact (Under.imp hu fun _ _ _ h => h.2.2).stays hst
  | elseCondition => exact Under.imp hu fun _ _ _ h => h.1
  | elseYes hv _ =>
    have hst := (sound_of_enters .elseCondition hs).stays_evaluate hv
    exact (Under.imp hu fun _ _ _ h => h.2.1.2).stays hst
  | elseNo hv _ =>
    have hst := (sound_of_enters .elseCondition hs).stays_evaluate hv
    exact (Under.imp hu fun _ _ _ h => h.2.2.2).stays hst
  | loopCondition => exact Under.imp hu fun _ _ _ h => h.1
  | loopBody hv _ =>
    have hst := (sound_of_enters .loopCondition hs).stays_evaluate hv
    exact (Under.imp hu fun _ _ _ h => h.2.2).stays hst
  | loopAgain hv ht hb =>
    have hst := (sound_of_enters .loopCondition hs).stays_evaluate hv
    have hst' := (sound_of_enters (.loopBody hv ht) hs).stays_execute hb
    exact (Under.stays hu hst).stays hst'
  | ret => exact Under.imp hu fun _ _ _ h => h.2
  | superclass => exact Under.imp hu fun _ _ _ h => h.2.1
  | firstStatement => exact Under.imp hu fun _ _ _ h => h.1
  | moreStatements hd =>
    have hst := (sound_of_enters .firstStatement hs).stays_execute hd
    exact (Under.after hu (fun _ _ _ h => h.1) fun _ _ _ h => h.2).stays hst
  | grouping => exact hu
  | unary => exact Under.imp hu fun _ _ _ h => h.2
  | binaryLeft => exact Under.imp hu fun _ _ _ h => h.2.1
  | binaryRight hv =>
    have hst := (sound_of_enters .binaryLeft hs).stays_evaluate hv
    exact (Under.imp hu fun _ _ _ h => h.2.2).stays hst
  | logicalLeft => exact Under.imp hu fun _ _ _ h => h.1
  | logicalRight hv _ =>
    have hst := (sound_of_enters .logicalLeft hs).stays_evaluate hv
    exact (Under.imp hu fun _ _ _ h => h.2).stays hst
  | assignValue => exact Under.imp hu fun _ _ _ h => h.2.2
  | callee => exact Under.imp hu fun _ _ _ h => h.1
  | arguments hv =>
    have hst := (sound_of_enters .callee hs).stays_evaluate hv
    exact (Under.imp hu fun _ _ _ h => h.2).stays hst
  | getObject => exact hu
  | setObject => exact Under.imp hu fun _ _ _ h => h.1
  | setValue hv =>
    have hst := (sound_of_enters .setObject hs).stays_evaluate hv
    exact (Under.imp hu fun _ _ _ h => h.2).stays hst
  | option => exact hu
  | firstArgument => exact Under.imp hu fun _ _ _ h => h.1
  | moreArguments hv =>
    have hst := (sound_of_enters .firstArgument hs).stays_evaluate hv
    exact (Under.imp hu fun _ _ _ h => h.2).stays hst
  | assign _ => trivial
  | baseClass => trivial
  | derivedClass _ => trivial
  | invoke _ _ => trivial
  | call _ _ => trivial
  | function => trivial
  | initializer _ _ _ => trivial

/-- Parameters have names of their own. -/
theorem distance?_declareAll {params : List Token} : ∀ {scopes : List Scope},
    (∀ p ∈ params, p.IsName) →
    Scope.distance? "this" (Resolve.declareAll scopes params).1 = Scope.distance? "this" scopes := by
  induction params with
  | nil => exact fun _ => rfl
  | cons p ps ih =>
    intro scopes h
    show Scope.distance? "this" (Resolve.declareAll (Scope.declare scopes p) ps).1 = _
    rw [ih fun q hq => h q (List.mem_cons_of_mem p hq), Scope.declare_eq_enter,
      Scope.distance?_enter_of_ne (h p List.mem_cons_self).1]

theorem stays_of_defineAll (frame : FrameId) {params : List Token} :
    ∀ {args : List Value} {m m' : Machine}, defineAll frame params args m = .done () m' →
      Stays m m' := by
  induction params with
  | nil =>
    intro args m m' h
    cases h
    exact ⟨rfl, rfl, fun _ _ h => h⟩
  | cons p ps ih =>
    intro args m m' h
    cases args with
    | nil =>
      cases h
      exact ⟨rfl, rfl, fun _ _ h => h⟩
    | cons v vs =>
      have hrest := ih (m := { m with store := m.store.define frame p.lexeme v }) h
      refine ⟨hrest.current, hrest.locals, fun f e he => hrest.enclosing f e ?_⟩
      show (m.store.define frame p.lexeme v).enclosing? f = some e
      rw [Store.enclosing?_define, he]

theorem carries_declareAll {params : List Token} {cls : ClassContext} : ∀ {scopes : List Scope},
    (∀ p ∈ params, p.IsName) → Scope.Carries scopes cls →
    Scope.Carries (Resolve.declareAll scopes params).1 cls := by
  induction params with
  | nil => exact fun _ hc => hc
  | cons p ps ih =>
    intro scopes h hc
    show Scope.Carries (Resolve.declareAll (Scope.declare scopes p) ps).1 cls
    refine ih (fun q hq => h q (List.mem_cons_of_mem p hq)) ?_
    rw [Scope.declare_eq_enter]
    exact hc.enter (h p List.mem_cons_self) true

/-- The function closes over a frame inside the one that has the receiver, or over that one. -/
def Closure.Under (env : FrameId) (f : Closure) (m : Machine) : Prop :=
  Lox.Under env { m with current := f.env } fun t ctx scopes => f.decl.Linked t ctx scopes

theorem Machine.Knows.under {m : Machine} {f : Closure} (h : m.Knows f.decl) : f.Under f.env m := by
  obtain ⟨t, ctx, scopes, hl, hc, ht⟩ := h
  exact ⟨t, ctx, _, 0, ⟨hl, hc⟩, ht, (Scope.has_singleton "this" scopes).1, rfl⟩

/-- The body of a function starts under the frame that the function is under. -/
theorem under_of_start {env : FrameId} {n k : Nat} {f : Closure} {args : List Value}
    {m m' m'' : Machine} {frame : FrameId} (hu : f.Under env m)
    (hs : (Activity.callFunction n f args).Sound m) (hchild : childFrame f.env m = .done frame m')
    (hparams : defineAll frame f.decl.params args m' = .done () m'') :
    (Activity.executeAll k f.decl.body).Under env { m'' with current := frame } := by
  obtain ⟨t, ctx, scopes, d, ⟨hl, hc⟩, ht, hthis, hanc⟩ := hu
  have hnames := hs.isName_params
  obtain ⟨⟨name, params, body⟩, e, isInitializer⟩ := f
  obtain ⟨hst, henclosing⟩ := stays_of_childFrame hchild
  have hst' := stays_of_defineAll frame hparams
  refine ⟨t, ctx, _, d + 1, ⟨hl.2, carries_declareAll hnames hc.within_empty⟩, ?_, ?_, ?_⟩
  · show ∀ id d, t.Says id (some d) → m''.locals.find? id = some d
    rw [hst'.locals, hst.locals]
    exact ht
  · rw [distance?_declareAll hnames, Scope.distance?_empty_cons, hthis]
    rfl
  · show m''.store.ancestor? (d + 1) frame = some env
    refine Store.ancestor?_mono hst'.enclosing ?_
    unfold Store.ancestor?
    rw [henclosing]
    exact Store.ancestor?_mono hst.enclosing hanc

theorem InBody.under_of {env : FrameId} {n : Nat} {f : Closure} {args : List Value}
    {m m₁ : Machine} {a : Activity} (h : InBody n f args m a m₁)
    (hr : Reached (.callFunction (n + 1) f args) m) (hu : f.Under env m) : a.Under env m₁ := by
  induction h with
  | start hchild hparams => exact under_of_start hu (sound_of_reached hr) hchild hparams
  | enter hb hi he ih => exact under_of_enters he (sound_of_reached (hb.reached hr).1) hi ih

theorem InBody.under {n : Nat} {f : Closure} {args : List Value} {m m₁ : Machine} {a : Activity}
    (h : InBody n f args m a m₁) (hr : Reached (.callFunction (n + 1) f args) m)
    (hk : m.Knows f.decl) : a.Under f.env m₁ :=
  h.under_of hr hk.under

theorem Machine.Knows.mono {m m' : Machine} {decl : FunctionDecl} (h : m.Knows decl)
    (hk : Kept m m') : m'.Knows decl := by
  obtain ⟨t, ctx, scopes, hl, hc, ht⟩ := h
  exact ⟨t, ctx, scopes, hl, hc, fun id d hid => hk.locals id d (ht id d hid)⟩

/-! ## Calls -/

namespace Binds

variable {a : Activity} {m m' : Machine} {receiver : Value} {bound : Closure}

/-- A method that is read is bound. -/
theorem evaluate_eq {n : Nat} {e : Expr} (h : Binds (.evaluate n e) m receiver bound m') :
    evaluate n e m = .done (.function bound) m' := by
  cases h with
  | get hobject hfield hf hb =>
    rw [evaluate, Computation.bind_of_done hobject]
    simp only [property, field?, hfield, hf, Computation.bind_apply, hb]
    rfl
  | super hd hc ho hf hb =>
    rw [evaluate]
    simp only [superMethod, distanceOf?, hd, currentFrame, readAt, hc, ho, found, hf,
      Computation.bind_apply, hb]
    rfl

end Binds

end Lox
