import Lox.Proofs.Lexical.Sessions
import Lox.Proofs.Safety.Reached

/-!
# Lox.Proofs.Safety.Sound

The invariant of all that sessions do. An activity is sound on a machine if it is a linked piece of a
program, or works on values that such pieces have made, and the machine agrees with a lexical one. The
simulation carries this over to the activities that a sound one is made of (`sound_of_enters`).
-/

namespace Lox

open Lexical

/-- Statements may run on the machine, in scopes of which this holds. -/
def CanExecute (m : Machine) (P : Table → ResolveContext → List Scope → Prop) : Prop :=
  ∃ w x t ctx scopes frame scope, Agree w frame m x ∧ At w ctx.cls scopes frame scope ∧
    Table.Le t w.table ∧ P t ctx scopes

/-- Expressions may be evaluated on the machine, in scopes of which this holds. -/
def CanEvaluate (m : Machine) (P : Table → ResolveContext → List Scope → Prop) : Prop :=
  ∃ w x t ctx scopes frame names, Agree w frame m x ∧ Visible w t ctx.cls scopes frame names ∧
    P t ctx scopes

/-- Linked code starts on a machine that agrees with a lexical one. -/
def Activity.Sound : Activity → Machine → Prop
  | .program _ ss, m => ∃ w x t, Agree w w.globals m x ∧ Table.Le t w.table ∧
      Stmt.AllLinked t {} [] ss
  | .statement _ s, m => ∃ w x t, Agree w w.globals m x ∧ Table.Le t w.table ∧ s.Linked t {} []
  | .execute _ s, m => CanExecute m fun t ctx scopes => s.Linked t ctx scopes
  | .executeAll _ ss, m => CanExecute m fun t ctx scopes => Stmt.AllLinked t ctx scopes ss
  | .evaluate _ e, m => CanEvaluate m fun t ctx scopes => e.Linked t ctx scopes
  | .evaluateOption _ e, m => CanEvaluate m fun t ctx scopes => Expr.OptionLinked t ctx scopes e
  | .evaluateAll _ es, m => CanEvaluate m fun t ctx scopes => Expr.AllLinked t ctx scopes es
  | .assign id name _, m =>
    CanEvaluate m fun t _ scopes => t.Says id (Scope.distance? name.lexeme scopes)
  | .declareClass _ _ _, m => m.current < m.store.frames.size
  | .invoke _ f args, m => ∃ w x frame f' args', Agree w frame m x ∧ ValueRel w f f' ∧
      List.Forall₂ (ValueRel w) args args'
  | .call _ c args, m => ∃ w x frame c' args', Agree w frame m x ∧ CallableRel w c c' ∧
      List.Forall₂ (ValueRel w) args args' ∧ args.length = c.arity
  | .callFunction _ f args, m => ∃ w x frame g args', Agree w frame m x ∧ FunctionRel w f g ∧
      List.Forall₂ (ValueRel w) args args' ∧ args.length = f.arity

section

variable {m m' : Machine} {P Q : Table → ResolveContext → List Scope → Prop} {n : Nat}

theorem CanEvaluate.imp (h : CanEvaluate m P)
    (hP : ∀ t ctx scopes, P t ctx scopes → Q t ctx scopes) : CanEvaluate m Q := by
  obtain ⟨w, x, t, ctx, scopes, frame, names, ha, hv, hp⟩ := h
  exact ⟨w, x, t, ctx, scopes, frame, names, ha, hv, hP t ctx scopes hp⟩

theorem CanExecute.imp (h : CanExecute m P)
    (hP : ∀ t ctx scopes, P t ctx scopes → Q t ctx scopes) : CanExecute m Q := by
  obtain ⟨w, x, t, ctx, scopes, frame, scope, ha, hat, ht, hp⟩ := h
  exact ⟨w, x, t, ctx, scopes, frame, scope, ha, hat, ht, hP t ctx scopes hp⟩

theorem CanExecute.canEvaluate (h : CanExecute m P) : CanEvaluate m P := by
  obtain ⟨w, x, t, ctx, scopes, frame, scope, ha, hat, ht, hp⟩ := h
  exact ⟨w, x, t, ctx, scopes, frame, scope.names, ha, hat.visible ht, hp⟩

theorem CanEvaluate.evaluated (h : CanEvaluate m P) {e : Expr} {v : Value}
    (he : ∀ t ctx scopes, P t ctx scopes → e.Linked t ctx scopes)
    (hdone : Eval.evaluate n e m = .done v m') : CanEvaluate m' P := by
  obtain ⟨w, x, t, ctx, scopes, frame, names, ha, hv, hp⟩ := h
  obtain ⟨w', v', x', hg, ha', -⟩ := ((simAt n).evaluate ha hv (he t ctx scopes hp)).of_done hdone
  exact ⟨w', x', t, ctx, scopes, frame, names, ha', hv.mono hg.toLe, hp⟩

theorem CanExecute.evaluated (h : CanExecute m P) {e : Expr} {v : Value}
    (he : ∀ t ctx scopes, P t ctx scopes → e.Linked t ctx scopes)
    (hdone : Eval.evaluate n e m = .done v m') : CanExecute m' P := by
  obtain ⟨w, x, t, ctx, scopes, frame, scope, ha, hat, ht, hp⟩ := h
  obtain ⟨w', v', x', hg, ha', -⟩ :=
    ((simAt n).evaluate ha (hat.visible ht) (he t ctx scopes hp)).of_done hdone
  exact ⟨w', x', t, ctx, scopes, frame, scope, ha', hat.mono hg, ht.trans hg.toLe.table, hp⟩

theorem CanExecute.executed (h : CanExecute m P) {s : Stmt} {flow : Flow}
    (hs : ∀ t ctx scopes, P t ctx scopes → s.Linked t ctx scopes)
    (hP : ∀ t ctx scopes, P t ctx scopes → Q t ctx (s.after scopes))
    (hdone : Eval.execute n s m = .done flow m') : CanExecute m' Q := by
  obtain ⟨w, x, t, ctx, scopes, frame, scope, ha, hat, ht, hp⟩ := h
  obtain ⟨w', r, x', hg, ha', -, hat'⟩ :=
    ((simAt n).execute ha hat ht (hs t ctx scopes hp)).of_done hdone
  exact ⟨w', x', t, ctx, s.after scopes, frame, r.2, ha', hat', ht.trans hg.toLe.table,
    hP t ctx scopes hp⟩

/-- The machine runs in a frame that there is. -/
theorem CanExecute.current_lt (h : CanExecute m P) : m.current < m.store.frames.size := by
  obtain ⟨w, x, t, ctx, scopes, frame, scope, ha, hat, -⟩ := h
  rw [ha.current, ha.frames]
  exact hat.aligned.live

end

namespace Activity.Sound

variable {m m' m'' : Machine} {n : Nat} {args : List Value}

/-- The body of a block runs in a frame of its own. -/
theorem block {body : List Stmt} {frame : FrameId} (h : (Activity.execute n (.block body)).Sound m)
    (hchild : Eval.childFrame m.current m = .done frame m') (k : Nat) :
    (Activity.executeAll k body).Sound { m' with current := frame } := by
  obtain ⟨w, x, t, ctx, scopes, outer, scope, ha, hat, ht, hl⟩ := h
  obtain rfl := ha.current
  rw [ha.childFrame_eq] at hchild
  cases hchild
  exact ⟨w.addFrame m.current, x, t, ctx, .empty :: scopes, w.links.length, .within scope.names,
    (ha.addFrame m.current).inFrame _, At.inside hat.aligned hat.carries hat.settled, ht, hl⟩

theorem call {f : Value} {c : Callable} (h : (Activity.invoke n f args).Sound m)
    (hc : f.callable? = some c) (hlen : args.length = c.arity) (k : Nat) :
    (Activity.call k c args).Sound m := by
  obtain ⟨w, x, frame, f', args', ha, hf, hargs⟩ := h
  have hrel := hf.callable?
  rw [hc] at hrel
  obtain ⟨c', -, hrel⟩ := exists_of_rel_some hrel
  exact ⟨w, x, frame, c', args', ha, hrel, hargs, hlen⟩

/-- The initializer of a new instance is called with the arguments of its class. -/
theorem initializer {c : Class} {object : Value} {init bound : Closure}
    (h : (Activity.call n (.cls c) args).Sound m) (hobject : Eval.newObject c m = .done object m')
    (hinit : c.findMethod? initializerName = some init)
    (hbound : Eval.bindMethod init object m' = .done bound m'') (k : Nat) :
    (Activity.callFunction k bound args).Sound m'' := by
  obtain ⟨w, x, frame, _, args', ha, hc, hargs, hlen⟩ := h
  cases hc with
  | @cls _ c' hc =>
    have hmade : Matches w none frame _ _ _ := matches_newObject ha hc
    obtain ⟨w₁, object', x₁, hg₁, ha₁, hobj⟩ := hmade.of_done hobject
    have hfound := (hc.mono hg₁.toLe).findMethod? initializerName
    rw [hinit] at hfound
    obtain ⟨init', -, hfound⟩ := exists_of_rel_some hfound
    have hmade : Matches w₁ none frame _ _ _ := matches_bindMethod ha₁ hfound hobj.1 hobj.2
    obtain ⟨w₂, bound', x₂, hg₂, ha₂, hrel, hdecl⟩ := hmade.of_done hbound
    refine ⟨w₂, x₂, frame, bound', args', ha₂, hrel,
      ValueRel.monoAll (hg₁.toLe.trans hg₂.toLe) hargs, hlen.trans ?_⟩
    simp only [Callable.arity, Class.arity, hinit, Closure.arity, hdecl]

/-- The body of a function runs where its parameters have their arguments. -/
theorem body {f : Closure} {frame : FrameId} (h : (Activity.callFunction n f args).Sound m)
    (hchild : Eval.childFrame f.env m = .done frame m')
    (hparams : Eval.defineAll frame f.decl.params args m' = .done () m'') (k : Nat) :
    (Activity.executeAll k f.decl.body).Sound { m'' with current := frame } := by
  obtain ⟨w, x, caller, g, args', ha, hf, hargs, hlen⟩ := h
  obtain ⟨-, -, scopes, ⟨⟨t, ctx, ht, hl, hc, -⟩, -⟩, hsettled, haligned⟩ := hf
  obtain ⟨⟨name, params, body⟩, env, isInitializer⟩ := f
  obtain ⟨hdeclarable, hbody⟩ := hl
  rw [ha.childFrame_eq] at hchild
  cases hchild
  have hg := w.grows_addFrame none env
  have hat := At.inside haligned hc hsettled
  have hdefined := matches_defineAll (ha.addFrame env) hat nofun hdeclarable
    (ValueRel.monoAll hg.toLe hargs) hlen
  obtain ⟨w₁, names, x₁, hg₁, ha₁, hat₁⟩ := hdefined.of_done hparams
  exact ⟨w₁, x₁, t, ctx, _, w.links.length, .within names, ha₁.inFrame _, hat₁,
    ht.trans (hg.toLe.trans hg₁.toLe).table, hbody⟩

end Activity.Sound

/-- Activities are made of sound ones only. -/
theorem sound_of_enters {a a' : Activity} {m m' : Machine} (h : Enters a m a' m')
    (hs : a.Sound m) : a'.Sound m' := by
  cases h with
  | programHead =>
    obtain ⟨w, x, t, ha, ht, hl⟩ := hs
    exact ⟨w, x, t, ha, ht, hl.1⟩
  | @programTail n s _ _ _ _ hdone =>
    obtain ⟨w, x, t, ha, ht, hl⟩ := hs
    obtain ⟨w', r, x', hg, ha', -⟩ := ((simAt n).execute ha (at_top w) ht hl.1).of_done hdone
    have hrest := hl.2
    rw [Stmt.after_nil] at hrest
    rw [← hg.toLe.globals] at ha'
    exact ⟨w', x', t, ha', ht.trans hg.toLe.table, hrest⟩
  | statement =>
    obtain ⟨w, x, t, ha, ht, hl⟩ := hs
    exact ⟨w, x, t, {}, [], w.globals, .top, ha, at_top w, ht, hl⟩
  | expression => exact hs.canEvaluate
  | var =>
    obtain ⟨w, x, t, ctx, scopes, frame, scope, ha, hat, ht, hl⟩ := hs
    obtain ⟨place, scope', x', w', -, hg, ha', hbegun⟩ := hat.begin hl.1 ha
    exact ⟨w', x', t, ctx, _, frame, scope'.names, ha',
      ⟨hbegun.aligned, hbegun.carries_enter, ht.trans hg.toLe.table⟩, hl.2⟩
  | block hchild => exact Activity.Sound.block hs hchild _
  | ifCondition => exact hs.canEvaluate.imp fun _ _ _ h => h.1
  | ifYes hdone => exact (hs.evaluated (fun _ _ _ h => h.1) hdone).imp fun _ _ _ h => h.2.2
  | elseCondition => exact hs.canEvaluate.imp fun _ _ _ h => h.1
  | elseYes hdone => exact (hs.evaluated (fun _ _ _ h => h.1) hdone).imp fun _ _ _ h => h.2.1.2
  | elseNo hdone => exact (hs.evaluated (fun _ _ _ h => h.1) hdone).imp fun _ _ _ h => h.2.2.2
  | loopCondition => exact hs.canEvaluate.imp fun _ _ _ h => h.1
  | loopBody hdone => exact (hs.evaluated (fun _ _ _ h => h.1) hdone).imp fun _ _ _ h => h.2.2
  | loopAgain hdone _ hbody =>
    refine (hs.evaluated (fun _ _ _ h => h.1) hdone).executed (fun _ _ _ h => h.2.2)
      (fun t ctx scopes h => ?_) hbody
    rw [Stmt.after_of_isStatement h.2.1]
    exact h
  | ret => exact hs.canEvaluate.imp fun _ _ _ h => h.2
  | baseClass => exact hs.current_lt
  | superclass => exact hs.canEvaluate.imp fun _ _ _ h => h.2.1
  | derivedClass hdone => exact (hs.evaluated (fun _ _ _ h => h.2.1) hdone).current_lt
  | firstStatement => exact hs.imp fun _ _ _ h => h.1
  | moreStatements hdone => exact hs.executed (fun _ _ _ h => h.1) (fun _ _ _ h => h.2) hdone
  | grouping => exact hs
  | unary => exact hs.imp fun _ _ _ h => h.2
  | binaryLeft => exact hs.imp fun _ _ _ h => h.2.1
  | binaryRight hdone => exact (hs.evaluated (fun _ _ _ h => h.2.1) hdone).imp fun _ _ _ h => h.2.2
  | logicalLeft => exact hs.imp fun _ _ _ h => h.1
  | logicalRight hdone => exact (hs.evaluated (fun _ _ _ h => h.1) hdone).imp fun _ _ _ h => h.2
  | assignValue => exact hs.imp fun _ _ _ h => h.2.2
  | assign hdone => exact (hs.evaluated (fun _ _ _ h => h.2.2) hdone).imp fun _ _ _ h => h.2.1
  | callee => exact hs.imp fun _ _ _ h => h.1
  | arguments hdone => exact (hs.evaluated (fun _ _ _ h => h.1) hdone).imp fun _ _ _ h => h.2
  | @invoke n _ _ _ _ _ _ _ _ hdone hargs =>
    obtain ⟨w, x, t, ctx, scopes, frame, names, ha, hv, hl⟩ := hs
    obtain ⟨w₁, f', x₁, hg₁, ha₁, hf⟩ := ((simAt n).evaluate ha hv hl.1).of_done hdone
    obtain ⟨w₂, args', x₂, hg₂, ha₂, hargs⟩ :=
      ((simAt n).evaluateAll ha₁ (hv.mono hg₁.toLe) hl.2).of_done hargs
    exact ⟨w₂, x₂, frame, f', args', ha₂, hf.mono hg₂.toLe, hargs⟩
  | getObject => exact hs
  | setObject => exact hs.imp fun _ _ _ h => h.1
  | setValue hdone => exact (hs.evaluated (fun _ _ _ h => h.1) hdone).imp fun _ _ _ h => h.2
  | option => exact hs
  | firstArgument => exact hs.imp fun _ _ _ h => h.1
  | moreArguments hdone => exact (hs.evaluated (fun _ _ _ h => h.1) hdone).imp fun _ _ _ h => h.2
  | call hcallable hlen => exact Activity.Sound.call hs hcallable hlen _
  | function =>
    obtain ⟨w, x, frame, c', args', ha, hc, hargs, hlen⟩ := hs
    cases hc with
    | function hf => exact ⟨w, x, frame, _, args', ha, hf, hargs, hlen⟩
  | initializer hobject hinit hbound =>
    exact Activity.Sound.initializer hs hobject hinit hbound _
  | body hchild hparams => exact Activity.Sound.body hs hchild hparams _

end Lox
