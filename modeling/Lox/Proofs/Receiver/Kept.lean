import Lox.Proofs.Activity.Runs
import Lox.Proofs.Safety.Sound

/-!
# Lox.Proofs.Receiver.Kept

Bindings of `this` and `super` never change. Each is made with its frame; programs cannot name them
where something is declared or assigned, so no step of a sound activity adds or changes one in a frame
that there is already (`keepsAt`).
-/

namespace Lox

/-- The names that a program can read but not bind. -/
def IsReceiverName (name : String) : Prop := name = "this" ∨ name = "super"

theorem Token.IsName.ne_of_isReceiverName {token : Token} (h : token.IsName) {name : String}
    (hn : IsReceiverName name) : token.lexeme ≠ name := by
  obtain rfl | rfl := hn
  · exact h.1
  · exact h.2

/-- All frames of the one memory have the same receivers and superclasses in the other, and the same
frames around them. -/
structure Store.Kept (s s' : Store) : Prop where
  frames : s.frames.size ≤ s'.frames.size
  enclosing : ∀ f, f < s.frames.size → s'.enclosing? f = s.enclosing? f
  bound : ∀ f, f < s.frames.size → ∀ name, IsReceiverName name →
    s'.local? f name = s.local? f name

namespace Store.Kept

variable {s s' s'' : Store}

theorem refl (s : Store) : Kept s s := ⟨Nat.le_refl _, fun _ _ => rfl, fun _ _ _ _ => rfl⟩

theorem trans (h : Kept s s') (h' : Kept s' s'') : Kept s s'' := by
  refine ⟨Nat.le_trans h.frames h'.frames, fun f hf => ?_, fun f hf name hn => ?_⟩
  · rw [h'.enclosing f (Nat.lt_of_lt_of_le hf h.frames), h.enclosing f hf]
  · rw [h'.bound f (Nat.lt_of_lt_of_le hf h.frames) name hn, h.bound f hf name hn]

/-- A link stays. -/
theorem enclosing? (h : Kept s s') (f e : FrameId) (he : s.enclosing? f = some e) :
    s'.enclosing? f = some e := by
  rw [h.enclosing f (Store.lt_of_enclosing? he)]
  exact he

theorem of_frames (h : s'.frames = s.frames) : Kept s s' := by
  refine ⟨Nat.le_of_eq (by rw [h]), fun f _ => ?_, fun f _ name _ => ?_⟩
  · unfold Store.enclosing?
    rw [h]
  · unfold Store.local?
    rw [h]

/-- A write to a variable of a program. -/
theorem define {name : Token} (h : name.IsName) (f : FrameId) (v : Value) :
    Kept s (s.define f name.lexeme v) := by
  refine ⟨Nat.le_of_eq (Store.size_frames_define _ _ _ _).symm,
    fun g _ => Store.enclosing?_define _ _ _ _ _, fun g hg n hn => ?_⟩
  by_cases hf : f = g
  · subst hf
    rw [Store.local?_define _ _ hg, if_neg (h.ne_of_isReceiverName hn)]
  · exact Store.local?_define_of_ne _ hf _ _ _

theorem addFrame (e : Option FrameId) : Kept s (s.addFrame e).2 := by
  refine ⟨?_, fun f hf => ?_, fun f _ name _ => Store.local?_addFrame s e f name⟩
  · rw [Store.addFrame, Array.size_push]
    exact Nat.le_succ _
  · rw [Store.enclosing?_addFrame, if_neg (Nat.ne_of_lt hf)]

/-- A write to a frame that is newer than the first memory. -/
theorem define_new (h : Kept s s') {f : FrameId} (hf : s.frames.size ≤ f) (name : String)
    (v : Value) : Kept s (s'.define f name v) := by
  refine ⟨?_, fun g hg => ?_, fun g hg n hn => ?_⟩
  · rw [Store.size_frames_define]
    exact h.frames
  · rw [Store.enclosing?_define]
    exact h.enclosing g hg
  · rw [Store.local?_define_of_ne _ (Nat.ne_of_gt (Nat.lt_of_lt_of_le hg hf))]
    exact h.bound g hg n hn

end Store.Kept

/-- The second machine has all receivers and superclasses of the first, and all its distances. -/
structure Kept (m m' : Machine) : Prop where
  store : m.store.Kept m'.store
  locals : ∀ id d, m.locals.find? id = some d → m'.locals.find? id = some d

namespace Kept

variable {m m' m'' : Machine}

theorem refl (m : Machine) : Kept m m := ⟨.refl _, fun _ _ h => h⟩

theorem trans (h : Kept m m') (h' : Kept m' m'') : Kept m m'' :=
  ⟨h.store.trans h'.store, fun id d hd => h'.locals id d (h.locals id d hd)⟩

theorem of_store {s : Store} (h : m.store.Kept s) : Kept m { m with store := s } :=
  ⟨h, fun _ _ hd => hd⟩

/-- The frame that the machine runs in, and what is outside of it, do not matter. -/
theorem of_same (hs : m'.store = m.store) (hl : m'.locals = m.locals) : Kept m m' := by
  refine ⟨?_, fun id d hd => ?_⟩
  · rw [hs]
    exact .refl _
  · rw [hl]
    exact hd

end Kept

/-! ## Computations -/

variable {α β : Type}

/-- The second computation ends only if the first one does, and with all the receivers that the first
one has left. -/
def Follows (o : Outcome Machine α) (o' : Outcome Machine β) : Prop :=
  ∀ m₂, o'.state? = some m₂ → ∃ m₁, o.state? = some m₁ ∧ Kept m₁ m₂

theorem Follows.same (o : Outcome Machine α) : Follows o o := fun m h => ⟨m, h, .refl _⟩

namespace Eval

/-- The computation changes no receiver when it starts on the machine. -/
def Keeps (x : Eval α) (m : Machine) : Prop :=
  ∀ m', (x m).state? = some m' → Kept m m'

namespace Keeps

variable {x : Eval α} {f : α → Eval β} {m m' : Machine}

theorem of_done (h : Keeps x m) {a : α} (hx : x m = .done a m') : Kept m m' :=
  h m' (by rw [hx]; rfl)

/-- A computation that ends in a known way. -/
theorem of_eq {o : Outcome Machine α} (h : x m = o)
    (hk : ∀ m', o.state? = some m' → Kept m m') : Keeps x m := by
  intro m' hm'
  rw [h] at hm'
  exact hk m' hm'

theorem of_done_eq {a : α} (h : x m = .done a m') (hk : Kept m m') : Keeps x m := by
  refine of_eq h fun m'' hm'' => ?_
  cases hm''
  exact hk

theorem unchanged (h : ∀ m', (x m).state? = some m' → m' = m) : Keeps x m := by
  intro m' hm'
  rw [h m' hm']
  exact .refl _

theorem ret (a : α) : Keeps (pure a) m := unchanged fun _ h => (Option.some.inj h).symm

theorem fail (p : RuntimeProblem) : Keeps (Computation.fail p : Eval α) m :=
  unchanged fun _ h => (Option.some.inj h).symm

theorem exhausted : Keeps (Computation.exhausted : Eval α) m := fun _ h => nomatch h

theorem ofExcept (r : Except RuntimeProblem α) : Keeps (Computation.ofExcept r) m := by
  cases r with
  | ok a => exact ret a
  | error p => exact fail p

/-- One computation after the other. The second starts as the first one ends. -/
theorem bind (hx : Keeps x m) (hf : ∀ a m', x m = .done a m' → Keeps (f a) m') :
    Keeps (x >>= f) m := by
  intro m'' h
  rw [Computation.bind_apply] at h
  cases ho : x m with
  | done a m' =>
    rw [ho] at h
    exact (hx.of_done ho).trans (hf a m' ho m'' h)
  | failed e m' =>
    rw [ho] at h
    exact hx m'' (by rw [ho]; exact h)
  | outOfFuel =>
    rw [ho] at h
    cases h

theorem inFrame {frame : FrameId} (h : Keeps x { m with current := frame }) :
    Keeps (inFrame frame x) m := by
  intro m' hm'
  unfold Eval.inFrame at hm'
  cases ho : x { m with current := frame } with
  | done a m₁ =>
    simp only [ho] at hm'
    cases hm'
    have hk := h m₁ (by rw [ho]; rfl)
    exact ⟨hk.store, hk.locals⟩
  | failed e m₁ =>
    simp only [ho] at hm'
    cases hm'
    have hk := h m₁ (by rw [ho]; rfl)
    exact ⟨hk.store, hk.locals⟩
  | outOfFuel =>
    simp only [ho] at hm'
    cases hm'

end Keeps

end Eval

namespace Follows

variable {x : Eval α} {f : α → Eval β} {m m' : Machine}

/-- The first of two computations is followed by what the second does. -/
theorem bind (hf : ∀ a m', x m = .done a m' → Eval.Keeps (f a) m') :
    Follows (x m) ((x >>= f) m) := by
  intro m₂ h₂
  rw [Computation.bind_apply] at h₂
  cases ho : x m with
  | done a m' =>
    rw [ho] at h₂
    exact ⟨m', rfl, hf a _ ho m₂ h₂⟩
  | failed e m' =>
    rw [ho] at h₂
    cases h₂
    exact ⟨_, rfl, .refl _⟩
  | outOfFuel =>
    rw [ho] at h₂
    cases h₂

/-- What follows in the second of two computations follows in both. -/
theorem next {γ : Type} {o : Outcome Machine γ} {a : α} (hx : x m = .done a m')
    (h : Follows o (f a m')) : Follows o ((x >>= f) m) := by
  rw [Computation.bind_of_done hx]
  exact h

theorem inFrame (x : Eval α) (frame : FrameId) :
    Follows (x { m with current := frame }) (Eval.inFrame frame x m) := by
  intro m₂ h₂
  unfold Eval.inFrame at h₂
  cases ho : x { m with current := frame } with
  | done a m' =>
    simp only [ho] at h₂
    cases h₂
    exact ⟨m', rfl, .of_same rfl rfl⟩
  | failed e m' =>
    simp only [ho] at h₂
    cases h₂
    exact ⟨m', rfl, .of_same rfl rfl⟩
  | outOfFuel =>
    simp only [ho] at h₂
    cases h₂

theorem trans_bind {γ : Type} {o : Outcome Machine γ} (h : Follows o (x m))
    (hf : ∀ a m', x m = .done a m' → Eval.Keeps (f a) m') : Follows o ((x >>= f) m) := by
  intro m₂ h₂
  obtain ⟨m', hm', hk'⟩ := bind hf m₂ h₂
  obtain ⟨m₁, hm₁, hk⟩ := h m' hm'
  exact ⟨m₁, hm₁, hk.trans hk'⟩

end Follows

/-! ## Steps on the machine -/

namespace Eval

variable {m : Machine} {name : Token}

theorem keeps_define (h : name.IsName) (v : Value) : Keeps (define name.lexeme v) m :=
  .of_done_eq rfl (.of_store (.define h _ v))

theorem keeps_childFrame (e : FrameId) : Keeps (childFrame e) m :=
  .of_done_eq rfl (.of_store (.addFrame _))

theorem keeps_currentFrame : Keeps currentFrame m := .unchanged fun _ h => (Option.some.inj h).symm

theorem keeps_defineAll (frame : FrameId) {params : List Token}
    (h : ∀ p ∈ params, Token.IsName p) (args : List Value) :
    Keeps (defineAll frame params args) m := by
  induction params generalizing args m with
  | nil => exact .ret ()
  | cons p ps ih =>
    cases args with
    | nil => exact .ret ()
    | cons v vs =>
      rw [defineAll]
      refine .bind (.of_done_eq rfl (.of_store (.define (h p List.mem_cons_self) frame v))) fun _ _ _ => ?_
      exact ih (fun q hq => h q (List.mem_cons_of_mem p hq)) vs

theorem keeps_found (v : Option Value) (p : RuntimeProblem) : Keeps (found v p) m := by
  refine .unchanged fun m' h => ?_
  unfold found at h
  split at h <;> exact (Option.some.inj h).symm

theorem keeps_lookUp (id : RefId) (x : String) : Keeps (lookUp id x) m := by
  intro m' h
  unfold lookUp at h
  split at h
  · exact keeps_found _ _ m' h
  · exact keeps_found _ _ m' h

theorem keeps_readAt (frame : FrameId) (d : Nat) (x : String) : Keeps (readAt frame d x) m :=
  fun m' h => keeps_found _ _ m' h

theorem keeps_writeTo (target : Option FrameId) (h : name.IsName) (v : Value) (p : RuntimeProblem) :
    Keeps (writeTo target name.lexeme v p) m := by
  cases target with
  | some f => exact .of_done_eq rfl (.of_store (.define h f v))
  | none => exact .fail p

theorem keeps_assign (id : RefId) (h : name.IsName) (v : Value) :
    Keeps (assign id name.lexeme v) m := by
  intro m' hm'
  unfold assign at hm'
  split at hm'
  · exact keeps_writeTo _ h v _ m' hm'
  · exact keeps_writeTo _ h v _ m' hm'

theorem keeps_distanceOf? (id : RefId) : Keeps (distanceOf? id) m :=
  .unchanged fun _ h => (Option.some.inj h).symm

theorem keeps_newObject (c : Class) : Keeps (newObject c) m := .of_done_eq rfl (.of_store (.of_frames rfl))

theorem keeps_field? (o : ObjectId) (x : String) : Keeps (field? o x) m :=
  .unchanged fun _ h => (Option.some.inj h).symm

theorem keeps_setField (o : ObjectId) (x : String) (v : Value) : Keeps (setField o x v) m :=
  .of_done_eq rfl (.of_store (.of_frames rfl))

/-- Only the new frame gets a receiver. -/
theorem keeps_bindMethod (f : Closure) (receiver : Value) : Keeps (bindMethod f receiver) m :=
  .of_done_eq rfl (.of_store ((Store.Kept.addFrame _).define_new (Nat.le_refl _) "this" receiver))

theorem keeps_onWorld (x : Computation World α) : Keeps (onWorld x) m := by
  intro m' h
  unfold onWorld at h
  split at h <;> cases h
  · exact .of_same rfl rfl
  · exact .of_same rfl rfl

theorem keeps_property (c : Class) (o : ObjectId) (x : String) : Keeps (property c o x) m := by
  unfold property
  refine .bind (keeps_field? o x) fun v _ _ => ?_
  cases v with
  | some v => exact .ret v
  | none =>
    cases c.findMethod? x with
    | none => exact .fail _
    | some f => exact .bind (keeps_bindMethod f _) fun _ _ _ => .ret _

theorem keeps_superMethod (id : RefId) (x : String) : Keeps (superMethod id x) m := by
  unfold superMethod
  refine .bind (keeps_distanceOf? id) fun d _ _ => ?_
  cases d with
  | none => exact .fail _
  | some d =>
    refine .bind keeps_currentFrame fun frame _ _ => .bind (keeps_readAt _ _ _) fun c _ _ =>
      .bind (keeps_readAt _ _ _) fun receiver _ _ => ?_
    split
    · split
      · exact .bind (keeps_bindMethod _ _) fun _ _ _ => .ret _
      · exact .fail _
    · exact .fail _

/-- Only the frame around the methods gets a superclass. -/
theorem keeps_declareClass (h : name.IsName) (superclass : Option Class)
    (methods : List FunctionDecl) (hm : m.current < m.store.frames.size) :
    Keeps (declareClass name.lexeme superclass methods) m := by
  cases superclass with
  | none => exact .of_done_eq (declareClass_base _ _ hm) (.of_store (.define h _ _))
  | some c =>
    refine .of_done_eq (declareClass_derived _ c _ hm) ?_
    refine .of_store (.trans ?_ (.define h _ _))
    exact (Store.Kept.addFrame _).define_new (Nat.le_refl _) "super" (.cls c)

end Eval

/-! ## Names that a sound activity binds -/

namespace Activity.Sound

variable {n : Nat} {m : Machine} {name : Token}

theorem isName_var {init : Option Expr} (h : (Activity.execute n (.var name init)).Sound m) :
    name.IsName := by
  obtain ⟨w, x, t, ctx, scopes, frame, scope, -, -, -, hl⟩ := h
  exact hl.1.1

theorem isName_function {decl : FunctionDecl}
    (h : (Activity.execute n (.function decl)).Sound m) : decl.name.IsName := by
  obtain ⟨w, x, t, ctx, scopes, frame, scope, -, -, -, hl⟩ := h
  exact hl.1.1

theorem isName_cls {superclass : Option Expr} {methods : List FunctionDecl}
    (h : (Activity.execute n (.cls name superclass methods)).Sound m) : name.IsName := by
  obtain ⟨w, x, t, ctx, scopes, frame, scope, -, -, -, hl⟩ := h
  cases superclass with
  | none => exact hl.1.1
  | some e => exact hl.1.1

theorem isName_assign {id : RefId} {value : Expr}
    (h : (Activity.evaluate n (.assign id name value)).Sound m) : name.IsName := by
  obtain ⟨w, x, t, ctx, scopes, frame, names, -, -, hl⟩ := h
  exact hl.1

theorem isName_params {f : Closure} {args : List Value}
    (h : (Activity.callFunction n f args).Sound m) : ∀ p ∈ f.decl.params, p.IsName := by
  obtain ⟨w, x, frame, g, args', -, ⟨-, -, scopes, ⟨⟨t, ctx, -, hl, -, -⟩, -⟩, -, -⟩, -⟩ := h
  obtain ⟨⟨name, params, body⟩, env, isInitializer⟩ := f
  exact hl.1.isName

end Activity.Sound

/-! ## Whole activities -/

open Eval

/-- With this much fuel sound activities change no receiver. -/
structure KeepsAt (n : Nat) : Prop where
  execute : ∀ {s m}, (Activity.execute n s).Sound m → Keeps (Eval.execute n s) m
  executeAll : ∀ {ss m}, (Activity.executeAll n ss).Sound m → Keeps (Eval.executeAll n ss) m
  evaluate : ∀ {e m}, (Activity.evaluate n e).Sound m → Keeps (Eval.evaluate n e) m
  evaluateOption : ∀ {e m}, (Activity.evaluateOption n e).Sound m →
    Keeps (Eval.evaluateOption n e) m
  evaluateAll : ∀ {es m}, (Activity.evaluateAll n es).Sound m → Keeps (Eval.evaluateAll n es) m
  invoke : ∀ {f args m}, (Activity.invoke n f args).Sound m → Keeps (Eval.invoke n f args) m
  call : ∀ {c args m}, (Activity.call n c args).Sound m → Keeps (Eval.call n c args) m
  callFunction : ∀ {f args m}, (Activity.callFunction n f args).Sound m →
    Keeps (Eval.callFunction n f args) m

theorem keepsAt_zero : KeepsAt 0 where
  execute _ := by rw [execute_zero]; exact .exhausted
  executeAll _ := by rw [executeAll_zero]; exact .exhausted
  evaluate _ := by rw [evaluate_zero]; exact .exhausted
  evaluateOption _ := by rw [evaluateOption_zero]; exact .exhausted
  evaluateAll _ := by rw [evaluateAll_zero]; exact .exhausted
  invoke _ := by rw [invoke_zero]; exact .exhausted
  call _ := by rw [call_zero]; exact .exhausted
  callFunction _ := by rw [callFunction_zero]; exact .exhausted

/-- What is left of a property read once its object is known. -/
theorem keeps_get {m : Machine} (v : Value) (name : String) :
    Keeps (match v with | .object c o => property c o name | _ => Computation.fail .noProperties)
      m := by
  cases v with
  | object c o => exact keeps_property c o name
  | _ => exact .fail _

/-- What is left of a call once the body of the function has run. -/
theorem keeps_result {m : Machine} (f : Closure) (flow : Flow) :
    Keeps (if f.isInitializer then readAt f.env 0 "this"
      else match flow with | .returned v => pure v | .normal => pure .nil) m := by
  split
  · exact keeps_readAt _ _ _
  · cases flow with
    | returned v => exact .ret _
    | normal => exact .ret _

namespace KeepsAt

variable {n : Nat} {m m' : Machine}

theorem derived {name : Token} {e : Expr} {methods : List FunctionDecl} {v : Value}
    (h : (Activity.execute (n + 1) (.cls name (some e) methods)).Sound m)
    (hv : Eval.evaluate n e m = .done v m') :
    Keeps (match v with
      | .cls c => do
        declareClass name.lexeme (some c) methods
        (pure .normal : Eval Flow)
      | _ => Computation.fail .superclassNotClass) m' := by
  cases v with
  | cls c =>
    exact .bind (keeps_declareClass h.isName_cls (some c) methods
      (sound_of_enters (.derivedClass hv) h)) fun _ _ _ => .ret _
  | _ => exact .fail _

variable (ih : KeepsAt n)
include ih

/-! What is left of a statement or an expression when its first part is done. -/

theorem binary {l r : Expr} {operator : Token} {v : Value}
    (h : (Activity.evaluate (n + 1) (.binary l operator r)).Sound m)
    (hv : Eval.evaluate n l m = .done v m') :
    Keeps (do
      let u ← Eval.evaluate n r
      Computation.ofExcept (Operator.binary v operator u)) m' :=
  .bind (ih.evaluate (sound_of_enters (.binaryRight hv) h)) fun _ _ _ => .ofExcept _

theorem logical {l r : Expr} {operator : Token} {v : Value}
    (h : (Activity.evaluate (n + 1) (.logical l operator r)).Sound m)
    (hv : Eval.evaluate n l m = .done v m') :
    Keeps (if Operator.isDecided operator v then pure v else Eval.evaluate n r) m' := by
  split
  · exact .ret _
  · rename_i hd
    exact ih.evaluate (sound_of_enters (.logicalRight hv (by simpa using hd)) h)

theorem arguments {callee : Expr} {paren : Token} {args : List Expr} {f : Value}
    (h : (Activity.evaluate (n + 1) (.call callee paren args)).Sound m)
    (hf : Eval.evaluate n callee m = .done f m') :
    Keeps (do
      let vs ← Eval.evaluateAll n args
      Eval.invoke n f vs) m' :=
  .bind (ih.evaluateAll (sound_of_enters (.arguments hf) h)) fun _ _ hvs =>
    ih.invoke (sound_of_enters (.invoke hf hvs) h)

theorem set {object value : Expr} {name : Token} {v : Value}
    (h : (Activity.evaluate (n + 1) (.set object name value)).Sound m)
    (hv : Eval.evaluate n object m = .done v m') :
    Keeps (match v with
      | .object _ fields => do
        let u ← Eval.evaluate n value
        setField fields name.lexeme u
        pure u
      | _ => Computation.fail .noFields) m' := by
  cases v with
  | object c o =>
    refine .bind (ih.evaluate (sound_of_enters (.setValue hv) h)) fun u _ _ => ?_
    exact .bind (keeps_setField o _ u) fun _ _ _ => .ret _
  | _ => exact .fail _

theorem ifThen {condition : Expr} {yes : Stmt} {v : Value}
    (h : (Activity.execute (n + 1) (.ifThen condition yes)).Sound m)
    (hv : Eval.evaluate n condition m = .done v m') :
    Keeps (if v.isTruthy then Eval.execute n yes else pure .normal) m' := by
  split
  · rename_i ht
    exact ih.execute (sound_of_enters (.ifYes hv ht) h)
  · exact .ret _

theorem ifElse {condition : Expr} {yes no : Stmt} {v : Value}
    (h : (Activity.execute (n + 1) (.ifElse condition yes no)).Sound m)
    (hv : Eval.evaluate n condition m = .done v m') :
    Keeps (if v.isTruthy then Eval.execute n yes else Eval.execute n no) m' := by
  split
  · rename_i ht
    exact ih.execute (sound_of_enters (.elseYes hv ht) h)
  · rename_i ht
    exact ih.execute (sound_of_enters (.elseNo hv (by simpa using ht)) h)

theorem loopAgain {condition : Expr} {body : Stmt} {v : Value} {flow : Flow} {m'' : Machine}
    (h : (Activity.execute (n + 1) (.loop condition body)).Sound m)
    (hv : Eval.evaluate n condition m = .done v m') (ht : v.isTruthy = true)
    (hb : Eval.execute n body m' = .done flow m'') :
    Keeps (match flow with
      | .returned r => pure (.returned r)
      | .normal => Eval.execute n (.loop condition body)) m'' := by
  cases flow with
  | returned r => exact .ret _
  | normal => exact ih.execute (sound_of_enters (.loopAgain hv ht hb) h)

theorem loop {condition : Expr} {body : Stmt} {v : Value}
    (h : (Activity.execute (n + 1) (.loop condition body)).Sound m)
    (hv : Eval.evaluate n condition m = .done v m') :
    Keeps (if v.isTruthy then do
        match ← Eval.execute n body with
        | .returned r => pure (.returned r)
        | .normal => Eval.execute n (.loop condition body)
      else pure .normal) m' := by
  split
  · rename_i ht
    exact .bind (ih.execute (sound_of_enters (.loopBody hv ht) h)) fun _ _ hb =>
      ih.loopAgain h hv ht hb
  · exact .ret _

theorem statements {s : Stmt} {ss : List Stmt} {flow : Flow}
    (h : (Activity.executeAll (n + 1) (s :: ss)).Sound m)
    (hs : Eval.execute n s m = .done flow m') :
    Keeps (match flow with
      | .returned v => pure (.returned v)
      | .normal => Eval.executeAll n ss) m' := by
  cases flow with
  | returned v => exact .ret _
  | normal => exact ih.executeAll (sound_of_enters (.moreStatements hs) h)

/-! Whole statements, expressions and calls. -/

theorem evaluate_succ {e : Expr} (h : (Activity.evaluate (n + 1) e).Sound m) :
    Keeps (Eval.evaluate (n + 1) e) m := by
  cases e with
  | constant c =>
    rw [Eval.evaluate]
    exact .ret _
  | grouping e =>
    rw [Eval.evaluate]
    exact ih.evaluate (sound_of_enters .grouping h)
  | unary operator e =>
    rw [Eval.evaluate]
    exact .bind (ih.evaluate (sound_of_enters .unary h)) fun v _ _ => .ofExcept _
  | binary l operator r =>
    rw [Eval.evaluate]
    exact .bind (ih.evaluate (sound_of_enters .binaryLeft h)) fun _ _ hl => ih.binary h hl
  | logical l operator r =>
    rw [Eval.evaluate]
    exact .bind (ih.evaluate (sound_of_enters .logicalLeft h)) fun _ _ hl => ih.logical h hl
  | var id name =>
    rw [Eval.evaluate]
    exact keeps_lookUp _ _
  | assign id name value =>
    rw [Eval.evaluate]
    refine .bind (ih.evaluate (sound_of_enters .assignValue h)) fun v _ _ => ?_
    exact .bind (keeps_assign id h.isName_assign v) fun _ _ _ => .ret _
  | call callee paren args =>
    rw [Eval.evaluate]
    exact .bind (ih.evaluate (sound_of_enters .callee h)) fun _ _ hf => ih.arguments h hf
  | get object name =>
    rw [Eval.evaluate]
    exact .bind (ih.evaluate (sound_of_enters .getObject h)) fun v _ _ => keeps_get v _
  | set object name value =>
    rw [Eval.evaluate]
    exact .bind (ih.evaluate (sound_of_enters .setObject h)) fun _ _ hv => ih.set h hv
  | thisRef id keyword =>
    rw [Eval.evaluate]
    exact keeps_lookUp _ _
  | superRef id keyword method =>
    rw [Eval.evaluate]
    exact keeps_superMethod _ _
  | unparsed =>
    rw [Eval.evaluate]
    exact .fail _

theorem execute_succ {s : Stmt} (h : (Activity.execute (n + 1) s).Sound m) :
    Keeps (Eval.execute (n + 1) s) m := by
  cases s with
  | expression e =>
    rw [Eval.execute]
    exact .bind (ih.evaluate (sound_of_enters .expression h)) fun _ _ _ => .ret _
  | var name init =>
    rw [Eval.execute]
    refine .bind (ih.evaluateOption (sound_of_enters .var h)) fun v _ _ => ?_
    exact .bind (keeps_define h.isName_var v) fun _ _ _ => .ret _
  | block body =>
    rw [Eval.execute]
    refine .bind keeps_currentFrame fun here _ hc => ?_
    cases hc
    refine .bind (keeps_childFrame _) fun frame _ hf => .inFrame ?_
    exact ih.executeAll (sound_of_enters (.block hf) h)
  | ifThen condition yes =>
    rw [Eval.execute]
    exact .bind (ih.evaluate (sound_of_enters .ifCondition h)) fun _ _ hv => ih.ifThen h hv
  | ifElse condition yes no =>
    rw [Eval.execute]
    exact .bind (ih.evaluate (sound_of_enters .elseCondition h)) fun _ _ hv => ih.ifElse h hv
  | loop condition body =>
    rw [Eval.execute]
    exact .bind (ih.evaluate (sound_of_enters .loopCondition h)) fun _ _ hv => ih.loop h hv
  | function decl =>
    rw [Eval.execute]
    refine .bind keeps_currentFrame fun here _ _ => ?_
    exact .bind (keeps_define h.isName_function _) fun _ _ _ => .ret _
  | ret keyword value =>
    rw [Eval.execute]
    exact .bind (ih.evaluateOption (sound_of_enters .ret h)) fun _ _ _ => .ret _
  | cls name superclass methods =>
    cases superclass with
    | none =>
      rw [Eval.execute]
      exact .bind (keeps_declareClass h.isName_cls none methods (sound_of_enters (.baseClass) h))
        fun _ _ _ => .ret _
    | some e =>
      rw [Eval.execute]
      exact .bind (ih.evaluate (sound_of_enters .superclass h)) fun _ _ hv => derived h hv

theorem executeAll_succ {ss : List Stmt} (h : (Activity.executeAll (n + 1) ss).Sound m) :
    Keeps (Eval.executeAll (n + 1) ss) m := by
  cases ss with
  | nil =>
    rw [Eval.executeAll]
    exact .ret _
  | cons s ss =>
    rw [Eval.executeAll]
    exact .bind (ih.execute (sound_of_enters .firstStatement h)) fun _ _ hs => ih.statements h hs

theorem evaluateOption_succ {e : Option Expr} (h : (Activity.evaluateOption (n + 1) e).Sound m) :
    Keeps (Eval.evaluateOption (n + 1) e) m := by
  cases e with
  | none =>
    rw [Eval.evaluateOption]
    exact .ret _
  | some e =>
    rw [Eval.evaluateOption]
    exact ih.evaluate (sound_of_enters .option h)

theorem evaluateAll_succ {es : List Expr} (h : (Activity.evaluateAll (n + 1) es).Sound m) :
    Keeps (Eval.evaluateAll (n + 1) es) m := by
  cases es with
  | nil =>
    rw [Eval.evaluateAll]
    exact .ret _
  | cons e es =>
    rw [Eval.evaluateAll]
    refine .bind (ih.evaluate (sound_of_enters .firstArgument h)) fun v _ hv => ?_
    exact .bind (ih.evaluateAll (sound_of_enters (.moreArguments hv) h)) fun _ _ _ => .ret _

theorem invoke_succ {f : Value} {args : List Value} (h : (Activity.invoke (n + 1) f args).Sound m) :
    Keeps (Eval.invoke (n + 1) f args) m := by
  rw [Eval.invoke]
  cases hc : f.callable? with
  | none => exact .fail _
  | some c =>
    dsimp only
    split
    · rename_i hlen
      exact ih.call (sound_of_enters (.call hc hlen) h)
    · exact .fail _

theorem call_succ {c : Callable} {args : List Value} (h : (Activity.call (n + 1) c args).Sound m) :
    Keeps (Eval.call (n + 1) c args) m := by
  cases c with
  | native f =>
    rw [Eval.call]
    exact keeps_onWorld _
  | function f =>
    rw [Eval.call]
    exact ih.callFunction (sound_of_enters .function h)
  | cls c =>
    rw [Eval.call]
    refine .bind (keeps_newObject c) fun object _ ho => ?_
    cases hi : c.findMethod? initializerName with
    | none => exact .ret _
    | some init =>
      refine .bind (keeps_bindMethod init object) fun bound _ hb => ?_
      refine .bind (ih.callFunction (sound_of_enters (.initializer ho hi hb) h)) fun _ _ _ => ?_
      exact .ret _

theorem runBody {f : Closure} {args : List Value}
    (h : (Activity.callFunction (n + 1) f args).Sound m) : Keeps (Eval.runBody n f args) m := by
  unfold Eval.runBody
  refine .bind (keeps_childFrame _) fun frame _ hf => ?_
  refine .bind (keeps_defineAll frame h.isName_params args) fun _ _ hp => .inFrame ?_
  exact ih.executeAll (sound_of_enters (.body hf hp) h)

theorem callFunction_succ {f : Closure} {args : List Value}
    (h : (Activity.callFunction (n + 1) f args).Sound m) :
    Keeps (Eval.callFunction (n + 1) f args) m := by
  rw [Eval.callFunction_succ]
  exact .bind (ih.runBody h) fun flow _ _ => keeps_result f flow

theorem succ : KeepsAt (n + 1) where
  execute := ih.execute_succ
  executeAll := ih.executeAll_succ
  evaluate := ih.evaluate_succ
  evaluateOption := ih.evaluateOption_succ
  evaluateAll := ih.evaluateAll_succ
  invoke := ih.invoke_succ
  call := ih.call_succ
  callFunction := ih.callFunction_succ

end KeepsAt

/-- Sound activities change no receiver. -/
theorem keepsAt : ∀ n, KeepsAt n
  | 0 => keepsAt_zero
  | n + 1 => (keepsAt n).succ

theorem keeps_runAll {n : Nat} {ss : List Stmt} :
    ∀ {m : Machine}, (Activity.program n ss).Sound m → Keeps (runAll n ss) m := by
  induction ss with
  | nil => exact fun _ => .ret ()
  | cons s ss ih =>
    intro m h
    rw [runAll]
    refine .bind ((keepsAt n).execute ?_) fun _ _ hs => ih (sound_of_enters (.programTail hs) h)
    exact sound_of_enters .statement (sound_of_enters .programHead h)

end Lox
