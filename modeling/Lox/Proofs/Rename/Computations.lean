import Lox.Eval
import Lox.Proofs.Related
import Lox.Proofs.Rename.Renaming

/-!
# Lox.Proofs.Rename.Computations

Stores and machines that are twins, and computations that keep them so (`Eval.Twin`): started on twin
machines they end alike, with twin values or the same failure, on twin machines, or both out of fuel.
There is one lemma for each thing that the evaluator does with its machine.
-/

namespace Lox

/-! ## Stores -/

structure Frame.Twin (p : RefId → RefId → Prop) (fr fr' : Frame) : Prop where
  enclosing : fr'.enclosing = fr.enclosing
  bindings : Bindings.Twin (Value.Twin p) fr.bindings fr'.bindings

structure Store.Twin (p : RefId → RefId → Prop) (s s' : Store) : Prop where
  frames : ArrayTwin (Frame.Twin p) s.frames s'.frames
  objects : ArrayTwin (Bindings.Twin (Value.Twin p)) s.objects s'.objects

namespace Store.Twin

variable {p q : RefId → RefId → Prop} {s s' : Store}

theorem mono (hpq : ∀ {i j}, p i j → q i j) (h : s.Twin p s') : s.Twin q s' where
  frames := h.frames.mono fun hf =>
    ⟨hf.enclosing, fun name => optionRel_mono (Value.Twin.mono hpq) (hf.bindings name)⟩
  objects := h.objects.mono fun ho name => optionRel_mono (Value.Twin.mono hpq) (ho name)

theorem enclosing?_eq (h : s.Twin p s') (f : FrameId) : s'.enclosing? f = s.enclosing? f := by
  have hf := h.frames.entry f
  unfold enclosing?
  revert hf
  cases s.frames[f]? <;> cases s'.frames[f]? <;> rintro ⟨⟩
  · rfl
  · rename_i hf
    exact hf.enclosing

theorem local? (h : s.Twin p s') (f : FrameId) (name : String) :
    Option.Rel (Value.Twin p) (s.local? f name) (s'.local? f name) := by
  have hf := h.frames.entry f
  unfold Store.local?
  revert hf
  cases s.frames[f]? <;> cases s'.frames[f]? <;> rintro ⟨⟩
  · exact .none
  · rename_i hf
    exact hf.bindings name

theorem ancestor?_eq (h : s.Twin p s') : ∀ (d : Nat) (f : FrameId),
    s'.ancestor? d f = s.ancestor? d f
  | 0, _ => rfl
  | d + 1, f => by
    unfold ancestor?
    rw [h.enclosing?_eq]
    cases s.enclosing? f with
    | none => rfl
    | some e => exact ancestor?_eq h d e

theorem ownerWithin_eq (h : s.Twin p s') (name : String) : ∀ (n : Nat) (f : FrameId),
    s'.ownerWithin name n f = s.ownerWithin name n f
  | 0, _ => rfl
  | n + 1, f => by
    have hlocal := h.local? f name
    unfold ownerWithin
    rw [h.enclosing?_eq]
    revert hlocal
    cases s.local? f name <;> cases s'.local? f name <;> rintro ⟨⟩
    · cases s.enclosing? f with
      | none => rfl
      | some e => exact ownerWithin_eq h name n e
    · rfl

theorem owner?_eq (h : s.Twin p s') (f : FrameId) (name : String) :
    s'.owner? f name = s.owner? f name :=
  h.ownerWithin_eq name (f + 1) f

theorem get? (h : s.Twin p s') (f : FrameId) (name : String) :
    Option.Rel (Value.Twin p) (s.get? f name) (s'.get? f name) := by
  unfold Store.get?
  rw [h.owner?_eq]
  cases s.owner? f name with
  | none => exact .none
  | some o => exact h.local? o name

theorem getAt? (h : s.Twin p s') (f : FrameId) (d : Nat) (name : String) :
    Option.Rel (Value.Twin p) (s.getAt? f d name) (s'.getAt? f d name) := by
  unfold Store.getAt?
  rw [h.ancestor?_eq]
  cases s.ancestor? d f with
  | none => exact .none
  | some a => exact h.local? a name

theorem field? (h : s.Twin p s') (o : ObjectId) (name : String) :
    Option.Rel (Value.Twin p) (s.field? o name) (s'.field? o name) := by
  have ho := h.objects.entry o
  unfold Store.field?
  revert ho
  cases s.objects[o]? <;> cases s'.objects[o]? <;> rintro ⟨⟩
  · exact .none
  · rename_i ho
    exact ho name

theorem define (h : s.Twin p s') (f : FrameId) (name : String) {v v' : Value} (hv : v.Twin p v') :
    (s.define f name v).Twin p (s'.define f name v') where
  frames := by
    dsimp only [Store.define]
    exact h.frames.modify f fun hf => ⟨hf.enclosing, hf.bindings.insert name hv⟩
  objects := h.objects

theorem addFrame (h : s.Twin p s') (enclosing : Option FrameId) :
    (s.addFrame enclosing).2.Twin p (s'.addFrame enclosing).2 where
  frames := h.frames.push ⟨rfl, Bindings.Twin.empty⟩
  objects := h.objects

theorem setField (h : s.Twin p s') (o : ObjectId) (name : String) {v v' : Value}
    (hv : v.Twin p v') : (s.setField o name v).Twin p (s'.setField o name v') where
  frames := h.frames
  objects := h.objects.modify o fun hf => hf.insert name hv

theorem addObject (h : s.Twin p s') : s.addObject.2.Twin p s'.addObject.2 where
  frames := h.frames
  objects := h.objects.push Bindings.Twin.empty

end Store.Twin

/-! ## Machines -/

/-- The same state but for the numbers of references. -/
structure Machine.Twin (w : Renaming) (m m' : Machine) : Prop where
  world : m'.toWorld = m.toWorld
  store : m.store.Twin w.pairs m'.store
  globals : m'.globals = m.globals
  current : m'.current = m.current
  left : m.locals = w.left.locals
  right : m'.locals = w.right.locals

theorem Machine.Twin.find?_eq {w : Renaming} {m m' : Machine} (h : m.Twin w m') {i j : RefId}
    (hij : w.pairs i j) : m'.locals.find? j = m.locals.find? i := by
  rw [h.left, h.right]
  exact (w.known hij).2.2

/-! ## Natives -/

namespace Native

variable {p : RefId → RefId → Prop}

theorem text_headD_eq {args args' : List Value} (h : List.Forall₂ (Value.Twin p) args args') :
    (args'.headD .nil).text = (args.headD .nil).text := by
  cases h with
  | nil => rfl
  | cons hv _ => exact hv.text_eq

/-- All that a native takes from its arguments is a text. -/
theorem run_eq (n : Native) {args args' : List Value}
    (h : List.Forall₂ (Value.Twin p) args args') : n.run args' = n.run args := by
  cases n with
  | clock => rfl
  | print => simp only [run, text_headD_eq h]
  | str => simp only [run, text_headD_eq h]

/-- A native yields nothing that refers to a program. -/
theorem twin_of_run {n : Native} {args : List Value} {v : Value} {world world' : World}
    (h : n.run args world = .done v world') : v.Twin p v := by
  cases n with
  | clock =>
    obtain ⟨x, _, -, h⟩ := Computation.exists_of_bind h
    cases h
    exact .number x
  | print =>
    obtain ⟨_, _, -, h⟩ := Computation.exists_of_bind h
    cases h
    exact .nil
  | str =>
    cases h
    exact .string _

end Native

/-! ## Computations -/

/-- Two ends alike. -/
inductive Outcome.Twin {α β : Type} (w : Renaming) (R : α → β → Prop) :
    Outcome Machine α → Outcome Machine β → Prop
  | done {a : α} {b : β} {m m' : Machine} : R a b → m.Twin w m' →
      Twin w R (.done a m) (.done b m')
  | failed (e : Error) {m m' : Machine} : m.Twin w m' → Twin w R (.failed e m) (.failed e m')
  | outOfFuel : Twin w R .outOfFuel .outOfFuel

namespace Eval

open Lox.Computation

/-- From twin machines, the computations end alike. -/
def Twin {α β : Type} (w : Renaming) (R : α → β → Prop) (x : Eval α) (x' : Eval β) :
    Prop :=
  ∀ ⦃m m' : Machine⦄, m.Twin w m' → Outcome.Twin w R (x m) (x' m')

variable {α β γ δ : Type} {w : Renaming} {R : α → β → Prop} {S : γ → δ → Prop}

theorem twin_pure {a : α} {b : β} (h : R a b) : Twin w R (pure a) (pure b) :=
  fun _ _ hm => .done h hm

theorem twin_bind {x : Eval α} {x' : Eval β} {k : α → Eval γ} {k' : β → Eval δ}
    (h : Twin w R x x') (hk : ∀ a b, R a b → Twin w S (k a) (k' b)) :
    Twin w S (x >>= k) (x' >>= k') := by
  intro m m' hm
  rw [bind_apply, bind_apply]
  have hend := h hm
  revert hend
  generalize x m = o, x' m' = o'
  intro hend
  cases hend with
  | done hab hm => exact hk _ _ hab hm
  | failed e hm => exact .failed e hm
  | outOfFuel => exact .outOfFuel

theorem twin_fail (problem : RuntimeProblem) : Twin w R (fail problem) (fail problem) :=
  fun _ _ hm => .failed _ hm

theorem twin_ofExcept {r r' : Except RuntimeProblem Value}
    (h : Operator.ResultTwin w.pairs r r') :
    Twin w (Value.Twin w.pairs) (ofExcept r) (ofExcept r') := by
  cases h with
  | ok hv => exact twin_pure hv
  | error problem => exact twin_fail problem

/-! ### Variables -/

theorem twin_currentFrame : Twin w Eq currentFrame currentFrame :=
  fun _ _ hm => .done hm.current.symm hm

theorem twin_childFrame (enclosing : FrameId) :
    Twin w Eq (childFrame enclosing) (childFrame enclosing) :=
  fun _ _ hm => .done hm.store.frames.size.symm { hm with store := hm.store.addFrame _ }

theorem twin_defineIn (frame : FrameId) (name : String) {v v' : Value} (hv : v.Twin w.pairs v') :
    Twin w Eq (defineIn frame name v) (defineIn frame name v') :=
  fun _ _ hm => .done rfl { hm with store := hm.store.define frame name hv }

theorem twin_define (name : String) {v v' : Value} (hv : v.Twin w.pairs v') :
    Twin w Eq (define name v) (define name v') := by
  intro m m' hm
  refine .done rfl { hm with store := ?_ }
  simpa only [hm.current] using hm.store.define m.current name hv

theorem twin_defineAll (frame : FrameId) {params params' : List Token} {args args' : List Value}
    (hp : List.Forall₂ Token.Twin params params')
    (ha : List.Forall₂ (Value.Twin w.pairs) args args') :
    Twin w Eq (defineAll frame params args) (defineAll frame params' args') := by
  induction hp generalizing args args' with
  | nil => exact twin_pure rfl
  | cons hname _ ih =>
    cases ha with
    | nil => exact twin_pure rfl
    | cons hv ha =>
      unfold defineAll
      rw [hname.lexeme]
      exact twin_bind (twin_defineIn frame _ hv) fun _ _ _ => ih ha

theorem twin_found {v v' : Option Value} (h : Option.Rel (Value.Twin w.pairs) v v')
    (otherwise : RuntimeProblem) :
    Twin w (Value.Twin w.pairs) (found v otherwise) (found v' otherwise) := by
  intro m m' hm
  cases h with
  | none => exact .failed _ hm
  | some hv => exact .done hv hm

theorem twin_lookUp {i j : RefId} (hij : w.pairs i j) (name : String) :
    Twin w (Value.Twin w.pairs) (lookUp i name) (lookUp j name) := by
  intro m m' hm
  unfold lookUp
  rw [hm.find?_eq hij, hm.current, hm.globals]
  cases m.locals.find? i with
  | none => exact twin_found (hm.store.get? m.globals name) _ hm
  | some d => exact twin_found (hm.store.getAt? m.current d name) _ hm

theorem twin_readAt (frame : FrameId) (d : Nat) (name : String) :
    Twin w (Value.Twin w.pairs) (readAt frame d name) (readAt frame d name) :=
  fun _ _ hm => twin_found (hm.store.getAt? frame d name) _ hm

theorem twin_writeTo (target : Option FrameId) (name : String) {v v' : Value}
    (hv : v.Twin w.pairs v') (otherwise : RuntimeProblem) :
    Twin w Eq (writeTo target name v otherwise) (writeTo target name v' otherwise) := by
  intro m m' hm
  cases target with
  | none => exact .failed _ hm
  | some f => exact .done rfl { hm with store := hm.store.define f name hv }

theorem twin_assign {i j : RefId} (hij : w.pairs i j) (name : String) {v v' : Value}
    (hv : v.Twin w.pairs v') : Twin w Eq (assign i name v) (assign j name v') := by
  intro m m' hm
  unfold assign
  rw [hm.find?_eq hij, hm.current, hm.globals, hm.store.owner?_eq]
  cases m.locals.find? i with
  | none => exact twin_writeTo _ name hv _ hm
  | some d =>
    simp only [hm.store.ancestor?_eq]
    exact twin_writeTo _ name hv _ hm

theorem twin_assignOutward (name : String) {v v' : Value} (hv : v.Twin w.pairs v') :
    Twin w Eq (assignOutward name v) (assignOutward name v') := by
  intro m m' hm
  unfold assignOutward
  rw [hm.current, hm.store.owner?_eq]
  exact twin_writeTo _ name hv _ hm

theorem twin_distanceOf? {i j : RefId} (hij : w.pairs i j) :
    Twin w Eq (distanceOf? i) (distanceOf? j) :=
  fun _ _ hm => .done (hm.find?_eq hij).symm hm

theorem twin_inFrame (frame : FrameId) {x : Eval α} {x' : Eval β} (h : Twin w R x x') :
    Twin w R (inFrame frame x) (inFrame frame x') := by
  intro m m' hm
  have hend := h (show Machine.Twin w { m with current := frame } { m' with current := frame } from
    { hm with current := rfl })
  unfold inFrame
  dsimp only
  revert hend
  generalize x { m with current := frame } = o, x' { m' with current := frame } = o'
  intro hend
  cases hend with
  | done hab hend => exact .done hab { hend with current := hm.current }
  | failed e hend => exact .failed e { hend with current := hm.current }
  | outOfFuel => exact .outOfFuel

/-! ### Instances -/

theorem twin_newObject {c c' : Class} (hc : c.Twin w.pairs c') :
    Twin w (Value.Twin w.pairs) (newObject c) (newObject c') := by
  intro m m' hm
  unfold newObject Store.addObject
  rw [hm.store.objects.size]
  exact .done (.object _ hc) { hm with store := hm.store.addObject }

theorem twin_field? (o : ObjectId) (name : String) :
    Twin w (Option.Rel (Value.Twin w.pairs)) (field? o name) (field? o name) :=
  fun _ _ hm => .done (hm.store.field? o name) hm

theorem twin_setField (o : ObjectId) (name : String) {v v' : Value} (hv : v.Twin w.pairs v') :
    Twin w Eq (setField o name v) (setField o name v') :=
  fun _ _ hm => .done rfl { hm with store := hm.store.setField o name hv }

theorem twin_bindMethod {f f' : Closure} (hf : f.Twin w.pairs f') {v v' : Value}
    (hv : v.Twin w.pairs v') :
    Twin w (Closure.Twin w.pairs) (bindMethod f v) (bindMethod f' v') := by
  unfold bindMethod
  rw [hf.env]
  refine twin_bind (twin_childFrame f.env) fun frame _ hframe => ?_
  subst hframe
  exact twin_bind (twin_defineIn frame "this" hv) fun _ _ _ =>
    twin_pure ⟨hf.decl, rfl, hf.isInitializer⟩

/-! ### The outside -/

theorem twin_onWorld {x : Computation World Value}
    (h : ∀ world v world', x world = .done v world' → v.Twin w.pairs v) :
    Twin w (Value.Twin w.pairs) (onWorld x) (onWorld x) := by
  intro m m' hm
  unfold onWorld
  rw [hm.world]
  cases hx : x m.toWorld with
  | done v world => exact .done (h _ _ _ hx) { hm with world := rfl }
  | failed e world => exact .failed e { hm with world := rfl }
  | outOfFuel => exact .outOfFuel

end Eval
end Lox
