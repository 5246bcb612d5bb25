import Lox.Proofs.Depth.Charted

/-!
# Lox.Proofs.Depth.Ends

Computations on machines with a chart (`Charts`). They end on a machine with a later chart, in the
frame in which they started, well or not; running one after the other keeps this up. There is one
lemma for each thing that the evaluator does with a machine: assignments go to frames whose scopes
have the name, and what is made, functions, methods and classes, stands in its frame.
-/

namespace Lox

open Resolve

variable {α β : Type}

/-- The end of a computation that started on a machine with the chart `w`. -/
def Charts (ps : List (List Stmt)) (T : Table) (w : Chart) (frame : FrameId)
    (Q : Chart → α → Prop) : Outcome Machine α → Prop
  | .done a m => ∃ w', w.Le w' ∧ Charted ps T w' frame m ∧ Q w' a
  | .failed _ m => ∃ w', w.Le w' ∧ Charted ps T w' frame m
  | .outOfFuel => True

variable {ps : List (List Stmt)} {T : Table} {w w' : Chart} {frame : FrameId} {m m' : Machine}

namespace Charts

variable {Q : Chart → α → Prop} {R : Chart → β → Prop}

theorem of_done {o : Outcome Machine α} (h : Charts ps T w frame Q o) {a : α}
    (ho : o = .done a m) : ∃ w', w.Le w' ∧ Charted ps T w' frame m ∧ Q w' a := by
  subst ho
  exact h

theorem of_state? {o : Outcome Machine α} (h : Charts ps T w frame Q o)
    (ho : o.state? = some m) : ∃ w', w.Le w' ∧ Charted ps T w' frame m := by
  cases o with
  | done a m' =>
    cases ho
    obtain ⟨w', hle, h', -⟩ := h
    exact ⟨w', hle, h'⟩
  | failed e m' =>
    cases ho
    exact h
  | outOfFuel => cases ho

/-- Less is known of an end, seen from an earlier chart. -/
theorem weaken {Q' : Chart → α → Prop} {o : Outcome Machine α} (h : Charts ps T w' frame Q o)
    (hle : w.Le w') (hQ : ∀ w'' a, w'.Le w'' → Q w'' a → Q' w'' a) : Charts ps T w frame Q' o := by
  cases o with
  | done a m =>
    obtain ⟨w'', hle', h', hq⟩ := h
    exact ⟨w'', hle.trans hle', h', hQ w'' a hle' hq⟩
  | failed e m =>
    obtain ⟨w'', hle', h'⟩ := h
    exact ⟨w'', hle.trans hle', h'⟩
  | outOfFuel => trivial

theorem after {o : Outcome Machine α} (h : Charts ps T w' frame Q o) (hle : w.Le w') :
    Charts ps T w frame Q o :=
  h.weaken hle fun _ _ _ hq => hq

theorem bind {c : Eval α} {k : α → Eval β} (h : Charts ps T w frame Q (c m))
    (hk : ∀ w' a m', w.Le w' → Charted ps T w' frame m' → Q w' a →
      Charts ps T w' frame R (k a m')) : Charts ps T w frame R ((c >>= k) m) := by
  rw [Computation.bind_apply]
  revert h
  cases c m with
  | done a m =>
    rintro ⟨w', hle, h', hq⟩
    exact (hk w' a m hle h' hq).after hle
  | failed e m => exact id
  | outOfFuel => exact id

theorem ret (h : Charted ps T w frame m) {a : α} (hq : Q w a) :
    Charts ps T w frame Q ((pure a : Eval α) m) :=
  ⟨w, .refl w, h, hq⟩

theorem fail (h : Charted ps T w frame m) (problem : RuntimeProblem) :
    Charts ps T w frame Q (Computation.fail problem m) :=
  ⟨w, .refl w, h⟩

theorem ofExcept (h : Charted ps T w frame m) {r : Except RuntimeProblem Value}
    (hr : ∀ v, r = .ok v → v.IsData) :
    Charts ps T w frame (fun w' v => v.In (w'.region ps)) (Computation.ofExcept r m) := by
  cases r with
  | ok v => exact .ret h (Value.in_of_isData (hr v rfl))
  | error p => exact .fail h p

theorem inFrame {f : FrameId} {c : Eval α} (hm : Charted ps T w frame m)
    (h : Charts ps T w f Q (c { m with current := f })) :
    Charts ps T w frame Q (Eval.inFrame f c m) := by
  unfold Eval.inFrame
  simp only [hm.current]
  revert h
  cases c { m with current := f } with
  | done a m =>
    rintro ⟨w', hle, h', hq⟩
    exact ⟨w', hle, h'.inFrame frame, hq⟩
  | failed e m =>
    rintro ⟨w', hle, h'⟩
    exact ⟨w', hle, h'.inFrame frame⟩
  | outOfFuel => exact id

end Charts

namespace Charted

variable (h : Charted ps T w frame m) {p : Point}
include h

/-! ## Variables -/

theorem found {v : Option Value} (p : RuntimeProblem)
    (hv : ∀ u, v = some u → u.In (w.region ps)) :
    Charts ps T w frame (fun w' v => v.In (w'.region ps)) (Eval.found v p m) := by
  cases v with
  | some u => exact ⟨w, .refl w, h, hv u rfl⟩
  | none => exact ⟨w, .refl w, h⟩

theorem lookUp (id : RefId) (name : String) :
    Charts ps T w frame (fun w' v => v.In (w'.region ps)) (Eval.lookUp id name m) := by
  unfold Eval.lookUp
  split
  · exact h.found _ fun u hu => h.values.getAt? trivial hu
  · exact h.found _ fun u hu => h.values.get? trivial hu

theorem readAt (f : FrameId) (d : Nat) (name : String) :
    Charts ps T w frame (fun w' v => v.In (w'.region ps)) (Eval.readAt f d name m) :=
  h.found _ fun _ hu => h.values.getAt? trivial hu

theorem currentFrame {Q : Chart → FrameId → Prop} (hq : Q w frame) :
    Charts ps T w frame Q (Eval.currentFrame m) := by
  refine ⟨w, .refl w, h, ?_⟩
  rw [h.current]
  exact hq

/-- A new frame inside of that of some code is for the scope of a body there. -/
theorem childFrame {e : FrameId} (hs : w.Stands e p) (hp : p.clauseOf = none)
    (params : List Token) (body : List Stmt) :
    Charts ps T w frame (fun w' f => w'.Stands f
      { p with scopes := .empty :: p.scopes, whole := (p.enter params body).whole })
      (Eval.childFrame e m) := by
  obtain ⟨chain, hchain, -⟩ := id hs
  have hinside := hs.inside ((p.enter params body).whole.headD .empty) hchain hp
  rw [h.size] at hinside
  exact ⟨_, w.le_addFrame _ chain, h.addFrame hchain _, hinside⟩

omit h in
/-- The scope in which a name is found will have it to the end. -/
theorem exists_of_distance? {name : String} {scopes whole : List Scope} {d : Nat}
    (hsub : Scope.AllSub scopes whole) (hd : Scope.distance? name scopes = some d) :
    ∃ s, whole[d]? = some s ∧ s.contains name = true := by
  induction hsub generalizing d with
  | nil => cases hd
  | @cons s s' _ _ hs _ ih =>
    unfold Scope.distance? at hd
    split at hd
    · cases hd
      exact ⟨s', rfl, hs name ‹_›⟩
    · obtain ⟨d, hd', rfl⟩ := Option.map_eq_some_iff.1 hd
      exact ih hd'

/-- An assignment goes to a frame whose scope has the name. -/
theorem assign (hs : w.Stands frame p) {t : Table} {scopes : List Scope} (ht : t.Le T)
    (hsub : Scope.AllSub scopes p.whole) {id : RefId} {name : String}
    (hid : t.Says id (Scope.distance? name scopes)) {v : Value} (hv : v.In (w.region ps)) :
    Charts ps T w frame (fun _ _ => True) (Eval.assign id name v m) := by
  have hlocals : m.locals.find? id = Scope.distance? name scopes := by
    rw [h.locals]
    exact (hid.mono ht).2
  unfold Eval.assign
  rw [hlocals, h.current]
  cases hd : Scope.distance? name scopes with
  | some d =>
    obtain ⟨chain, hchain, hwhole, -⟩ := hs
    obtain ⟨s, hsome, hcontains⟩ := exists_of_distance? hsub hd
    rw [← hwhole, List.getElem?_map] at hsome
    obtain ⟨l, hl, rfl⟩ := Option.map_eq_some_iff.1 hsome
    have hlt : d < chain.length := (List.getElem?_eq_some_iff.1 hl).1
    obtain ⟨a, l', rest, ha, hrest, hl'⟩ := h.exists_ancestor hchain hlt
    obtain rfl : l = l' := Option.some.inj (hl.symm.trans hl')
    simp only [ha, Eval.writeTo]
    have hle := w.le_bind a name
    refine ⟨w.bind a name, hle, h.define hrest ?_ (.mono hle hv), trivial⟩
    rintro _ _ ⟨⟩
    exact hcontains
  | none =>
    -- The globals have no scope, so every name may be assigned there.
    simp only
    cases ho : m.store.owner? m.globals name with
    | none => exact ⟨w, .refl w, h⟩
    | some o =>
      obtain rfl := h.eq_globals_of_owner? ho
      have hle := w.le_bind m.globals name
      refine ⟨_, hle, h.define h.globals ?_ (.mono hle hv), trivial⟩
      rintro _ _ ⟨⟩

/-- A declared name is bound in the frame of its scope. -/
theorem declare {f : FrameId} (hs : w.Stands f p) (name : Token)
    (hsub : Scope.AllSub (Scope.declare p.scopes name) p.whole) {v : Value}
    (hv : v.In ((w.bind f name.lexeme).region ps)) :
    Charted ps T (w.bind f name.lexeme) frame
      { m with store := m.store.define f name.lexeme v } := by
  obtain ⟨chain, hchain, hwhole, -⟩ := hs
  refine h.define hchain ?_ hv
  rintro l rest rfl
  rw [← hwhole, List.map_cons, Scope.declare_eq_enter] at hsub
  cases hscopes : p.scopes with
  | nil =>
    rw [hscopes] at hsub
    cases hsub
  | cons s outer =>
    rw [hscopes] at hsub
    cases hsub with
    | cons hl _ =>
      refine hl name.lexeme ?_
      rw [Bindings.contains_insert]
      simp

omit h in
/-- Parameters get their arguments. -/
theorem defineAll {f : FrameId} : ∀ {params : List Token} {args : List Value} {w : Chart}
    {p : Point} {m : Machine}, Charted ps T w frame m → w.Stands f p →
    Scope.AllSub (declareAll p.scopes params).1 p.whole → (∀ v ∈ args, v.In (w.region ps)) →
    args.length = params.length →
    Charts ps T w frame
      (fun w' _ => w'.Stands f { p with scopes := (declareAll p.scopes params).1 })
      (Eval.defineAll f params args m)
  | [], _, w, _, _, h, hs, _, _, _ => ⟨w, .refl w, h, hs⟩
  | q :: params, [], _, _, _, _, _, _, _, hlen => nomatch hlen
  | q :: params, v :: vs, w, p, m, h, hs, hsub, hargs, hlen => by
    have hq : Scope.AllSub (Scope.declare p.scopes q) p.whole :=
      (extends_declareAll params (Scope.declare p.scopes q)).allSub hsub
    have hle := w.le_bind f q.lexeme
    have hv := hargs v List.mem_cons_self
    have h' := h.declare hs q hq (.mono hle hv)
    have hrest := defineAll h' (hs.declare q) hsub
      (fun u hu => .mono hle (hargs u (List.mem_cons_of_mem v hu))) (Nat.succ.inj hlen)
    exact hrest.after hle

/-! ## Methods and instances -/

theorem bindMethod {f : Closure} (hf : f.StandsUnbound ps w) {receiver : Value}
    (hr : receiver.In (w.region ps)) :
    Charts ps T w frame (fun w' g => g.Stands ps w' ∧ g.decl = f.decl)
      (Eval.bindMethod f receiver m) := by
  obtain ⟨q, hq, hs⟩ := hf
  obtain ⟨chain, hchain, -⟩ := id hs
  have hnone : q.clauseOf = none := (hq.fits h.known).2.2
  have hle := (w.le_addFrame thisScope chain).trans (Chart.le_bind _ w.chains.length "this")
  have h' := (h.addFrame hchain thisScope).define (w.chain_addFrame thisScope chain)
    (x := "this") (by rintro _ _ ⟨⟩; exact Scope.contains_singleton "this" "this" true)
    (.mono hle hr)
  refine ⟨_, hle, ?_, ⟨q.wrap thisScope, hq, ?_⟩, rfl⟩
  · rw [h.size] at h' ⊢
    exact h'
  · show Chart.Stands _ m.store.frames.size _
    rw [← h.size]
    exact hs.wrap "this" hchain hnone

theorem newObject {c : Class} (hc : c.In (w.region ps)) :
    Charts ps T w frame (fun w' v => v.In (w'.region ps)) (Eval.newObject c m) :=
  ⟨w, .refl w, h.addObject, hc, trivial⟩

theorem assignField (o : ObjectId) (name : String) {v : Value} (hv : v.In (w.region ps)) :
    Charts ps T w frame (fun _ _ => True) (Eval.setField o name v m) :=
  ⟨w, .refl w, h.setField o name hv, trivial⟩

theorem property {c : Class} (hc : c.In (w.region ps)) (o : ObjectId) (name : String) :
    Charts ps T w frame (fun w' v => v.In (w'.region ps)) (Eval.property c o name m) := by
  unfold Eval.property
  have hfield : Charts ps T w frame
      (fun w' v => c.In (w'.region ps) ∧ ∀ u, v = some u → u.In (w'.region ps))
      (Eval.field? o name m) :=
    ⟨w, .refl w, h, hc, fun u hu => h.values.field o name u trivial hu⟩
  refine hfield.bind fun w₁ v m₁ _ h₁ hv => ?_
  cases v with
  | some u => exact .ret h₁ (hv.2 u rfl)
  | none =>
    cases hf : c.findMethod? name with
    | none => exact .fail h₁ _
    | some f =>
      have hobject : (Value.object c o).In (w₁.region ps) := ⟨hv.1, trivial⟩
      refine (h₁.bindMethod (hv.1.findMethod? hf) hobject).bind fun w₂ g m₂ _ h₂ hg => ?_
      exact .ret h₂ hg.1

theorem superMethod (id : RefId) (method : String) :
    Charts ps T w frame (fun w' v => v.In (w'.region ps)) (Eval.superMethod id method m) := by
  unfold Eval.superMethod
  have hdistance : Charts ps T w frame (fun _ _ => True) (Eval.distanceOf? id m) :=
    ⟨w, .refl w, h, trivial⟩
  refine hdistance.bind fun w₁ d m₁ _ h₁ _ => ?_
  cases d with
  | none => exact .fail h₁ _
  | some d =>
    refine (h₁.currentFrame (Q := fun _ _ => True) trivial).bind fun w₂ here m₂ _ h₂ _ => ?_
    refine (h₂.readAt here d "super").bind fun w₃ superclass m₃ _ h₃ hs => ?_
    refine (h₃.readAt here (d - 1) "this").bind fun w₄ receiver m₄ hle h₄ ht => ?_
    cases superclass with
    | cls c =>
      cases receiver with
      | object c' o =>
        dsimp only
        cases hf : c.findMethod? method with
        | none => exact .fail h₄ _
        | some f =>
          have hc : c.In (w₄.region ps) := Value.In.mono (v := .cls c) hle hs
          exact (h₄.bindMethod (hc.findMethod? hf) ht).bind fun w₅ g m₅ _ h₅ hg => .ret h₅ hg.1
      | _ => exact .fail h₄ _
    | _ => exact .fail h₄ _

/-! ## Classes -/

omit h in
/-- The methods of a class stand in the frame around them. -/
theorem in_methodTable {env : FrameId} {name : Token} {superclass : Option Expr}
    {ms : List FunctionDecl} (hv : Visits ps (.stmt (.cls name superclass ms)) p)
    (hs : w.Stands env (p.aroundThis name .method superclass)) {n : String} {f : Closure}
    (hf : (Eval.methodTable env ms).find? n = some f) : f.StandsUnbound ps w := by
  obtain ⟨d, hd, rfl⟩ := exists_of_find?_methodTable hf
  refine ⟨p.aroundThis name (methodContext d) superclass, hv.part (.method hd), ?_⟩
  cases superclass with
  | none => exact hs
  | some e => exact hs

theorem declareClass_base {name : Token} {ms : List FunctionDecl}
    (hv : Visits ps (.stmt (.cls name none ms)) p) (hs : w.Stands frame p) :
    Charts ps T w frame (fun w' _ => w'.Stands frame (p.declare name))
      (Eval.declareClass name.lexeme none ms m) := by
  obtain ⟨chain, hchain, -⟩ := id hs
  obtain rfl := h.current
  rw [Eval.declareClass_base _ _ (h.lt_of_chain hchain)]
  have hs' := hs.declare name
  refine ⟨_, w.le_bind m.current name.lexeme, h.declare hs name (hv.fits h.known).2.1 ?_, hs'⟩
  exact fun n f hf => in_methodTable hv hs' hf

theorem declareClass_derived {name : Token} {e : Expr} {ms : List FunctionDecl} {c : Class}
    (hv : Visits ps (.stmt (.cls name (some e) ms)) p) (hs : w.Stands frame p)
    (hc : c.In (w.region ps)) :
    Charts ps T w frame (fun w' _ => w'.Stands frame (p.declare name))
      (Eval.declareClass name.lexeme (some c) ms m) := by
  obtain ⟨chain, hchain, -⟩ := id hs
  obtain rfl := h.current
  obtain ⟨-, hsub, hnone⟩ := hv.fits h.known
  rw [Eval.declareClass_derived _ _ _ (h.lt_of_chain hchain)]
  have hle₁ := (w.le_addFrame superScope chain).trans (Chart.le_bind _ w.chains.length "super")
  have h₁ := (h.addFrame hchain superScope).define (w.chain_addFrame superScope chain)
    (x := "super") (v := .cls c)
    (by rintro _ _ ⟨⟩; exact Scope.contains_singleton "super" "super" true)
    (Value.In.mono (v := .cls c) hle₁ hc)
  have hle₂ := hle₁.trans (Chart.le_bind _ m.current name.lexeme)
  -- The class is bound when its methods are called, so the order of the two names does not matter.
  have horder : (((w.bind m.current name.lexeme).addFrame superScope chain).bind w.chains.length
      "super").Le (((w.addFrame superScope chain).bind w.chains.length "super").bind m.current
      name.lexeme) :=
    ⟨List.prefix_rfl, fun _ _ => or_left_comm.1⟩
  have hmethods := (Chart.Stands.wrap (w := w.bind m.current name.lexeme) "super" hchain
    (hs.declare name) hnone).mono horder
  refine ⟨_, hle₂, ?_, (hs.mono hle₁).declare name⟩
  rw [← h.size]
  refine h₁.declare (hs.mono hle₁) name hsub ⟨?_, fun n f hf => in_methodTable hv hmethods hf⟩
  exact Value.In.mono (v := .cls c) hle₂ hc

theorem native (f : Native) (args : List Value) :
    Charts ps T w frame (fun w' v => v.In (w'.region ps)) (Eval.onWorld (f.run args) m) := by
  unfold Eval.onWorld
  cases hrun : f.run args m.toWorld with
  | done v o => exact ⟨w, .refl w, h.inWorld o, Value.in_of_isData (isData_of_native hrun)⟩
  | failed e o => exact ⟨w, .refl w, h.inWorld o⟩
  | outOfFuel => trivial

end Charted

end Lox
