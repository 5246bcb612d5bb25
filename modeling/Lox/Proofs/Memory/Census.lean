import Mathlib
import Lox.Proofs.Activity.Rules
import Lox.Proofs.Receiver.Bound

/-!
# Lox.Proofs.Memory.Census

Parts of memory that evaluations stay inside of. A region is closed on a machine if nothing in it leads
out of it; so an evaluation that starts with values of the region finds values of the region only, and
writes nowhere else. What makes a function or a method one of the region is left to whoever counts them
(`Census`).
-/

namespace Lox

/-- A part of memory, with the functions and methods that its values may consist of. -/
structure Region where
  frame : FrameId → Prop
  object : ObjectId → Prop
  function : Closure → Prop
  method : Closure → Prop

/-- All methods of the class are of the region, its superclasses included. -/
def Class.In (r : Region) : Class → Prop
  | .base _ methods => ∀ name f, methods.find? name = some f → r.method f
  | .derived _ c methods => c.In r ∧ ∀ name f, methods.find? name = some f → r.method f

/-- All that the value refers to is in the region. -/
def Value.In (r : Region) : Value → Prop
  | .function f => r.function f
  | .cls c => c.In r
  | .object c o => c.In r ∧ r.object o
  | _ => True

/-- Nothing in the region leads out of it, and what there is not yet is in the region. -/
structure Store.ClosedIn (r : Region) (s : Store) : Prop where
  enclosing : ∀ f e, r.frame f → s.enclosing? f = some e → r.frame e
  bound : ∀ f name v, r.frame f → s.local? f name = some v → v.In r
  field : ∀ o name v, r.object o → s.field? o name = some v → v.In r
  newFrame : ∀ f, s.frames.size ≤ f → r.frame f
  newObject : ∀ o, s.objects.size ≤ o → r.object o

/-- The second memory is as the first outside of the region. -/
structure Store.SameOutside (r : Region) (s s' : Store) : Prop where
  frame : ∀ f, ¬ r.frame f → s'.frames[f]? = s.frames[f]?
  object : ∀ o, ¬ r.object o → s'.objects[o]? = s.objects[o]?

variable {r : Region} {α β : Type}

theorem Class.In.findMethod? {c : Class} (h : c.In r) {name : String} {f : Closure}
    (hf : c.findMethod? name = some f) : r.method f := by
  induction c with
  | base _ methods => exact h name f hf
  | derived _ c methods ih =>
    unfold Class.findMethod? at hf
    split at hf
    · cases hf
      exact h.2 name f ‹_›
    · exact ih h.1 hf

theorem Value.in_of_isData {v : Value} (h : v.IsData) : v.In r := by
  cases v with
  | nil | bool | number | string => trivial
  | _ => exact h.elim

namespace Store

variable {s s' s'' : Store}

theorem SameOutside.refl (s : Store) : SameOutside r s s := ⟨fun _ _ => rfl, fun _ _ => rfl⟩

theorem SameOutside.trans (h : SameOutside r s s') (h' : SameOutside r s' s'') :
    SameOutside r s s'' :=
  ⟨fun f hf => (h'.frame f hf).trans (h.frame f hf),
    fun o ho => (h'.object o ho).trans (h.object o ho)⟩

/-! ## What steps do to a closed region -/

theorem SameOutside.define (s : Store) {f : FrameId} (hf : r.frame f) (name : String) (v : Value) :
    SameOutside r s (s.define f name v) := by
  refine ⟨fun g hg => ?_, fun _ _ => rfl⟩
  have hne : f ≠ g := fun h => hg (h ▸ hf)
  simp [Store.define, Array.getElem?_modify, hne]

theorem ClosedIn.define (h : s.ClosedIn r) (f : FrameId) (name : String) {v : Value}
    (hv : v.In r) : (s.define f name v).ClosedIn r where
  enclosing g e hg he := h.enclosing g e hg (by rwa [enclosing?_define] at he)
  bound g n u hg hu := by
    by_cases hfg : f = g
    · subst hfg
      by_cases hlt : f < s.frames.size
      · rw [local?_define _ _ hlt] at hu
        split at hu
        · cases hu
          exact hv
        · exact h.bound f n u hg hu
      · rw [Store.local?, Array.getElem?_eq_none] at hu
        · cases hu
        · rw [size_frames_define]
          exact Nat.le_of_not_lt hlt
    · rw [local?_define_of_ne _ hfg] at hu
      exact h.bound g n u hg hu
  field := h.field
  newFrame g hg := h.newFrame g (by rwa [size_frames_define] at hg)
  newObject := h.newObject

theorem SameOutside.addFrame (h : s.ClosedIn r) (e : Option FrameId) :
    SameOutside r s (s.addFrame e).2 := by
  refine ⟨fun f hf => ?_, fun _ _ => rfl⟩
  have hlt : f < s.frames.size := Nat.lt_of_not_le fun hle => hf (h.newFrame f hle)
  simp [Store.addFrame, Array.getElem?_push, Nat.ne_of_lt hlt]

theorem ClosedIn.addFrame (h : s.ClosedIn r) {e : FrameId} (he : r.frame e) :
    (s.addFrame (some e)).2.ClosedIn r where
  enclosing g e' hg he' := by
    rw [enclosing?_addFrame] at he'
    split at he'
    · cases he'
      exact he
    · exact h.enclosing g e' hg he'
  bound g n u hg hu := h.bound g n u hg (by rwa [local?_addFrame] at hu)
  field := h.field
  newFrame g hg := by
    rw [Store.addFrame, Array.size_push] at hg
    exact h.newFrame g (Nat.le_of_succ_le hg)
  newObject := h.newObject

theorem SameOutside.setField (s : Store) {o : ObjectId} (ho : r.object o) (name : String)
    (v : Value) : SameOutside r s (s.setField o name v) := by
  refine ⟨fun _ _ => rfl, fun o' ho' => ?_⟩
  have hne : o ≠ o' := fun h => ho' (h ▸ ho)
  simp [Store.setField, Array.getElem?_modify, hne]

theorem field?_setField (s : Store) (o o' : ObjectId) (name n : String) (v u : Value)
    (h : (s.setField o name v).field? o' n = some u) : u = v ∨ s.field? o' n = some u := by
  simp only [field?, setField, Array.getElem?_modify] at h ⊢
  by_cases ho : o = o'
  · subst ho
    cases hs : s.objects[o]? with
    | none => simp [hs] at h
    | some fields =>
      simp only [hs, if_true, Option.map_some, Bindings.find?_insert] at h
      split at h
      · exact .inl (Option.some.inj h).symm
      · exact .inr h
  · simp only [ho, if_false] at h
    exact .inr h

theorem ClosedIn.setField (h : s.ClosedIn r) (o : ObjectId) (name : String) {v : Value}
    (hv : v.In r) : (s.setField o name v).ClosedIn r where
  enclosing := h.enclosing
  bound := h.bound
  field o' n u ho' hu := by
    obtain rfl | hu := field?_setField s o o' name n v u hu
    · exact hv
    · exact h.field o' n u ho' hu
  newFrame := h.newFrame
  newObject o' ho' := h.newObject o' (by simpa [Store.setField] using ho')

theorem SameOutside.addObject (h : s.ClosedIn r) : SameOutside r s s.addObject.2 := by
  refine ⟨fun _ _ => rfl, fun o ho => ?_⟩
  have hlt : o < s.objects.size := Nat.lt_of_not_le fun hle => ho (h.newObject o hle)
  simp [Store.addObject, Array.getElem?_push, Nat.ne_of_lt hlt]

theorem ClosedIn.addObject (h : s.ClosedIn r) : s.addObject.2.ClosedIn r where
  enclosing := h.enclosing
  bound := h.bound
  field o n u ho hu := by
    refine h.field o n u ho ?_
    simp only [field?, Store.addObject, Array.getElem?_push] at hu
    by_cases hnew : o = s.objects.size
    · rw [if_pos hnew] at hu
      cases hu
    · rwa [if_neg hnew] at hu
  newFrame := h.newFrame
  newObject o ho := by
    rw [Store.addObject, Array.size_push] at ho
    exact h.newObject o (Nat.le_of_succ_le ho)

/-! ## What is found in a closed region -/

theorem ClosedIn.ancestor? (h : s.ClosedIn r) : ∀ {d : Nat} {f a : FrameId}, r.frame f →
    s.ancestor? d f = some a → r.frame a
  | 0, f, a, hf, ha => by
    cases ha
    exact hf
  | d + 1, f, a, hf, ha => by
    unfold Store.ancestor? at ha
    split at ha
    · exact h.ancestor? (h.enclosing f _ hf ‹_›) ha
    · cases ha

theorem ClosedIn.ownerWithin (h : s.ClosedIn r) (name : String) : ∀ {n : Nat} {f a : FrameId},
    r.frame f → s.ownerWithin name n f = some a → r.frame a
  | 0, _, _, _, ha => nomatch ha
  | n + 1, f, a, hf, ha => by
    unfold Store.ownerWithin at ha
    split at ha
    · cases ha
      exact hf
    · split at ha
      · exact h.ownerWithin name (h.enclosing f _ hf ‹_›) ha
      · cases ha

theorem ClosedIn.getAt? (h : s.ClosedIn r) {d : Nat} {f : FrameId} {name : String} {v : Value}
    (hf : r.frame f) (hv : s.getAt? f d name = some v) : v.In r := by
  unfold Store.getAt? at hv
  split at hv
  · exact h.bound _ name v (h.ancestor? hf ‹_›) hv
  · cases hv

theorem ClosedIn.get? (h : s.ClosedIn r) {f : FrameId} {name : String} {v : Value}
    (hf : r.frame f) (hv : s.get? f name = some v) : v.In r := by
  unfold Store.get? at hv
  split at hv
  · exact h.bound _ name v (h.ownerWithin name hf ‹_›) hv
  · cases hv

end Store

/-! ## Computations -/

/-- The region is closed on the machine, with the variables that all code can see in it. -/
structure Machine.ClosedIn (r : Region) (m : Machine) : Prop where
  store : m.store.ClosedIn r
  globals : r.frame m.globals

/-- What a computation may do to a machine on which the region is closed. -/
structure Machine.Inside (r : Region) (m m' : Machine) : Prop where
  closed : m'.ClosedIn r
  outside : m.store.SameOutside r m'.store
  current : m'.current = m.current

namespace Machine

variable {m m' m'' : Machine}

theorem Inside.refl (h : m.ClosedIn r) : m.Inside r m := ⟨h, .refl _, rfl⟩

theorem Inside.trans (h : m.Inside r m') (h' : m'.Inside r m'') : m.Inside r m'' :=
  ⟨h'.closed, h.outside.trans h'.outside, h'.current.trans h.current⟩

theorem ClosedIn.with_store (h : m.ClosedIn r) {s : Store} (hs : s.ClosedIn r)
    (hout : m.store.SameOutside r s) : m.Inside r { m with store := s } :=
  ⟨⟨hs, h.globals⟩, hout, rfl⟩

end Machine

namespace Eval

/-- On a machine on which the region is closed, the computation stays in the region, however it ends,
and of what it gives `Q` holds. -/
def Within (r : Region) (Q : α → Prop) (x : Eval α) (m : Machine) : Prop :=
  m.ClosedIn r → (∀ m', (x m).state? = some m' → m.Inside r m') ∧ ∀ v m', x m = .done v m' → Q v

namespace Within

variable {Q : α → Prop} {R : β → Prop} {x : Eval α} {f : α → Eval β} {m m' : Machine}

theorem of_done {v : α} (hd : x m = .done v m') (hm : m.ClosedIn r → m.Inside r m')
    (hv : m.ClosedIn r → Q v) : Within r Q x m := by
  refine fun h => ⟨fun m'' hm'' => ?_, fun u m'' hu => ?_⟩
  · rw [hd] at hm''
    cases hm''
    exact hm h
  · rw [hd] at hu
    cases hu
    exact hv h

theorem ret {v : α} (hv : Q v) : Within r Q (pure v) m := .of_done rfl .refl fun _ => hv

theorem fail (p : RuntimeProblem) : Within r Q (Computation.fail p : Eval α) m :=
  fun h => ⟨fun _ hm' => by cases hm'; exact .refl h, fun _ _ hd => nomatch hd⟩

theorem exhausted : Within r Q (Computation.exhausted : Eval α) m :=
  fun _ => ⟨fun _ hm' => (nomatch hm'), fun _ _ hd => nomatch hd⟩

theorem bind (hx : Within r Q x m)
    (hf : ∀ v m', x m = .done v m' → m'.current = m.current → Q v → Within r R (f v) m') :
    Within r R (x >>= f) m := by
  intro h
  obtain ⟨hinside, hQ⟩ := hx h
  have hrest {v : α} {m' : Machine} (hd : x m = .done v m') :
      m.Inside r m' ∧ Within r R (f v) m' := by
    have hm' := hinside m' (by rw [hd]; rfl)
    exact ⟨hm', hf v m' hd hm'.current (hQ v m' hd)⟩
  refine ⟨fun m'' hm'' => ?_, fun u m'' hd => ?_⟩
  · rw [Computation.bind_apply] at hm''
    cases ho : x m with
    | done v m' =>
      rw [ho] at hm''
      obtain ⟨hm', hf⟩ := hrest ho
      exact hm'.trans ((hf hm'.closed).1 m'' hm'')
    | failed e m' =>
      rw [ho] at hm''
      exact hinside m'' (by rw [ho]; exact hm'')
    | outOfFuel =>
      rw [ho] at hm''
      cases hm''
  · obtain ⟨v, m', hv, hu⟩ := Computation.exists_of_bind hd
    obtain ⟨hm', hf⟩ := hrest hv
    exact (hf hm'.closed).2 u m'' hu

theorem inFrame {frame : FrameId} (hx : Within r Q x { m with current := frame }) :
    Within r Q (inFrame frame x) m := by
  intro h
  obtain ⟨hinside, hQ⟩ := hx ⟨h.store, h.globals⟩
  refine ⟨fun m' hm' => ?_, fun v m' hd => ?_⟩
  · unfold Eval.inFrame at hm'
    cases ho : x { m with current := frame } with
    | done v m₁ =>
      simp only [ho] at hm'
      cases hm'
      have hi := hinside m₁ (by rw [ho]; rfl)
      exact ⟨⟨hi.closed.store, hi.closed.globals⟩, hi.outside, rfl⟩
    | failed e m₁ =>
      simp only [ho] at hm'
      cases hm'
      have hi := hinside m₁ (by rw [ho]; rfl)
      exact ⟨⟨hi.closed.store, hi.closed.globals⟩, hi.outside, rfl⟩
    | outOfFuel =>
      simp only [ho] at hm'
      cases hm'
  · unfold Eval.inFrame at hd
    cases ho : x { m with current := frame } with
    | done u m₁ =>
      simp only [ho] at hd
      cases hd
      exact hQ v m₁ ho
    | failed e m₁ =>
      simp only [ho] at hd
      cases hd
    | outOfFuel =>
      simp only [ho] at hd
      cases hd

end Within

/-! ## Steps -/

variable {m : Machine}

theorem within_currentFrame (hc : r.frame m.current) : Within r r.frame currentFrame m :=
  .of_done rfl .refl fun _ => hc

theorem within_childFrame {e : FrameId} (he : r.frame e) : Within r r.frame (childFrame e) m :=
  .of_done rfl (fun h => h.with_store (h.store.addFrame he) (.addFrame h.store _))
    fun h => h.store.newFrame _ (Nat.le_refl _)

theorem within_defineIn {f : FrameId} (hf : r.frame f) (name : String) {v : Value} (hv : v.In r) :
    Within r (fun _ => True) (defineIn f name v) m :=
  .of_done rfl (fun h => h.with_store (h.store.define f name hv) (.define _ hf name v))
    fun _ => trivial

theorem within_define (hc : r.frame m.current) (name : String) {v : Value} (hv : v.In r) :
    Within r (fun _ => True) (define name v) m :=
  within_defineIn hc name hv

theorem within_defineAll {f : FrameId} (hf : r.frame f) (params : List Token)
    {args : List Value} (hargs : ∀ v ∈ args, v.In r) :
    Within r (fun _ => True) (defineAll f params args) m := by
  induction params generalizing args m with
  | nil => exact .ret trivial
  | cons p ps ih =>
    cases args with
    | nil => exact .ret trivial
    | cons v vs =>
      rw [defineAll]
      refine .bind (within_defineIn hf p.lexeme (hargs v List.mem_cons_self)) fun _ _ _ _ _ => ?_
      exact ih fun u hu => hargs u (List.mem_cons_of_mem v hu)

theorem within_found {v : Option Value} (p : RuntimeProblem)
    (hv : m.ClosedIn r → ∀ u, v = some u → u.In r) : Within r (Value.In r) (found v p) m := by
  cases v with
  | none => exact .fail p
  | some u => exact .of_done rfl .refl fun h => hv h u rfl

theorem within_lookUp (hc : r.frame m.current) (id : RefId) (name : String) :
    Within r (Value.In r) (lookUp id name) m := by
  cases hd : m.locals.find? id with
  | some d =>
    have h : Within r (Value.In r) (found (m.store.getAt? m.current d name) (.unboundLocal name)) m :=
      within_found _ fun h _ hv => h.store.getAt? hc hv
    simpa only [Within, lookUp, hd] using h
  | none =>
    have h : Within r (Value.In r) (found (m.store.get? m.globals name) (.undefinedVariable name))
        m := within_found _ fun h _ hv => h.store.get? h.globals hv
    simpa only [Within, lookUp, hd] using h

theorem within_readAt {f : FrameId} (hf : r.frame f) (d : Nat) (name : String) :
    Within r (Value.In r) (readAt f d name) m :=
  within_found _ fun h _ hv => h.store.getAt? hf hv

theorem within_writeTo {target : Option FrameId} (name : String) {v : Value} (p : RuntimeProblem)
    (hv : v.In r) (ht : m.ClosedIn r → ∀ f, target = some f → r.frame f) :
    Within r (fun _ => True) (writeTo target name v p) m := by
  cases target with
  | none => exact .fail p
  | some f => exact fun h => within_defineIn (ht h f rfl) name hv h

theorem within_assign (hc : r.frame m.current) (id : RefId) (name : String) {v : Value}
    (hv : v.In r) : Within r (fun _ => True) (assign id name v) m := by
  cases hd : m.locals.find? id with
  | some d =>
    have h : Within r (fun _ => True)
        (writeTo (m.store.ancestor? d m.current) name v (.unboundLocal name)) m :=
      within_writeTo name _ hv fun h _ hf => h.store.ancestor? hc hf
    simpa only [Within, assign, hd] using h
  | none =>
    have h : Within r (fun _ => True)
        (writeTo (m.store.owner? m.globals name) name v (.undefinedVariable name)) m :=
      within_writeTo name _ hv fun h _ hf => h.store.ownerWithin name h.globals hf
    simpa only [Within, assign, hd] using h

theorem within_assignOutward (hc : r.frame m.current) (name : String) {v : Value} (hv : v.In r) :
    Within r (fun _ => True) (assignOutward name v) m :=
  within_writeTo name _ hv fun h _ hf => h.store.ownerWithin name hc hf

theorem within_distanceOf? (id : RefId) : Within r (fun _ => True) (distanceOf? id) m :=
  .of_done rfl .refl fun _ => trivial

theorem within_newObject {c : Class} (hc : c.In r) : Within r (Value.In r) (newObject c) m :=
  .of_done rfl (fun h => h.with_store h.store.addObject (.addObject h.store))
    fun h => ⟨hc, h.store.newObject _ (Nat.le_refl _)⟩

theorem within_field? {o : ObjectId} (ho : r.object o) (name : String) :
    Within r (fun v => ∀ u, v = some u → u.In r) (field? o name) m :=
  .of_done rfl .refl fun h u hu => h.store.field o name u ho hu

theorem within_setField {o : ObjectId} (ho : r.object o) (name : String) {v : Value}
    (hv : v.In r) : Within r (fun _ => True) (setField o name v) m :=
  .of_done rfl (fun h => h.with_store (h.store.setField o name hv) (.setField _ ho name v))
    fun _ => trivial

/-- The bound method is the method, but for a frame of its own. -/
theorem within_bindMethod {f : Closure} (hf : r.frame f.env) {receiver : Value}
    (hr : receiver.In r) :
    Within r (fun bound => r.frame bound.env ∧ f = { bound with env := f.env })
      (bindMethod f receiver) m := by
  unfold bindMethod
  refine .bind (within_childFrame hf) fun frame _ _ _ hframe => ?_
  exact .bind (within_defineIn hframe "this" hr) fun _ _ _ _ _ => .ret ⟨hframe, rfl⟩

theorem within_onWorld {Q : α → Prop} (x : Computation World α)
    (hx : ∀ v w, x m.toWorld = .done v w → Q v) : Within r Q (onWorld x) m := by
  refine fun h => ⟨fun m' hm' => ?_, fun v m' hd => ?_⟩
  · unfold onWorld at hm'
    split at hm' <;> cases hm'
    · exact ⟨⟨h.store, h.globals⟩, .refl _, rfl⟩
    · exact ⟨⟨h.store, h.globals⟩, .refl _, rfl⟩
  · unfold onWorld at hd
    split at hd <;> cases hd
    exact hx v _ ‹_›

end Eval

theorem getAt?_of_readAt {m m' : Machine} {f : FrameId} {d : Nat} {name : String} {v : Value}
    (h : Eval.readAt f d name m = .done v m') : m.store.getAt? f d name = some v ∧ m = m' := by
  unfold Eval.readAt Eval.found at h
  split at h
  · cases h
    exact ⟨‹_›, rfl⟩
  · cases h

theorem isData_of_native {f : Native} {args : List Value} {w w' : World} {v : Value}
    (h : f.run args w = .done v w') : v.IsData := by
  cases f with
  | clock => cases h; trivial
  | str => cases h; trivial
  | print =>
    obtain ⟨_, _, _, hd⟩ := Computation.exists_of_bind h
    cases hd
    trivial

/-! ## Functions and methods -/

/-- The frame around the methods of a class that is declared on the machine. -/
def Machine.classFrame (m : Machine) : Option Class → FrameId
  | none => m.current
  | some _ => m.store.frames.size

/-- What makes functions and methods those of a region: they are made in it by activities of which `P`
holds. A method is bound by giving it a frame of its own. -/
structure Census (P : Activity → Machine → Prop) (r : Region) : Prop where
  enters {a m a' m'} : Enters a m a' m' → P a m → P a' m'
  env {f} : r.function f → r.frame f.env
  methodEnv {f} : r.method f → r.frame f.env
  function {n decl m} : P (.execute (n + 1) (.function decl)) m → r.frame m.current →
    r.function ⟨decl, m.current, false⟩
  method {name superclass ms m d} : P (.declareClass name superclass ms) m → d ∈ ms →
    r.frame (m.classFrame superclass) → r.method ⟨d, m.classFrame superclass, d.isInitializer⟩
  bound {a m receiver f e m'} : P a m → Binds a m receiver f m' → r.method { f with env := e } →
    r.frame f.env → r.function f

theorem exists_of_find?_methodTable {env : FrameId} {ms : List FunctionDecl} {name : String}
    {f : Closure} (h : (Eval.methodTable env ms).find? name = some f) :
    ∃ d ∈ ms, f = ⟨d, env, d.isInitializer⟩ := by
  have hfold (ms : List FunctionDecl) (table : Bindings Closure)
      (h : (ms.foldl (fun table d => table.insert d.name.lexeme ⟨d, env, d.isInitializer⟩)
        table).find? name = some f) :
      table.find? name = some f ∨ ∃ d ∈ ms, f = ⟨d, env, d.isInitializer⟩ := by
    induction ms generalizing table with
    | nil => exact .inl h
    | cons d ms ih =>
      obtain h | ⟨d', hd', hf⟩ := ih _ h
      · rw [Bindings.find?_insert] at h
        split at h
        · exact .inr ⟨d, List.mem_cons_self, (Option.some.inj h).symm⟩
        · exact .inl h
      · exact .inr ⟨d', List.mem_cons_of_mem d hd', hf⟩
  obtain h | h := hfold ms .empty h
  · cases h
  · exact h

namespace Census

open Eval

variable {P : Activity → Machine → Prop} (census : Census P r) {n : Nat} {m m' : Machine}
include census

theorem within_property {object : Expr} {name : Token} {c : Class} {o : ObjectId}
    (h : P (.evaluate (n + 1) (.get object name)) m)
    (hd : evaluate n object m = .done (.object c o) m') (hv : (Value.object c o).In r) :
    Within r (Value.In r) (property c o name.lexeme) m' := by
  unfold property
  cases hfield : m'.store.field? o name.lexeme with
  | some v =>
    refine .bind (within_field? hv.2 name.lexeme) fun u _ hu _ hin => ?_
    cases hu
    rw [hfield]
    exact .ret (hin v hfield)
  | none =>
    refine .bind (within_field? hv.2 name.lexeme) fun u _ hu _ _ => ?_
    cases hu
    rw [hfield]
    cases hf : c.findMethod? name.lexeme with
    | none => exact .fail _
    | some f =>
      have hmethod := hv.1.findMethod? hf
      refine .bind (within_bindMethod (census.methodEnv hmethod) hv) fun bound _ hb _ hbound => ?_
      obtain ⟨hframe, hsame⟩ := hbound
      exact .ret (census.bound h (.get hd hfield hf hb) (hsame ▸ hmethod) hframe)

theorem within_superMethod {id : RefId} {keyword method : Token}
    (h : P (.evaluate (n + 1) (.superRef id keyword method)) m) (hc : r.frame m.current) :
    Within r (Value.In r) (superMethod id method.lexeme) m := by
  unfold superMethod
  refine .bind (within_distanceOf? id) fun d _ hd _ _ => ?_
  cases hd
  cases hdistance : m.locals.find? id with
  | none => exact .fail _
  | some d =>
    refine .bind (within_currentFrame hc) fun frame _ hframe _ _ => ?_
    cases hframe
    refine .bind (within_readAt hc d "super") fun superclass _ hreadSuper _ hs => ?_
    obtain ⟨hsuper, rfl⟩ := getAt?_of_readAt hreadSuper
    refine .bind (within_readAt hc (d - 1) "this") fun receiver _ hreadThis _ ht => ?_
    obtain ⟨hthis, rfl⟩ := getAt?_of_readAt hreadThis
    cases superclass with
    | cls c =>
      cases receiver with
      | object c' o =>
        dsimp only
        cases hf : c.findMethod? method.lexeme with
        | none => exact .fail _
        | some f =>
          have hmethod := Class.In.findMethod? hs hf
          refine .bind (within_bindMethod (census.methodEnv hmethod) ht) fun f' _ hb _ hbound => ?_
          obtain ⟨hframe, hsame⟩ := hbound
          have hmethod' : r.method { f' with env := f.env } := hsame ▸ hmethod
          exact .ret (census.bound h (.super hdistance hsuper hthis hf hb) hmethod' hframe)
      | _ => exact .fail _
    | _ => exact .fail _

theorem within_declareClass {name : Token} {superclass : Option Class} {ms : List FunctionDecl}
    (h : P (.declareClass name superclass ms) m) (hc : r.frame m.current)
    (hs : ∀ c, superclass = some c → c.In r) :
    Within r (fun _ => True) (declareClass name.lexeme superclass ms) m := by
  have hmethods {env : FrameId} (henv : m.classFrame superclass = env) (hframe : r.frame env) :
      ∀ name f, (methodTable env ms).find? name = some f → r.method f := by
    intro name f hf
    obtain ⟨d, hd, rfl⟩ := exists_of_find?_methodTable hf
    subst henv
    exact census.method h hd hframe
  unfold declareClass
  refine .bind (within_define hc name.lexeme trivial) fun _ m₁ hdefine _ _ => ?_
  cases hdefine
  refine .bind (within_currentFrame hc) fun here _ hhere _ _ => ?_
  cases hhere
  cases superclass with
  | none =>
    have hin : (Value.cls (.base name.lexeme (methodTable m.current ms))).In r := hmethods rfl hc
    refine within_assignOutward ?_ _ hin
    exact hc
  | some c =>
    refine .bind (within_childFrame hc) fun frame _ hframe hcur hin => ?_
    refine .bind (within_defineIn hin "super" (hs c rfl)) fun _ _ _ hcur' _ => ?_
    refine within_assignOutward ?_ _ ⟨hs c rfl, hmethods ?_ hin⟩
    · rw [hcur', hcur]
      exact hc
    · cases hframe
      exact (Store.size_frames_define _ _ _ _).symm

theorem within_initializer {c : Class} {args : List Value} {object : Value} {init : Closure}
    (h : P (.call (n + 1) (.cls c) args) m) (hc : c.In r) (ho : newObject c m = .done object m')
    (hv : object.In r) (hi : c.findMethod? initializerName = some init) :
    Within r (fun f => (Value.function f).In r) (bindMethod init object) m' := by
  have hmethod := hc.findMethod? hi
  intro hclosed
  obtain ⟨hinside, hbound⟩ := within_bindMethod (census.methodEnv hmethod) hv hclosed
  refine ⟨hinside, fun bound m'' hb => ?_⟩
  obtain ⟨hframe, hsame⟩ := hbound bound m'' hb
  exact census.bound h (.construct ho hi hb) (hsame ▸ hmethod) hframe

theorem rules : Rules P (Value.In r) r.frame (Within r) where
  enters := census.enters
  data := Value.in_of_isData
  env := census.env
  ret := .ret
  fail := .fail
  exhausted := .exhausted
  bind := .bind
  inFrame _ hx := .inFrame hx
  currentFrame := within_currentFrame
  childFrame := within_childFrame
  lookUp id name hc := within_lookUp hc id name
  this he := within_readAt he 0 "this"
  assign _ hc hv := within_assign hc _ _ hv
  define _ hc hv := within_define hc _ hv
  function h hc := within_define hc _ (census.function h hc)
  native _ _ := within_onWorld _ fun _ _ hd =>
    Value.in_of_isData (isData_of_native hd)
  defineAll _ hargs he := within_defineAll he _ hargs
  declareClass h hc hs := census.within_declareClass h hc hs
  newObject := within_newObject
  initializer h hc ho hv hi := census.within_initializer h hc ho hv hi
  property h hd hv := census.within_property h hd hv
  superMethod h hc := census.within_superMethod h hc
  setField hv hu := within_setField hv.2 _ hu

end Census
end Lox
