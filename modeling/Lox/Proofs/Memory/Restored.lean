import Mathlib
import Lox.Proofs.Activity.Rules
import Lox.Proofs.Activity.Runs

/-!
# Lox.Proofs.Memory.Restored

Evaluations come back to the frame that they start in, whatever program, distances and memory there
are: a computation runs in another frame only by `inFrame`, which comes back however the computation
ends, and no step moves a frame into another one (`restored`). So a session is between its lines
where it has started, in the globals, also after a failure.
-/

namespace Lox

/-- The machine runs in the frame that it has run in before, with the same globals, and the frames
that there were have the same frames around them. -/
structure Machine.Restored (m m' : Machine) : Prop where
  current : m'.current = m.current
  globals : m'.globals = m.globals
  frames : m.store.frames.size ≤ m'.store.frames.size
  enclosing : ∀ f, f < m.store.frames.size → m'.store.enclosing? f = m.store.enclosing? f

namespace Machine.Restored

variable {m m' m'' : Machine}

theorem refl (m : Machine) : m.Restored m := ⟨rfl, rfl, Nat.le_refl _, fun _ _ => rfl⟩

theorem trans (h : m.Restored m') (h' : m'.Restored m'') : m.Restored m'' := by
  refine ⟨h'.current.trans h.current, h'.globals.trans h.globals, Nat.le_trans h.frames h'.frames,
    fun f hf => ?_⟩
  rw [h'.enclosing f (Nat.lt_of_lt_of_le hf h.frames), h.enclosing f hf]

theorem define (m : Machine) (f : FrameId) (name : String) (v : Value) :
    m.Restored { m with store := m.store.define f name v } :=
  ⟨rfl, rfl, Nat.le_of_eq (Store.size_frames_define _ _ _ _).symm,
    fun _ _ => Store.enclosing?_define _ _ _ _ _⟩

/-- A new frame is put into another one, but none of those that there are. -/
theorem addFrame (m : Machine) (e : Option FrameId) :
    m.Restored { m with store := (m.store.addFrame e).2 } := by
  refine ⟨rfl, rfl, ?_, fun f hf => ?_⟩
  · simp only [Store.addFrame, Array.size_push]
    exact Nat.le_succ _
  · simp only [Store.enclosing?_addFrame, if_neg (Nat.ne_of_lt hf)]

/-- What is done in another frame and then left. -/
theorem inFrame {f : FrameId} (h : Restored { m with current := f } m') :
    m.Restored { m' with current := m.current } :=
  ⟨rfl, h.globals, h.frames, h.enclosing⟩

end Machine.Restored

namespace Eval

variable {α β : Type}

/-- However the computation ends, it comes back to where it has started. -/
def Restores (x : Eval α) : Prop := ∀ m m', (x m).state? = some m' → m.Restored m'

namespace Restores

variable {x : Eval α} {f : α → Eval β}

theorem ret (a : α) : Restores (pure a) := fun m m' h => by
  cases h
  exact .refl m

theorem fail (p : RuntimeProblem) : Restores (Computation.fail p : Eval α) := fun m m' h => by
  cases h
  exact .refl m

theorem bind (hx : Restores x) (hf : ∀ a, Restores (f a)) : Restores (x >>= f) := by
  intro m m'' h
  have hfirst := hx m
  rw [Computation.bind_apply] at h
  cases ho : x m with
  | done a m' =>
    rw [ho] at h hfirst
    exact (hfirst m' rfl).trans (hf a m' m'' h)
  | failed e m' =>
    rw [ho] at h hfirst
    exact hfirst m'' h
  | outOfFuel =>
    rw [ho] at h
    cases h

/-- A computation that first looks at the machine. -/
theorem reading {ι : Type} (read : Machine → ι) {y : ι → Eval α} (hy : ∀ i, Restores (y i)) :
    Restores fun m => y (read m) m :=
  fun m => hy (read m) m

end Restores

/-! ## Steps -/

theorem restores_currentFrame : Restores currentFrame := .reading (·.current) .ret

theorem restores_distanceOf? (id : RefId) : Restores (distanceOf? id) :=
  .reading (·.locals.find? id) .ret

theorem restores_field? (o : ObjectId) (name : String) : Restores (field? o name) :=
  .reading (·.store.field? o name) .ret

theorem restores_childFrame (e : FrameId) : Restores (childFrame e) := fun m m' h => by
  cases h
  exact .addFrame m _

theorem restores_defineIn (f : FrameId) (name : String) (v : Value) :
    Restores (defineIn f name v) := fun m m' h => by
  cases h
  exact .define m f name v

theorem restores_define (name : String) (v : Value) : Restores (define name v) :=
  .reading (·.current) fun f => restores_defineIn f name v

theorem restores_newObject (c : Class) : Restores (newObject c) := fun m m' h => by
  cases h
  exact ⟨rfl, rfl, Nat.le_refl _, fun _ _ => rfl⟩

theorem restores_setField (o : ObjectId) (name : String) (v : Value) :
    Restores (setField o name v) := fun m m' h => by
  cases h
  exact ⟨rfl, rfl, Nat.le_refl _, fun _ _ => rfl⟩

theorem restores_onWorld (x : Computation World α) : Restores (onWorld x) := fun m m' h => by
  unfold onWorld at h
  split at h <;> cases h
  · exact ⟨rfl, rfl, Nat.le_refl _, fun _ _ => rfl⟩
  · exact ⟨rfl, rfl, Nat.le_refl _, fun _ _ => rfl⟩

theorem restores_found (v : Option Value) (p : RuntimeProblem) : Restores (found v p) := by
  cases v with
  | some v => exact .ret v
  | none => exact .fail p

theorem restores_readAt (f : FrameId) (d : Nat) (name : String) : Restores (readAt f d name) :=
  .reading (·.store.getAt? f d name) fun v => restores_found v _

theorem restores_writeTo (target : Option FrameId) (name : String) (v : Value)
    (p : RuntimeProblem) : Restores (writeTo target name v p) := by
  cases target with
  | some f => exact restores_defineIn f name v
  | none => exact .fail p

theorem restores_lookUp (id : RefId) (name : String) : Restores (lookUp id name) := by
  intro m m' h
  unfold lookUp at h
  split at h
  · exact restores_found _ _ m m' h
  · exact restores_found _ _ m m' h

theorem restores_assign (id : RefId) (name : String) (v : Value) :
    Restores (assign id name v) := by
  intro m m' h
  unfold assign at h
  split at h
  · exact restores_writeTo _ _ _ _ m m' h
  · exact restores_writeTo _ _ _ _ m m' h

theorem restores_assignOutward (name : String) (v : Value) : Restores (assignOutward name v) :=
  .reading (fun m => m.store.owner? m.current name) fun target => restores_writeTo target _ _ _

theorem restores_defineAll (f : FrameId) (params : List Token) (args : List Value) :
    Restores (defineAll f params args) := by
  induction params generalizing args with
  | nil => exact .ret ()
  | cons p ps ih =>
    cases args with
    | nil => exact .ret ()
    | cons v vs =>
      rw [defineAll]
      exact .bind (restores_defineIn f _ v) fun _ => ih vs

theorem restores_bindMethod (f : Closure) (receiver : Value) :
    Restores (bindMethod f receiver) := by
  unfold bindMethod
  exact .bind (restores_childFrame _) fun _ => .bind (restores_defineIn _ _ _) fun _ => .ret _

theorem restores_property (c : Class) (o : ObjectId) (name : String) :
    Restores (property c o name) := by
  unfold property
  refine .bind (restores_field? o name) fun v => ?_
  cases v with
  | some v => exact .ret v
  | none =>
    cases c.findMethod? name with
    | none => exact .fail _
    | some f => exact .bind (restores_bindMethod f _) fun _ => .ret _

theorem restores_superMethod (id : RefId) (name : String) : Restores (superMethod id name) := by
  unfold superMethod
  refine .bind (restores_distanceOf? id) fun d => ?_
  cases d with
  | none => exact .fail _
  | some d =>
    refine .bind restores_currentFrame fun frame => .bind (restores_readAt _ _ _) fun c =>
      .bind (restores_readAt _ _ _) fun receiver => ?_
    split
    · split
      · exact .bind (restores_bindMethod _ _) fun _ => .ret _
      · exact .fail _
    · exact .fail _

theorem restores_declareClass (name : String) (superclass : Option Class)
    (methods : List FunctionDecl) : Restores (declareClass name superclass methods) := by
  unfold declareClass
  refine .bind (restores_define _ _) fun _ => .bind restores_currentFrame fun here => ?_
  cases superclass with
  | none => exact restores_assignOutward _ _
  | some c =>
    exact .bind (restores_childFrame _) fun _ => .bind (restores_defineIn _ _ _) fun _ =>
      restores_assignOutward _ _

/-! ## Whole evaluations -/

/-- The computation comes back to where it starts on the machine, and `Q` holds of what it gives. -/
def RestoresTo (Q : α → Prop) (x : Eval α) (m : Machine) : Prop :=
  (∀ m', (x m).state? = some m' → m.Restored m') ∧ ∀ v m', x m = .done v m' → Q v

theorem Restores.restoresTo {x : Eval α} (h : Restores x) {m : Machine} :
    RestoresTo (fun _ => True) x m :=
  ⟨h m, fun _ _ _ => trivial⟩

namespace RestoresTo

variable {Q : α → Prop} {R : β → Prop} {x : Eval α} {f : α → Eval β} {m : Machine}

theorem bind (hx : RestoresTo Q x m)
    (hf : ∀ v m', x m = .done v m' → m'.current = m.current → Q v → RestoresTo R (f v) m') :
    RestoresTo R (x >>= f) m := by
  obtain ⟨hrestored, hQ⟩ := hx
  have hrest {v : α} {m' : Machine} (hd : x m = .done v m') :
      m.Restored m' ∧ RestoresTo R (f v) m' := by
    have hm' := hrestored m' (by rw [hd]; rfl)
    exact ⟨hm', hf v m' hd hm'.current (hQ v m' hd)⟩
  refine ⟨fun m'' hm'' => ?_, fun u m'' hd => ?_⟩
  · rw [Computation.bind_apply] at hm''
    cases ho : x m with
    | done v m' =>
      rw [ho] at hm''
      exact (hrest ho).1.trans ((hrest ho).2.1 m'' hm'')
    | failed e m' =>
      rw [ho] at hm''
      exact hrestored m'' (by rw [ho]; exact hm'')
    | outOfFuel =>
      rw [ho] at hm''
      cases hm''
  · obtain ⟨v, m', hv, hu⟩ := Computation.exists_of_bind hd
    exact (hrest hv).2.2 u m'' hu

/-- The frame that a computation is run in is left on each of its ends. -/
theorem inFrame {frame : FrameId} (hx : RestoresTo Q x { m with current := frame }) :
    RestoresTo Q (inFrame frame x) m := by
  obtain ⟨hrestored, hQ⟩ := hx
  refine ⟨fun m' hm' => ?_, fun v m' hd => ?_⟩
  · unfold Eval.inFrame at hm'
    cases ho : x { m with current := frame } with
    | done v m₁ =>
      simp only [ho] at hm'
      cases hm'
      exact (hrestored m₁ (by rw [ho]; rfl)).inFrame
    | failed e m₁ =>
      simp only [ho] at hm'
      cases hm'
      exact (hrestored m₁ (by rw [ho]; rfl)).inFrame
    | outOfFuel =>
      simp only [ho] at hm'
      cases hm'
  · unfold Eval.inFrame at hd
    cases ho : x { m with current := frame } with
    | done u m₁ =>
      simp only [ho] at hd
      cases hd
      exact hQ v m₁ ho
    | failed e m₁ =>
      simp only [ho] at hd
      cases hd
    | outOfFuel =>
      simp only [ho] at hd
      cases hd

end RestoresTo

theorem rules_restores :
    Rules (fun _ _ => True) (fun _ => True) (fun _ => True) RestoresTo where
  enters _ _ := trivial
  data _ := trivial
  env _ := trivial
  ret hv := ⟨Restores.ret _ _, fun _ _ hd => by cases hd; exact hv⟩
  fail p := ⟨Restores.fail p _, fun _ _ hd => nomatch hd⟩
  exhausted := ⟨fun _ h => (nomatch h), fun _ _ hd => nomatch hd⟩
  bind := .bind
  inFrame _ hx := .inFrame hx
  currentFrame _ := restores_currentFrame.restoresTo
  childFrame _ := (restores_childFrame _).restoresTo
  lookUp id name _ := (restores_lookUp id name).restoresTo
  this _ := (restores_readAt _ _ _).restoresTo
  assign _ _ _ := (restores_assign _ _ _).restoresTo
  define _ _ _ := (restores_define _ _).restoresTo
  function _ _ := (restores_define _ _).restoresTo
  native _ _ := (restores_onWorld _).restoresTo
  defineAll _ _ _ := (restores_defineAll _ _ _).restoresTo
  declareClass _ _ _ := (restores_declareClass _ _ _).restoresTo
  newObject _ := (restores_newObject _).restoresTo
  initializer _ _ _ _ _ := (restores_bindMethod _ _).restoresTo
  property _ _ _ := (restores_property _ _ _).restoresTo
  superMethod _ _ := (restores_superMethod _ _).restoresTo
  setField _ _ := (restores_setField _ _ _).restoresTo

end Eval

/-! ## Sessions -/

namespace Session

/-- A line leaves the session in the frame that it was in before. -/
theorem restored_run {s s' : Session} {fuel : Nat} {source : String} {status : RunStatus}
    (h : s.run fuel source = some (s', status)) : s.machine.Restored s'.machine := by
  obtain heq | ⟨s₁, program, hc, hrun⟩ := machine_of_run h
  · rw [heq]
    exact .refl _
  · have hrestores : Eval.RestoresTo (fun _ => True) (Eval.runAll fuel program)
        (s₁.machine.loaded program) := Eval.rules_restores.runAll trivial trivial
    have hrestored := hrestores.1 _ hrun
    have hmachine := machine_eq_of_check hc
    rw [← hmachine]
    exact ⟨hrestored.current, hrestored.globals, hrestored.frames, hrestored.enclosing⟩

/-- Between its lines a session is in the globals. -/
theorem Reached.current_eq {s : Session} (h : s.Reached) :
    s.machine.current = s.machine.globals := by
  induction h with
  | new sink clock => rfl
  | reset _ ih => exact ih
  | run _ hrun ih =>
    have hrestored := restored_run hrun
    rw [hrestored.current, hrestored.globals, ih]

end Session

/-- A statement, an expression, a list of statements in a frame and a call each end in the frame
that they start in, with the same globals and the same frames around the frames that there were,
whether they end well, return or fail. So the next line of a session runs in the globals, whatever
the lines before it have come to. -/
theorem restored (m : Machine) (n : Nat) :
    (∀ s m', (Eval.execute n s m).state? = some m' → m.Restored m') ∧
    (∀ e m', (Eval.evaluate n e m).state? = some m' → m.Restored m') ∧
    (∀ frame ss m', (Eval.inFrame frame (Eval.executeAll n ss) m).state? = some m' →
      m.Restored m') ∧
    (∀ f args m', (Eval.invoke n f args m).state? = some m' → m.Restored m') ∧
    ∀ s : Session, s.Reached → ∀ source s' status, s.run n source = some (s', status) →
      s.machine.Restored s'.machine ∧
      ∀ next s'' program, s'.check next = (s'', some program) →
        (s''.machine.loaded program).current = s.machine.globals := by
  have hall := Eval.rules_restores.holdsAt n
  refine ⟨fun s => (hall.execute trivial trivial).1, fun e => (hall.evaluate trivial trivial).1,
    fun frame ss => ?_, fun f args => ?_, fun s hs source s' status hrun => ?_⟩
  · exact (Eval.RestoresTo.inFrame (hall.executeAll trivial trivial)).1
  · exact (hall.invoke trivial trivial fun _ _ => trivial).1
  · have hrestored := Session.restored_run hrun
    refine ⟨hrestored, fun next s'' program hcheck => ?_⟩
    calc (s''.machine.loaded program).current
        = s'.machine.current := by rw [← Session.machine_eq_of_check hcheck]; rfl
      _ = s.machine.current := hrestored.current
      _ = s.machine.globals := hs.current_eq

theorem exists_run_failing_line :
    ∃ s' s'' program, (Session.new {} fun _ => 0).run 5 "\x7bb;\x7d" = some (s', .runtimeError) ∧
      s'.machine.store.frames.size = 2 ∧ s'.check "b;" = (s'', some program) := by
  have h : ((Session.new {} fun _ => 0).run 5 "\x7bb;\x7d").map
      (fun r => (r.2, r.1.machine.store.frames.size, (r.1.check "b;").2.isSome)) =
        some (.runtimeError, 2, true) := by cbv
  obtain ⟨⟨s', status⟩, hrun, hs'⟩ := Option.map_eq_some_iff.1 h
  obtain ⟨rfl, hsize, hcheck⟩ : status = .runtimeError ∧ _ ∧ _ := by simpa using hs'
  obtain ⟨program, hprogram⟩ := Option.isSome_iff_exists.1 hcheck
  exact ⟨s', _, program, hrun, hsize, Prod.ext rfl hprogram⟩

/-- A line fails in a block, in a frame of its own; the next line runs in the globals. -/
theorem restored_failing_line :
    ∃ s' s'' program, (Session.new {} fun _ => 0).run 5 "\x7bb;\x7d" = some (s', .runtimeError) ∧
      s'.machine.store.frames.size = 2 ∧ s'.check "b;" = (s'', some program) ∧
      (s''.machine.loaded program).current = 0 := by
  obtain ⟨s', s'', program, hrun, hsize, hcheck⟩ := exists_run_failing_line
  have hlines := (restored (.initial {} fun _ => 0) 5).2.2.2.2 _ (.new {} fun _ => 0) _ _ _ hrun
  exact ⟨s', s'', program, hrun, hsize, hcheck, hlines.2 _ _ _ hcheck⟩

end Lox
