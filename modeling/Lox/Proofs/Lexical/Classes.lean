import Lox.Proofs.Lexical.Matches

/-!
# Lox.Proofs.Lexical.Classes

Class declarations and `super` on both sides. The methods of a class close over the frame that gets
the class, or over a frame in between with the superclass; so from a receiver the superclass is one
frame further outward.
-/

namespace Lox

/-- A declaration without a superclass binds the class where it stands. -/
theorem Eval.declareClass_base (name : String) (ms : List FunctionDecl) {m : Machine}
    (h : m.current < m.store.frames.size) :
    Eval.declareClass name none ms m = .done ()
      { m with
        store := m.store.define m.current name (.cls (.base name (methodTable m.current ms))) } := by
  have howner : (m.store.define m.current name .nil).owner? m.current name = some m.current := by
    refine Store.owner?_of_local? (v := .nil) ?_
    rw [Store.local?_define _ _ h, if_pos rfl]
  simp only [declareClass, define, currentFrame, Computation.bind_apply, assignOutward, writeTo,
    howner, Store.define_define]

/-- With a superclass there is a frame for it, around the methods only. -/
theorem Eval.declareClass_derived (name : String) (c : Class) (ms : List FunctionDecl)
    {m : Machine} (h : m.current < m.store.frames.size) :
    Eval.declareClass name (some c) ms m = .done ()
      { m with
        store :=
          let inner := (m.store.addFrame (some m.current)).2.define m.store.frames.size "super" (.cls c)
          inner.define m.current name
            (.cls (.derived name c (methodTable m.store.frames.size ms))) } := by
  have hne : m.store.frames.size ≠ m.current := Nat.ne_of_gt h
  have hlt : m.current < (m.store.addFrame (some m.current)).2.frames.size := by
    simp only [Store.addFrame, Array.size_push]
    exact Nat.lt_add_right 1 h
  have hlocal : ((((m.store.define m.current name .nil).addFrame (some m.current)).2.define
      m.store.frames.size "super" (.cls c)).local? m.current name) = some .nil := by
    rw [Store.local?_define_of_ne _ hne, Store.local?_addFrame, Store.local?_define _ _ h,
      if_pos rfl]
  have howner := Store.owner?_of_local? hlocal
  have hsize : ((m.store.define m.current name .nil).addFrame (some m.current)).1 =
      m.store.frames.size := Store.size_frames_define _ _ _ _
  simp only [declareClass, define, currentFrame, Computation.bind_apply, childFrame, defineIn,
    assignOutward, writeTo, hsize, howner]
  rw [Store.define_addFrame _ _ h, Store.define_comm _ (Ne.symm hne), Store.define_define]

namespace Lexical

section

variable {w : Plan} {own : Option FrameId} {frame : FrameId} {m : Lox.Machine} {x : Machine}
  {t : Table} {ctx : ResolveContext} {scopes : List Lox.Scope} {names : Names} {scope : Scope}

/-- The methods of a class can be called once they are bound. -/
theorem methodsRel_methodTable {env : FrameId} (ht : t.Le w.table)
    (ha : Aligned w scopes env names) (hs : Scope.Settled scopes)
    {ms : List FunctionDecl}
    (hms : FunctionDecl.AllLinked t ctx (Resolve.thisScope :: scopes) ms)
    (hc : Scope.Carries (Resolve.thisScope :: scopes) ctx.cls) :
    MethodsRel w (Lox.Eval.methodTable env ms) (Lox.Eval.methodTable names ms) := by
  have hmethod (d : FunctionDecl)
      (hd : d.Linked t { ctx with function := Resolve.methodContext d }
        (Resolve.thisScope :: scopes)) :
      MethodRel w ⟨d, env, d.isInitializer⟩ ⟨d, names, d.isInitializer⟩ := by
    refine ⟨rfl, rfl, scopes, ⟨⟨t, _, ht, hd, hc, ?_⟩, fun _ => Scope.has_singleton "this" _⟩,
      hs, ha⟩
    simp only [Resolve.methodContext]
    split <;> simp [*]
  have hfold (acc : Bindings Closure) (acc' : Bindings (Closure Names))
      (hacc : MethodsRel w acc acc') :
      MethodsRel w
        (ms.foldl (fun table d => table.insert d.name.lexeme ⟨d, env, d.isInitializer⟩) acc)
        (ms.foldl (fun table d => table.insert d.name.lexeme ⟨d, names, d.isInitializer⟩) acc') := by
    induction ms generalizing acc acc' with
    | nil => exact hacc
    | cons d ds ih =>
      refine ih hms.2 _ _ fun y => ?_
      rw [Bindings.find?_insert, Bindings.find?_insert]
      by_cases hy : d.name.lexeme = y
      · rw [if_pos hy, if_pos hy]
        exact .some (hmethod d hms.1)
      · rw [if_neg hy, if_neg hy]
        exact hacc y
  exact hfold .empty .empty fun _ => .none

theorem matches_declareClass_base {name : Token} {ms : List FunctionDecl}
    (h : Agree w frame m x) (hat : At w ctx.cls scopes frame scope) (ht : t.Le w.table)
    (hn : name.Declarable scopes)
    (hms : FunctionDecl.AllLinked t { ctx with cls := .plain }
      (Resolve.thisScope :: Scope.declare scopes name) ms) :
    Matches w (some frame) frame
      (fun w' _ scope' => At w' ctx.cls (Scope.declare scopes name) frame scope')
      (Lox.Eval.declareClass name.lexeme none ms m)
      (Eval.declareClass scope name.lexeme none ms x) := by
  obtain rfl := h.current
  obtain ⟨place, scope', x', w', hdeclare, hg, h', hbegun⟩ := hat.begin hn h
  have hat' := hbegun.at_complete
  have ht' := ht.trans (hg.toLe.trans (w'.grows_complete none place).toLe).table
  have hlive : m.current < m.store.frames.size := by
    rw [h.frames]
    exact hat.aligned.live
  have hmethods := methodsRel_methodTable ht' hat'.aligned hat'.settled hms
    (Scope.carries_plain _)
  obtain ⟨x'', hdefine, h''⟩ := hbegun.define h' (.cls (.base name.lexeme hmethods))
  rw [Eval.declareClass_base _ _ hlive]
  simp only [Eval.declareClass, Computation.bind_apply, hdeclare, hdefine]
  exact ⟨w'.complete place, hg.trans (w'.grows_complete _ place), h'', hat'⟩

theorem matches_declareClass_derived {name : Token} {ms : List FunctionDecl} {c : Class}
    {c' : Class Names} (h : Agree w frame m x) (hat : At w ctx.cls scopes frame scope)
    (ht : t.Le w.table) (hn : name.Declarable scopes) (hc : ClassRel w c c')
    (hms : FunctionDecl.AllLinked t { ctx with cls := .subclass }
      (Resolve.thisScope :: Resolve.superScope :: Scope.declare scopes name) ms) :
    Matches w (some frame) frame
      (fun w' _ scope' => At w' ctx.cls (Scope.declare scopes name) frame scope')
      (Lox.Eval.declareClass name.lexeme (some c) ms m)
      (Eval.declareClass scope name.lexeme (some c') ms x) := by
  obtain rfl := h.current
  obtain ⟨place, scope', x', w', hdeclare, hg, h', hbegun⟩ := hat.begin hn h
  have hlive : m.current < m.store.frames.size := by
    rw [h.frames]
    exact hat.aligned.live
  have hframe : m.store.frames.size = w'.links.length := h'.frames
  -- The class is complete when its methods are first called, but not yet when they are made.
  have hgwrap := w'.grows_wrap none m.current "super"
  have hle := w'.complete_wrap_le place m.current "super"
  have hsuper := hbegun.at_complete.aligned.wrap hbegun.at_complete.settled "super"
  have hlinks : (w'.complete place).links.length = w'.links.length := by
    cases place with
    | global => rfl
    | cell cell => by_cases hcell : cell < w'.slots.length <;> simp [Plan.complete, hcell, Plan.fill]
  rw [Plan.slots_complete, hlinks] at hsuper
  have ht' : t.Le ((w'.wrap m.current "super").complete place).table :=
    ht.trans (hg.toLe.trans (hgwrap.toLe.trans (Plan.grows_complete _ none place).toLe)).table
  have hmethods := methodsRel_methodTable ht' (hsuper.mono hle)
    (Scope.settled_singleton_cons "super" _) hms (Scope.carries_subclass _)
  have hcls : ClassRel w' c c' := hc.mono hg.toLe
  have hwrap := h'.wrap m.current "super" (.cls hcls) ⟨fun h => absurd h (by decide), fun _ => ⟨c, rfl⟩⟩
  have hbegun' := hbegun.mono hgwrap
  have hcls' := (hcls.mono hgwrap.toLe).mono (Plan.grows_complete _ none place).toLe
  obtain ⟨x'', hdefine, h''⟩ :=
    hbegun'.define hwrap (.cls (.derived name.lexeme hcls' hmethods))
  rw [← h'.cells] at hdefine
  rw [Eval.declareClass_derived _ _ _ hlive, hframe]
  simp only [Eval.declareClass, Computation.bind_apply, hdeclare, newCell, hdefine]
  exact ⟨_, hg.trans ((w'.grows_wrap _ m.current "super").trans (Plan.grows_complete _ _ place)), h'',
    hbegun'.at_complete⟩

/-- A method of the superclass is found from the receiver. -/
theorem matches_superMethod (h : Agree w frame m x) (ha : Aligned w scopes frame names)
    (ht : t.Le w.table) (hc : Scope.Carries scopes .subclass) {id : RefId}
    (hid : t.Says id (Scope.distance? "super" scopes)) (method : String) :
    Matches w own frame ValueRel (Lox.Eval.superMethod id method m)
      (Eval.superMethod names method x) := by
  obtain ⟨d, hthis, hsuper⟩ := hc
  obtain ⟨v, c, v', hv, hcell, hv', hrel, hsuits⟩ := ha.exists_value h hsuper
  obtain ⟨u, e, u', hu, hcell', hu', hrel', hsuits'⟩ := ha.exists_value h hthis
  obtain ⟨cls, rfl⟩ := hsuits.2 rfl
  obtain ⟨receiver, o, rfl⟩ := hsuits'.1 rfl
  cases hrel with
  | @cls _ cls' hcls =>
    cases hrel' with
    | @object _ receiver' _ hreceiver =>
      have hdistance : m.locals.find? id = some (d + 1) := by
        rw [h.find?_locals ht hid, hsuper.1]
      have hfound := hcls.findMethod? method
      simp only [Lox.Eval.superMethod, Eval.superMethod, Lox.Eval.distanceOf?,
        Lox.Eval.currentFrame, Lox.Eval.readAt, Lox.Eval.found, lookUp, Computation.bind_apply,
        hdistance, h.current, hv, hu, hcell, hcell', hv', hu', Nat.add_sub_cancel]
      revert hfound
      cases cls.findMethod? method <;> cases cls'.findMethod? method <;> rintro ⟨⟩
      · exact .fail h rfl
      · rename_i hf
        exact (matches_bindMethod h hf (.object o hreceiver) ⟨receiver, o, rfl⟩).bind
          fun _ _ _ _ _ _ h' hf' => .ret h' (.function hf'.1)

end

end Lexical
end Lox
