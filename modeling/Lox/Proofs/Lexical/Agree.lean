import Lox.Machine
import Lox.Proofs.Lexical.Related

/-!
# Lox.Proofs.Lexical.Agree

When the two machines are in the same state under a plan (`Agree`): what is outside is equal, frames
are linked as planned, and filled cells, globals and fields hold related values. Each step that the
evaluators take in memory keeps this up, with a later plan where memory grows.
-/

namespace Lox
namespace Lexical

/-- The pseudo-variables hold what they are for. -/
def Suits (name : String) (v : Value) : Prop :=
  (name = "this" → ∃ c o, v = .object c o) ∧ (name = "super" → ∃ c, v = .cls c)

theorem suits_of_isName {name : Token} (h : name.IsName) (v : Value) : Suits name.lexeme v :=
  ⟨fun ht => absurd ht h.1, fun hs => absurd hs h.2⟩

/-- Tables of fields with related values. -/
def FieldsRel (w : Plan) (fs : Bindings Value) (fs' : Bindings (Value Names)) : Prop :=
  ∀ name, Option.Rel (ValueRel w) (fs.find? name) (fs'.find? name)

theorem FieldsRel.mono {w w' : Plan} (h : w.Le w') {fs : Bindings Value}
    {fs' : Bindings (Value Names)} (hf : FieldsRel w fs fs') : FieldsRel w' fs fs' :=
  fun name => ValueRel.monoOption h (hf name)

theorem FieldsRel.insert {w : Plan} {fs : Bindings Value} {fs' : Bindings (Value Names)}
    (hf : FieldsRel w fs fs') (name : String) {v : Value} {v' : Value Names}
    (hv : ValueRel w v v') : FieldsRel w (fs.insert name v) (fs'.insert name v') := by
  intro m
  rw [Bindings.find?_insert, Bindings.find?_insert]
  by_cases hm : name = m
  · rw [if_pos hm, if_pos hm]
    exact .some hv
  · rw [if_neg hm, if_neg hm]
    exact hf m

/-- The machines are in the same state, the frame machine in this frame. -/
structure Agree (w : Plan) (frame : FrameId) (m : Lox.Machine) (x : Machine) : Prop where
  world : x.toWorld = m.toWorld
  current : m.current = frame
  globals : m.globals = w.globals
  locals : m.locals = w.table.locals
  frames : m.store.frames.size = w.links.length
  enclosing : ∀ f, m.store.enclosing? f = w.enclosing? f
  cells : x.cells.size = w.slots.length
  slot : ∀ c a name, w.slots[c]? = some (a, name) → w.filled c →
    ∃ v v', m.store.local? a name = some v ∧ x.read? c = some v' ∧ ValueRel w v v' ∧ Suits name v
  global : ∀ name, Option.Rel (ValueRel w) (m.store.local? w.globals name) (x.globals.find? name)
  size : x.objects.size = m.store.objects.size
  fields : ∀ o : ObjectId, Option.Rel (FieldsRel w) m.store.objects[o]? x.objects[o]?

namespace Agree

variable {w w' : Plan} {frame : FrameId} {m : Lox.Machine} {x : Machine}

theorem ancestor?_eq (h : Agree w frame m x) : ∀ (d : Nat) (f : FrameId),
    m.store.ancestor? d f = w.ancestor? d f
  | 0, _ => rfl
  | d + 1, f => by
    unfold Store.ancestor? Plan.ancestor?
    rw [h.enclosing f]
    cases w.enclosing? f with
    | none => rfl
    | some e => exact ancestor?_eq h d e

/-! ## What the invariant says of memory -/

theorem fieldsMono (h : Agree w frame m x) (hle : w.Le w') (o : ObjectId) :
    Option.Rel (FieldsRel w') m.store.objects[o]? x.objects[o]? := by
  have ho := h.fields o
  revert ho
  cases m.store.objects[o]? <;> cases x.objects[o]? <;> rintro ⟨⟩
  · exact .none
  · rename_i hf
    exact .some (hf.mono hle)

theorem globals_lt (h : Agree w frame m x) : w.globals < m.store.frames.size := by
  rw [h.frames]
  exact (List.getElem?_eq_some_iff.1 w.root).1

theorem lt_of_slot (h : Agree w frame m x) {c : CellId} {a : FrameId} {name : String}
    (hs : w.slots[c]? = some (a, name)) : a < m.store.frames.size ∧ a ≠ w.globals := by
  rw [h.frames]
  exact w.isLocal (a, name) (List.mem_of_getElem? hs)

/-- Global names are looked up in the frame of the globals alone. -/
theorem owner?_globals (h : Agree w frame m x) (name : String) :
    m.store.owner? m.globals name =
      (m.store.local? w.globals name).map fun _ => w.globals := by
  rw [h.globals]
  unfold Store.owner? Store.ownerWithin
  cases m.store.local? w.globals name with
  | some v => rfl
  | none =>
    have hroot : m.store.enclosing? w.globals = none := by
      rw [h.enclosing, Plan.enclosing?, w.root]
      rfl
    rw [hroot]
    rfl

theorem get?_globals (h : Agree w frame m x) (name : String) :
    m.store.get? m.globals name = m.store.local? w.globals name := by
  unfold Store.get?
  rw [h.owner?_globals]
  cases hl : m.store.local? w.globals name with
  | none => rfl
  | some v => exact hl

/-! ## Steps -/

theorem inFrame (h : Agree w frame m x) (f : FrameId) :
    Agree w f { m with current := f } x :=
  { h with current := rfl }

theorem inWorld (h : Agree w frame m x) (o : World) :
    Agree w frame { m with toWorld := o } { x with toWorld := o } :=
  { h with world := rfl }

/-- Distances of another program are added. -/
theorem withTable (h : Agree w frame m x) {t : Table} (ht : w.table.Le t) :
    Agree (w.withTable t) frame { m with locals := t.locals } x := by
  have hle := w.le_withTable ht
  exact { h with
    locals := rfl
    slot := fun c a name hs hc => by
      obtain ⟨v, v', hv, hv', hrel, hsuits⟩ := h.slot c a name hs hc
      exact ⟨v, v', hv, hv', hrel.mono hle, hsuits⟩
    global := fun name => ValueRel.monoOption hle (h.global name)
    fields := h.fieldsMono hle }

theorem addFrame (h : Agree w frame m x) (e : FrameId) :
    Agree (w.addFrame e) frame { m with store := (m.store.addFrame (some e)).2 } x := by
  have hle := (w.grows_addFrame none e).toLe
  refine { h with
    frames := ?_, enclosing := fun f => ?_, slot := fun c a name hs hc => ?_,
    global := fun name => ?_, fields := h.fieldsMono hle }
  · simp [Store.addFrame, Plan.addFrame, h.frames]
  · rw [Store.enclosing?_addFrame, h.frames]
    by_cases hf : f = w.links.length
    · rw [if_pos hf, hf, w.enclosing?_addFrame_self]
    · rw [if_neg hf, w.enclosing?_addFrame_of_ne hf]
      exact h.enclosing f
  · obtain ⟨v, v', hv, hv', hrel, hsuits⟩ := h.slot c a name hs hc
    refine ⟨v, v', ?_, hv', hrel.mono hle, hsuits⟩
    rw [Store.local?_addFrame]
    exact hv
  · rw [Store.local?_addFrame]
    exact ValueRel.monoOption hle (h.global name)

theorem currentFrame_eq (h : Agree w frame m x) : Lox.Eval.currentFrame m = .done frame m := by
  rw [← h.current]
  rfl

theorem childFrame_eq (h : Agree w frame m x) (e : FrameId) :
    Lox.Eval.childFrame e m =
      .done w.links.length { m with store := (m.store.addFrame (some e)).2 } := by
  rw [← h.frames]
  rfl

/-- A cell is added for a name that its frame does not have yet; it may hold anything. -/
theorem addSlot (h : Agree w frame m x) {f : FrameId} {name : String} (hf : f < w.links.length)
    (hg : f ≠ w.globals) (hnew : (f, name) ∉ w.slots) (v : Option (Value Names)) :
    Agree (w.addSlot f name hf hg hnew) frame m { x with cells := x.cells.push v } := by
  have hle := (w.grows_addSlot f name hf hg hnew).toLe
  refine { h with
    cells := ?_, slot := fun c a y hs hc => ?_,
    global := fun y => ValueRel.monoOption hle (h.global y), fields := h.fieldsMono hle }
  · simp [Plan.addSlot, h.cells]
  · have hlt : c < w.slots.length := w.filled_lt c hc
    have hold : w.slots[c]? = some (a, y) := by
      rw [← hs]
      exact (List.getElem?_append_left hlt).symm
    obtain ⟨u, u', hu, hu', hrel, hsuits⟩ := h.slot c a y hold hc
    refine ⟨u, u', hu, ?_, hrel.mono hle, hsuits⟩
    have hcells : c ≠ x.cells.size := by
      rw [h.cells]
      exact Nat.ne_of_lt hlt
    rw [← hu']
    simp only [Machine.read?, Array.getElem?_push, if_neg hcells]

/-- A value may refer to the variable that it is written to. -/
theorem write (h : Agree w frame m x) {c : CellId} {a : FrameId} {name : String}
    (hs : w.slots[c]? = some (a, name)) (hc : c < w.slots.length) {v : Value} {v' : Value Names}
    (hv : ValueRel (w.fill c hc) v v') (hsuits : Suits name v) {x' : Machine}
    (hx : { x' with cells := x.cells } = x) (hsize : x'.cells.size = x.cells.size)
    (hself : x'.read? c = some v') (hother : ∀ c', c' ≠ c → x'.read? c' = x.read? c') :
    Agree (w.fill c hc) frame { m with store := m.store.define a name v } x' := by
  have hle := (w.grows_fill none c hc).toLe
  obtain ⟨ha, hlocal⟩ := h.lt_of_slot hs
  have hx : x'.toWorld = x.toWorld ∧ x'.globals = x.globals ∧ x'.objects = x.objects := by
    rw [← hx]
    exact ⟨rfl, rfl, rfl⟩
  refine { h with
    world := hx.1.trans h.world
    frames := (Store.size_frames_define _ _ _ _).trans h.frames
    enclosing := fun f => (Store.enclosing?_define _ _ _ _ _).trans (h.enclosing f)
    cells := hsize.trans h.cells
    slot := ?_, global := fun y => ?_, size := ?_, fields := ?_ }
  · intro c' b y hs' hc'
    by_cases hcc : c' = c
    · subst hcc
      have hslot : (a, name) = (b, y) := Option.some.inj (hs.symm.trans hs')
      cases hslot
      refine ⟨v, v', ?_, hself, hv, hsuits⟩
      rw [Store.local?_define _ _ ha, if_pos rfl]
    · have hfilled : w.filled c' := hc'.resolve_left hcc
      obtain ⟨u, u', hu, hu', hrel, hsu⟩ := h.slot c' b y hs' hfilled
      refine ⟨u, u', ?_, (hother c' hcc).trans hu', hrel.mono hle, hsu⟩
      have hdiff : (a, name) ≠ (b, y) := by
        intro heq
        have hs'' : w.slots[c']? = w.slots[c]? := by
          rw [hs, heq]
          exact hs'
        exact hcc ((List.getElem?_inj (w.filled_lt c' hfilled) w.nodup).1 hs'')
      by_cases hab : a = b
      · subst hab
        rw [Store.local?_define _ _ ha, if_neg fun hny => hdiff (by rw [hny])]
        exact hu
      · rw [Store.local?_define_of_ne _ hab]
        exact hu
  · show Option.Rel _ ((m.store.define a name v).local? w.globals y) _
    rw [Store.local?_define_of_ne _ hlocal, hx.2.1]
    exact ValueRel.monoOption hle (h.global y)
  · rw [hx.2.2]
    exact h.size
  · rw [hx.2.2]
    exact h.fieldsMono hle

/-- A variable is written in its frame on one side and in its cell on the other. -/
theorem setCell (h : Agree w frame m x) {c : CellId} {a : FrameId} {name : String}
    (hs : w.slots[c]? = some (a, name)) (hc : c < w.slots.length) {v : Value} {v' : Value Names}
    (hv : ValueRel (w.fill c hc) v v') (hsuits : Suits name v) :
    Agree (w.fill c hc) frame { m with store := m.store.define a name v }
      { x with cells := x.cells.setIfInBounds c (some v') } := by
  have hlt : c < x.cells.size := by
    rw [h.cells]
    exact hc
  refine h.write hs hc hv hsuits rfl (Array.size_setIfInBounds ..) ?_ fun c' hc' => ?_
  · simp [Machine.read?, hlt]
  · simp only [Machine.read?]
    rw [Array.getElem?_setIfInBounds_ne (Ne.symm hc')]

/-- A variable that has its value from the start. -/
theorem newCell (h : Agree w frame m x) {f : FrameId} {name : String} (hf : f < w.links.length)
    (hg : f ≠ w.globals) (hnew : (f, name) ∉ w.slots) {v : Value} {v' : Value Names}
    (hv : ValueRel w v v') (hsuits : Suits name v) :
    Agree ((w.addSlot f name hf hg hnew).fill w.slots.length (by simp [Plan.addSlot])) frame
      { m with store := m.store.define f name v } { x with cells := x.cells.push (some v') } := by
  refine (h.addSlot hf hg hnew (some v')).write (by simp [Plan.addSlot]) _
    (hv.mono ((w.grows_addSlot f name hf hg hnew).toLe.trans (Plan.grows_fill _ none _ _).toLe))
    hsuits rfl rfl ?_ fun _ _ => rfl
  rw [← h.cells]
  simp [Machine.read?]

/-- A new frame with one variable. -/
theorem wrap (h : Agree w frame m x) (e : FrameId) (name : String) {v : Value} {v' : Value Names}
    (hv : ValueRel w v v') (hsuits : Suits name v) :
    Agree (w.wrap e name) frame
      { m with store := (m.store.addFrame (some e)).2.define w.links.length name v }
      { x with cells := x.cells.push (some v') } :=
  (h.addFrame e).newCell _ w.length_ne_globals (w.length_not_mem name)
    (hv.mono (w.grows_addFrame none e).toLe) hsuits

theorem setGlobal (h : Agree w frame m x) (name : String) {v : Value} {v' : Value Names}
    (hv : ValueRel w v v') :
    Agree w frame { m with store := m.store.define w.globals name v }
      { x with globals := x.globals.insert name v' } := by
  refine { h with
    frames := (Store.size_frames_define _ _ _ _).trans h.frames
    enclosing := fun f => (Store.enclosing?_define _ _ _ _ _).trans (h.enclosing f)
    slot := ?_, global := fun y => ?_ }
  · intro c a y hs hc
    obtain ⟨u, u', hu, hu', hrel, hsu⟩ := h.slot c a y hs hc
    refine ⟨u, u', ?_, hu', hrel, hsu⟩
    rw [Store.local?_define_of_ne _ (Ne.symm (h.lt_of_slot hs).2)]
    exact hu
  · rw [Store.local?_define _ _ h.globals_lt, Bindings.find?_insert]
    by_cases hy : name = y
    · rw [if_pos hy, if_pos hy]
      exact .some hv
    · rw [if_neg hy, if_neg hy]
      exact h.global y

theorem addObject (h : Agree w frame m x) :
    Agree w frame { m with store := m.store.addObject.2 }
      { x with objects := x.objects.push .empty } := by
  refine { h with size := ?_, fields := fun o => ?_ }
  · simp [Store.addObject, h.size]
  · simp only [Store.addObject, Array.getElem?_push, h.size]
    by_cases ho : o = m.store.objects.size
    · rw [if_pos ho, if_pos ho]
      exact .some fun name => .none
    · rw [if_neg ho, if_neg ho]
      exact h.fields o

theorem setField (h : Agree w frame m x) (o : ObjectId) (name : String) {v : Value}
    {v' : Value Names} (hv : ValueRel w v v') :
    Agree w frame { m with store := m.store.setField o name v }
      { x with objects := x.objects.modify o fun fields => fields.insert name v' } := by
  refine { h with size := ?_, fields := fun o' => ?_ }
  · simp [Store.setField, h.size]
  · simp only [Store.setField, Array.getElem?_modify]
    have hfields := h.fields o'
    by_cases ho : o = o'
    · rw [if_pos ho, if_pos ho]
      revert hfields
      cases m.store.objects[o']? <;> cases x.objects[o']? <;> rintro ⟨⟩
      · exact .none
      · rename_i hf
        exact .some (hf.insert name hv)
    · rw [if_neg ho, if_neg ho]
      exact hfields

theorem field?_rel (h : Agree w frame m x) (o : ObjectId) (name : String) :
    Option.Rel (ValueRel w) (m.store.field? o name) (x.field? o name) := by
  have hfields := h.fields o
  unfold Store.field? Machine.field?
  revert hfields
  cases m.store.objects[o]? <;> cases x.objects[o]? <;> rintro ⟨⟩
  · exact .none
  · rename_i hf
    exact hf name

end Agree

end Lexical
end Lox
