import Mathlib
import Lox.Proofs.Memory.Census

/-!
# Lox.Proofs.Memory.Confined

Calls are confined. What can be reached from the callee, the arguments and the globals is closed on the
machine; so a call leaves everything else in memory as it is (`invoke_confined`), and with it the
variables of the caller that no function has captured.
-/

namespace Lox

/-- A location in memory. -/
inductive Location where
  | frame (f : FrameId)
  | object (o : ObjectId)

/-- A class refers to the environments of its methods, and to what its superclass refers to. -/
inductive Class.RefersTo : Class → Location → Prop
  | base {name methods m f} : methods.find? m = some f → RefersTo (.base name methods) (.frame f.env)
  | derived {name c methods m f} : methods.find? m = some f →
      RefersTo (.derived name c methods) (.frame f.env)
  | superclass {name c methods p} : RefersTo c p → RefersTo (.derived name c methods) p

/-- What a value refers to: a function to its environment, an instance to its fields and its class. -/
inductive Value.RefersTo : Value → Location → Prop
  | function {f} : RefersTo (.function f) (.frame f.env)
  | cls {c p} : c.RefersTo p → RefersTo (.cls c) p
  | fields {c o} : RefersTo (.object c o) (.object o)
  | classOf {c o p} : c.RefersTo p → RefersTo (.object c o) p

/-- What can be reached in memory from given places. -/
inductive Store.Reaches (s : Store) (start : Location → Prop) : Location → Prop
  | start {p} : start p → Reaches s start p
  | enclosing {f e} : Reaches s start (.frame f) → s.enclosing? f = some e →
      Reaches s start (.frame e)
  | bound {f name v p} : Reaches s start (.frame f) → s.local? f name = some v →
      v.RefersTo p → Reaches s start p
  | field {o name v p} : Reaches s start (.object o) → s.field? o name = some v →
      v.RefersTo p → Reaches s start p

/-- What can be reached from the callee, the arguments or the globals of a call. -/
def Machine.CallReaches (m : Machine) (f : Value) (args : List Value) : Location → Prop :=
  m.store.Reaches fun p => p = .frame m.globals ∨ f.RefersTo p ∨ ∃ v ∈ args, v.RefersTo p

/-- The value is in memory: some variable or field has it. -/
def Store.Has (s : Store) (v : Value) : Prop :=
  (∃ f name, s.local? f name = some v) ∨ ∃ o name, s.field? o name = some v

/-- A function of the value closes over the frame, or over a frame somewhere inside it. -/
def Store.Captures (s : Store) (v : Value) (f : FrameId) : Prop :=
  ∃ g d, v.RefersTo (.frame g) ∧ s.ancestor? d g = some f

/-! ## What is reachable is closed -/

namespace Machine

/-- All that a call can reach, and all that there is not yet. -/
def callRegion (m : Machine) (f : Value) (args : List Value) : Region where
  frame g := m.store.frames.size ≤ g ∨ m.CallReaches f args (.frame g)
  object o := m.store.objects.size ≤ o ∨ m.CallReaches f args (.object o)
  function g := m.store.frames.size ≤ g.env ∨ m.CallReaches f args (.frame g.env)
  method g := m.store.frames.size ≤ g.env ∨ m.CallReaches f args (.frame g.env)

variable {m : Machine} {f : Value} {args : List Value}

theorem in_callRegion_class {c : Class} (h : ∀ p, c.RefersTo p → m.CallReaches f args p) :
    c.In (m.callRegion f args) := by
  induction c with
  | base name methods => exact fun n g hg => .inr (h _ (.base hg))
  | derived name c methods ih =>
    exact ⟨ih fun p hp => h p (.superclass hp), fun n g hg => .inr (h _ (.derived hg))⟩

theorem in_callRegion {v : Value} (h : ∀ p, v.RefersTo p → m.CallReaches f args p) :
    v.In (m.callRegion f args) := by
  cases v with
  | function g => exact .inr (h _ .function)
  | cls c => exact in_callRegion_class fun p hp => h p (.cls hp)
  | object c o => exact ⟨in_callRegion_class fun p hp => h p (.classOf hp), .inr (h _ .fields)⟩
  | _ => trivial

theorem closedIn_callRegion : m.ClosedIn (m.callRegion f args) where
  store :=
    { enclosing := by
        rintro g e (hg | hg) he
        · simp [Store.enclosing?, Array.getElem?_eq_none hg] at he
        · exact .inr (hg.enclosing he)
      bound := by
        rintro g name v (hg | hg) hv
        · simp [Store.local?, Array.getElem?_eq_none hg] at hv
        · exact in_callRegion fun p hp => hg.bound hv hp
      field := by
        rintro o name v (ho | ho) hv
        · simp [Store.field?, Array.getElem?_eq_none ho] at hv
        · exact in_callRegion fun p hp => ho.field hv hp
      newFrame := fun g hg => .inl hg
      newObject := fun o ho => .inl ho }
  globals := .inr (.start (.inl rfl))

/-- Functions and methods belong to a call by the frames that they close over. -/
theorem census_callRegion : Census (fun _ _ => True) (m.callRegion f args) where
  enters _ _ := trivial
  env h := h
  methodEnv h := h
  function _ h := h
  method _ _ h := h
  bound _ _ _ h := h

/-- A frame that a call can reach encloses one that a function closes over, if not the globals. -/
theorem CallReaches.exists_ancestor {g : FrameId} (h : m.CallReaches f args (.frame g)) :
    (∃ d, m.store.ancestor? d m.globals = some g) ∨
      ∃ v, (v = f ∨ v ∈ args ∨ m.store.Has v) ∧ m.store.Captures v g := by
  unfold CallReaches at h
  generalize hp : Location.frame g = p at h
  induction h generalizing g with
  | start hstart =>
    subst hp
    obtain hglobals | hf | ⟨v, hv, hargs⟩ := hstart
    · cases hglobals
      exact .inl ⟨0, rfl⟩
    · exact .inr ⟨f, .inl rfl, g, 0, hf, rfl⟩
    · exact .inr ⟨v, .inr (.inl hv), g, 0, hargs, rfl⟩
  | enclosing _ he ih =>
    cases hp
    obtain ⟨d, hd⟩ | ⟨v, hv, g', d, hg', hd⟩ := ih rfl
    · exact .inl ⟨d + 1, Store.ancestor?_of_enclosing? hd he⟩
    · exact .inr ⟨v, hv, g', d + 1, hg', Store.ancestor?_of_enclosing? hd he⟩
  | bound _ hv href _ =>
    subst hp
    exact .inr ⟨_, .inr (.inr (.inl ⟨_, _, hv⟩)), g, 0, href, rfl⟩
  | field _ hv href _ =>
    subst hp
    exact .inr ⟨_, .inr (.inr (.inr ⟨_, _, hv⟩)), g, 0, href, rfl⟩

end Machine

/-- A call changes no frame and no instance that there was before it and that cannot be reached from the
callee, the arguments or the globals, however it ends. So no frame is changed that is not one of the
globals and that no function has captured, be the function in memory, called or passed. -/
theorem invoke_confined {n : Nat} {f : Value} {args : List Value} {m m' : Machine}
    (h : (Eval.invoke n f args m).state? = some m') :
    (∀ g, g < m.store.frames.size → ¬ m.CallReaches f args (.frame g) →
      m'.store.frames[g]? = m.store.frames[g]?) ∧
    (∀ o, o < m.store.objects.size → ¬ m.CallReaches f args (.object o) →
      m'.store.objects[o]? = m.store.objects[o]?) ∧
    ∀ g, g < m.store.frames.size → (∀ d, m.store.ancestor? d m.globals ≠ some g) →
      (∀ v, v = f ∨ v ∈ args ∨ m.store.Has v → ¬ m.store.Captures v g) →
      m'.store.frames[g]? = m.store.frames[g]? := by
  have hf : f.In (m.callRegion f args) :=
    Machine.in_callRegion fun p hp => .start (.inr (.inl hp))
  have hargs : ∀ v ∈ args, v.In (m.callRegion f args) := fun v hv =>
    Machine.in_callRegion fun p hp => .start (.inr (.inr ⟨v, hv, hp⟩))
  have hwithin := (Machine.census_callRegion.rules.holdsAt n).invoke (m := m) trivial hf hargs
  have houtside := ((hwithin Machine.closedIn_callRegion).1 m' h).outside
  have hframe (g : FrameId) (hg : g < m.store.frames.size)
      (hreach : ¬ m.CallReaches f args (.frame g)) :
      m'.store.frames[g]? = m.store.frames[g]? :=
    houtside.frame g fun hin => hin.elim (Nat.not_le_of_lt hg) hreach
  refine ⟨hframe, fun o ho hreach => ?_, fun g hg hglobals hcaptured => ?_⟩
  · exact houtside.object o fun hin => hin.elim (Nat.not_le_of_lt ho) hreach
  · refine hframe g hg fun hreach => ?_
    obtain ⟨d, hd⟩ | ⟨v, hv, hcaptures⟩ := hreach.exists_ancestor
    · exact hglobals d hd
    · exact hcaptured v hv hcaptures

/-- A function that assigns to a variable outside. -/
def assignsOutside : Closure :=
  ⟨⟨⟨.identifier, "f", none, 1⟩, [],
    [.expression (.assign 8 ⟨.identifier, "y", none, 1⟩ (.constant (.bool true)))]⟩, 0, false⟩

/-- The memory in a block with a variable `x`, where the globals are `y` and the function. -/
def storeInBlock : Store where
  frames := #[⟨(Native.bindings.insert "y" .nil).insert "f" (.function assignsOutside), none⟩,
    ⟨.singleton "x" .nil, some 0⟩]
  objects := #[]

theorem exists_check_call (sink : Sink) (clock : Nat → Float) :
    ∃ s, s.machine = .initial sink clock ∧ (Session.new sink clock).check
        "var y;fun f()\x7by=true;\x7d\x7bvar x;f();\x7d" =
      (s, some [.var ⟨.identifier, "y", none, 1⟩ none, .function assignsOutside.decl,
        .block [.var ⟨.identifier, "x", none, 1⟩ none,
          .expression (.call (.var 17 ⟨.identifier, "f", none, 1⟩)
            ⟨.rightParen, ")", none, 1⟩ [])]]) :=
  ⟨_, Session.machine_check _ _, Prod.ext rfl (by cbv)⟩

theorem exists_reached_call :
    ∃ m, Reached (.invoke 7 (.function assignsOutside) []) m ∧ m.globals = 0 ∧
      m.store = storeInBlock ∧
      ∃ m', (Eval.invoke 7 (.function assignsOutside) [] m).state? = some m' ∧
        m'.store.local? 0 "y" = some (.bool true) := by
  obtain ⟨s, hmachine, hcheck⟩ := exists_check_call {} fun _ => 0
  have hprogram := Reached.program 12 (.new {} fun _ => 0) hcheck
  rw [hmachine] at hprogram
  have hfunction := Reached.enter hprogram (.programTail (by cbv))
  have hblock := Reached.enter hfunction (.programTail (by cbv))
  have hbody := Reached.enter (Reached.enter (Reached.enter hblock .programHead) .statement)
    (.block rfl)
  have hrest := Reached.enter hbody (.moreStatements (by cbv))
  have hcall := Reached.enter (Reached.enter hrest .firstStatement) .expression
  have hinvoke := Reached.enter hcall (.invoke (by cbv) (by cbv))
  exact ⟨_, hinvoke, by cbv, by cbv, _, rfl, by cbv⟩

theorem eq_of_has {v : Value} (h : storeInBlock.Has v) :
    v = .function assignsOutside ∨ ∀ p, ¬ v.RefersTo p := by
  obtain ⟨g, name, hv⟩ | ⟨o, name, hv⟩ := h
  · obtain _ | _ | g := g
    · change ((Native.bindings.insert "y" .nil).insert "f" _).find? name = some v at hv
      simp only [Native.bindings, Native.all, List.foldl, Bindings.find?_insert,
        Bindings.find?_empty] at hv
      repeat' split at hv
      · exact .inl (Option.some.inj hv).symm
      all_goals cases hv
      all_goals exact .inr fun p hp => by cases hp
    · change (Bindings.singleton "x" Value.nil).find? name = some v at hv
      rw [Bindings.singleton, Bindings.find?_insert] at hv
      split at hv <;> cases hv
      exact .inr fun p hp => by cases hp
    · cases hv
  · cases hv

/-- A call from the block leaves the variable of the block. -/
theorem invoke_confined_block :
    ∃ m m', Reached (.invoke 7 (.function assignsOutside) []) m ∧
      (Eval.invoke 7 (.function assignsOutside) [] m).state? = some m' ∧
      m'.store.local? 0 "y" = some (.bool true) ∧
      m.store.frames[1]? = some ⟨.singleton "x" .nil, some 0⟩ ∧
      m'.store.frames[1]? = m.store.frames[1]? := by
  obtain ⟨m, hreached, hglobals, hstore, m', h, hy⟩ := exists_reached_call
  have hancestor (d : Nat) : m.store.ancestor? d 0 ≠ some 1 := by
    rw [hstore]
    rcases d with _ | d <;> exact nofun
  refine ⟨m, m', hreached, h, hy, by rw [hstore]; rfl, ?_⟩
  refine (invoke_confined h).2.2 1 (by rw [hstore]; decide) (by rwa [hglobals]) ?_
  have hcallee : ¬ m.store.Captures (.function assignsOutside) 1 := by
    rintro ⟨g, d, hrefers, hd⟩
    cases hrefers
    exact hancestor d hd
  rintro v (rfl | hv | hv)
  · exact hcallee
  · cases hv
  · rw [hstore] at hv
    obtain rfl | hnone := eq_of_has hv
    · exact hcallee
    · exact fun ⟨_, _, hrefers, _⟩ => hnone _ hrefers

end Lox
