import Mathlib
import Lox.Proofs.Activity.Rules
import Lox.Proofs.Receiver.Kept

/-!
# Lox.Proofs.Output.Capped

Computations before a sink that becomes full. A computation with room for so many bytes in all does
what it does without a limit, until a line does not fit; then it ends with an error in the state in
which the printing of that line has begun (`Capped`). Steps that do not print cannot tell the two
machines apart (`Silent`).
-/

namespace Lox

/-! ## Full sinks -/

namespace Sink

/-- The sink takes bytes until so many are written in all. -/
def capped (total : Nat) (s : Sink) : Sink := { s with room := some (total - s.written.size) }

/-- The sink without the bytes that go beyond a total. -/
def cut (total : Nat) (s : Sink) : Sink :=
  { s with written := s.written.extract 0 total, room := some 0 }

/-- The sink with more bytes written. -/
def append (s : Sink) (bytes : ByteArray) : Sink := { s with written := s.written ++ bytes }

theorem size_append (s : Sink) (bytes : ByteArray) :
    (s.append bytes).written.size = s.written.size + bytes.size := ByteArray.size_append

theorem append_append (s : Sink) (a b : ByteArray) : (s.append a).append b = s.append (a ++ b) := by
  simp only [append, ByteArray.append_assoc]

theorem append_empty (s : Sink) : s.append .empty = s := by
  simp only [append, ByteArray.append_empty]

theorem extract_of_size_le {bytes : ByteArray} {n : Nat} (h : bytes.size ≤ n) :
    bytes.extract 0 n = bytes := by
  ext i _ _
  · simp [h]
  · simp

/-- What is cut off does not depend on what comes after it. -/
theorem cut_append {s : Sink} {total : Nat} (h : total ≤ s.written.size) (bytes : ByteArray) :
    (s.append bytes).cut total = s.cut total := by
  have hcut : (s.written ++ bytes).extract 0 total = s.written.extract 0 total := by
    rw [ByteArray.extract_append, Nat.zero_sub, Nat.sub_eq_zero_of_le h,
      ByteArray.extract_eq_empty_iff.2 (Nat.min_le_left _ _), ByteArray.append_empty]
  simp only [cut, append, hcut]

theorem write_of_room_none {s : Sink} (h : s.room = none) (bytes : ByteArray) :
    s.write bytes = (s.append bytes, none) := by
  simp only [write, h, append]

theorem write_capped {s : Sink} {total : Nat} {bytes : ByteArray}
    (h : s.written.size + bytes.size ≤ total) :
    (s.capped total).write bytes = ((s.append bytes).capped total, none) := by
  have hle : bytes.size ≤ total - s.written.size := by omega
  simp only [write, capped, hle, if_true, append, ByteArray.size_append, Nat.sub_add_eq]

theorem write_capped_of_lt {s : Sink} {total : Nat} {bytes : ByteArray}
    (hs : s.written.size ≤ total) (h : total < s.written.size + bytes.size) :
    (s.capped total).write bytes = ((s.append bytes).cut total, some .full) := by
  have hlt : ¬ bytes.size ≤ total - s.written.size := by omega
  have hcut : (s.written ++ bytes).extract 0 total =
      s.written ++ bytes.extract 0 (total - s.written.size) := by
    rw [ByteArray.extract_append, Nat.zero_sub, extract_of_size_le hs]
  simp only [write, capped, hlt, if_false, cut, append, hcut]

end Sink

/-- The machine with a sink that takes bytes until so many are written in all. -/
def Machine.capped (total : Nat) (m : Machine) : Machine := { m with sink := m.sink.capped total }

/-- What is printed for a value. -/
def Value.line (v : Value) : ByteArray := v.text.toUTF8 ++ "\n".toUTF8

/-- From the first machine to the second more bytes have been written, if anything has happened to a
sink without limit at all. -/
structure Machine.WritesOn (m m' : Machine) : Prop where
  sink : m.sink.room = none → ∃ bytes, m'.sink = m.sink.append bytes
  current : m'.current = m.current

namespace Machine.WritesOn

variable {m m' m'' : Machine}

theorem of_same (hs : m'.sink = m.sink) (hc : m'.current = m.current) : m.WritesOn m' :=
  ⟨fun _ => ⟨.empty, by rw [hs, Sink.append_empty]⟩, hc⟩

theorem room (h : m.WritesOn m') (hm : m.sink.room = none) : m'.sink.room = none := by
  obtain ⟨bytes, hs⟩ := h.sink hm
  rw [hs]
  exact hm

theorem trans (h : m.WritesOn m') (h' : m'.WritesOn m'') : m.WritesOn m'' := by
  refine ⟨fun hm => ?_, h'.current.trans h.current⟩
  obtain ⟨bytes, hs⟩ := h.sink hm
  obtain ⟨bytes', hs'⟩ := h'.sink (h.room hm)
  exact ⟨bytes ++ bytes', by rw [hs', hs, Sink.append_append]⟩

end Machine.WritesOn

/-! ## Two outcomes of one computation -/

variable {α β : Type}

/-- The line for the value goes beyond the total, and so does whatever comes after it. A run with room
for no more ends in the state in which the printing of the line began. -/
structure Machine.Overflows (total : Nat) (m : Machine) (v : Value) : Prop where
  fits : m.sink.written.size ≤ total
  exceeds : total < m.sink.written.size + v.line.size

/-- How a computation ends without a limit, and how with one. Of the printing that does not fit `P`
says what value is printed on what machine. -/
inductive Capped (P : Value → Machine → Prop) (total : Nat) (here : FrameId) :
    Outcome Machine α → Outcome Machine α → Prop
  | done {a m} : m.sink.written.size ≤ total → Capped P total here (.done a m) (.done a (m.capped total))
  | failed {e m} : m.sink.written.size ≤ total →
      Capped P total here (.failed e m) (.failed e (m.capped total))
  | outOfFuel : Capped P total here .outOfFuel .outOfFuel
  | full {o m v} : P v m → m.Overflows total v →
      (∀ m', o.state? = some m' → ∃ bytes, m'.sink = (m.sink.append v.line).append bytes) →
      Capped P total here o (.failed (.sink .full)
        { m with sink := (m.sink.append v.line).cut total, current := here })

namespace Capped

variable {P : Value → Machine → Prop} {total : Nat} {here : FrameId} {o : Outcome Machine α}

theorem imp {P' : Value → Machine → Prop} (hP : ∀ v m, P v m → P' v m) {o' : Outcome Machine α}
    (h : Capped P total here o o') : Capped P' total here o o' := by
  cases h with
  | done hsize => exact .done hsize
  | failed hsize => exact .failed hsize
  | outOfFuel => exact .outOfFuel
  | full hv hover hbytes => exact .full (hP _ _ hv) hover hbytes

/-- A good end with a limit is one that there is without. -/
theorem of_done {a : α} {m : Machine} (h : Capped P total here o (.done a m)) :
    ∃ m', o = .done a m' ∧ m = m'.capped total ∧ m'.sink.written.size ≤ total := by
  cases h with
  | done hsize => exact ⟨_, rfl, rfl, hsize⟩

end Capped

namespace Eval

/-- All is well with the output of a computation that starts on the machine: it only adds to it, and a
limit stops it at the line that does not fit. -/
structure Limits (P : Value → Machine → Prop) (x : Eval α) (m : Machine) : Prop where
  writesOn : ∀ m', (x m).state? = some m' → m.WritesOn m'
  capped : m.sink.room = none → ∀ total, m.sink.written.size ≤ total →
    Capped P total m.current (x m) (x (m.capped total))

/-- The computation does the same whatever the sink is, and leaves it and the frame as they are. -/
structure Silent (x : Eval α) : Prop where
  sink : ∀ m m', (x m).state? = some m' → m'.sink = m.sink ∧ m'.current = m.current
  other : ∀ m s, x { m with sink := s } =
    match x m with
    | .done a m' => .done a { m' with sink := s }
    | .failed e m' => .failed e { m' with sink := s }
    | .outOfFuel => .outOfFuel

namespace Silent

variable {x : Eval α} {f : α → Eval β}

theorem ret (a : α) : Silent (pure a) := ⟨fun _ _ h => by cases h; exact ⟨rfl, rfl⟩, fun _ _ => rfl⟩

theorem fail (p : RuntimeProblem) : Silent (Computation.fail p : Eval α) :=
  ⟨fun _ _ h => by cases h; exact ⟨rfl, rfl⟩, fun _ _ => rfl⟩

theorem bind (hx : Silent x) (hf : ∀ a, Silent (f a)) : Silent (x >>= f) := by
  constructor
  · intro m m'' h
    rw [Computation.bind_apply] at h
    have hsink := hx.sink m
    cases ho : x m with
    | done a m' =>
      rw [ho] at h hsink
      obtain ⟨hs, hc⟩ := hsink m' rfl
      obtain ⟨hs', hc'⟩ := (hf a).sink m' m'' h
      exact ⟨hs'.trans hs, hc'.trans hc⟩
    | failed e m' =>
      rw [ho] at h hsink
      exact hsink m'' h
    | outOfFuel =>
      rw [ho] at h
      cases h
  · intro m s
    rw [Computation.bind_apply, Computation.bind_apply, hx.other]
    cases x m with
    | done a m' => exact (hf a).other m' s
    | failed e m' => rfl
    | outOfFuel => rfl

/-- Without a line that is printed there is none that does not fit. -/
theorem limits (h : Silent x) (P : Value → Machine → Prop) (m : Machine) : Limits P x m := by
  refine ⟨fun m' hm' => .of_same (h.sink m m' hm').1 (h.sink m m' hm').2, ?_⟩
  intro _ total hsize
  have hcapped : x (m.capped total) = _ := h.other m (m.sink.capped total)
  rw [hcapped]
  have hsink := h.sink m
  cases ho : x m with
  | done a m' =>
    rw [ho] at hsink
    have hs := (hsink m' rfl).1
    rw [← hs]
    exact .done (by rw [hs]; exact hsize)
  | failed e m' =>
    rw [ho] at hsink
    have hs := (hsink m' rfl).1
    rw [← hs]
    exact .failed (by rw [hs]; exact hsize)
  | outOfFuel => exact .outOfFuel

end Silent

/-! ## Steps that do not print -/

/-- A computation that first looks at the machine, though not at its sink. -/
theorem Silent.reading {ι : Type} (read : Machine → ι) {y : ι → Eval α}
    (h : ∀ m s, read { m with sink := s } = read m) (hy : ∀ i, Silent (y i)) :
    Silent fun m => y (read m) m := by
  refine ⟨fun m m' hm => (hy _).sink m m' hm, fun m s => ?_⟩
  simp only [h]
  exact (hy _).other m s

theorem Silent.storing (r : α × Store) :
    Silent fun m => .done r.1 { m with store := r.2 } := by
  refine ⟨fun m m' hm => ?_, fun m s => rfl⟩
  cases hm
  exact ⟨rfl, rfl⟩

theorem silent_currentFrame : Silent currentFrame :=
  .reading (fun m => m.current) (y := pure) (fun _ _ => rfl) .ret

theorem silent_distanceOf? (id : RefId) : Silent (distanceOf? id) :=
  .reading (fun m => m.locals.find? id) (y := pure) (fun _ _ => rfl) .ret

theorem silent_field? (o : ObjectId) (name : String) : Silent (field? o name) :=
  .reading (fun m => m.store.field? o name) (y := pure) (fun _ _ => rfl) .ret

theorem silent_childFrame (e : FrameId) : Silent (childFrame e) :=
  .reading (fun m => m.store.addFrame (some e)) (fun _ _ => rfl) .storing

theorem silent_defineIn (f : FrameId) (name : String) (v : Value) : Silent (defineIn f name v) :=
  .reading (fun m => ((), m.store.define f name v)) (fun _ _ => rfl) .storing

theorem silent_define (name : String) (v : Value) : Silent (define name v) :=
  .reading (fun m => ((), m.store.define m.current name v)) (fun _ _ => rfl) .storing

theorem silent_setField (o : ObjectId) (name : String) (v : Value) : Silent (setField o name v) :=
  .reading (fun m => ((), m.store.setField o name v)) (fun _ _ => rfl) .storing

theorem silent_newObject (c : Class) : Silent (newObject c) :=
  .reading (fun m => (Value.object c m.store.addObject.1, m.store.addObject.2)) (fun _ _ => rfl)
    .storing

theorem silent_found (v : Option Value) (p : RuntimeProblem) : Silent (found v p) := by
  cases v with
  | some v => exact .ret v
  | none => exact .fail p

theorem silent_readAt (f : FrameId) (d : Nat) (name : String) : Silent (readAt f d name) :=
  .reading (fun m => m.store.getAt? f d name) (fun _ _ => rfl) fun v => silent_found v _

theorem silent_writeTo (target : Option FrameId) (name : String) (v : Value) (p : RuntimeProblem) :
    Silent (writeTo target name v p) := by
  cases target with
  | some f => exact silent_defineIn f name v
  | none => exact .fail p

/-- References go one of two ways, whatever is done with what they refer to. -/
theorem Silent.byDistance (id : RefId) {near : Nat → Eval α} {far : Eval α}
    (hnear : ∀ d, Silent (near d)) (hfar : Silent far) :
    Silent fun m => match m.locals.find? id with
      | some d => near d m
      | none => far m := by
  refine ⟨fun m m' h => ?_, fun m s => ?_⟩
  · split at h
    · exact (hnear _).sink m m' h
    · exact hfar.sink m m' h
  · dsimp only
    cases m.locals.find? id with
    | some d => exact (hnear d).other m s
    | none => exact hfar.other m s

theorem silent_lookUp (id : RefId) (name : String) : Silent (lookUp id name) :=
  .byDistance id
    (fun d => .reading (fun m => m.store.getAt? m.current d name) (fun _ _ => rfl)
      fun v => silent_found v _)
    (.reading (fun m => m.store.get? m.globals name) (fun _ _ => rfl) fun v => silent_found v _)

theorem silent_assign (id : RefId) (name : String) (v : Value) : Silent (assign id name v) :=
  .byDistance id
    (fun d => .reading (fun m => m.store.ancestor? d m.current) (fun _ _ => rfl)
      fun target => silent_writeTo target _ _ _)
    (.reading (fun m => m.store.owner? m.globals name) (fun _ _ => rfl)
      fun target => silent_writeTo target _ _ _)

theorem silent_assignOutward (name : String) (v : Value) : Silent (assignOutward name v) :=
  .reading (fun m => m.store.owner? m.current name) (fun _ _ => rfl)
    fun target => silent_writeTo target _ _ _

theorem silent_defineAll (f : FrameId) (params : List Token) (args : List Value) :
    Silent (defineAll f params args) := by
  induction params generalizing args with
  | nil => exact .ret ()
  | cons p ps ih =>
    cases args with
    | nil => exact .ret ()
    | cons v vs =>
      rw [defineAll]
      exact .bind (silent_defineIn f _ v) fun _ => ih vs

theorem silent_bindMethod (f : Closure) (receiver : Value) : Silent (bindMethod f receiver) := by
  unfold bindMethod
  exact .bind (silent_childFrame _) fun _ => .bind (silent_defineIn _ _ _) fun _ => .ret _

theorem silent_property (c : Class) (o : ObjectId) (name : String) :
    Silent (property c o name) := by
  unfold property
  refine .bind (silent_field? o name) fun v => ?_
  cases v with
  | some v => exact .ret v
  | none =>
    cases c.findMethod? name with
    | none => exact .fail _
    | some f => exact .bind (silent_bindMethod f _) fun _ => .ret _

theorem silent_superMethod (id : RefId) (name : String) : Silent (superMethod id name) := by
  unfold superMethod
  refine .bind (silent_distanceOf? id) fun d => ?_
  cases d with
  | none => exact .fail _
  | some d =>
    refine .bind silent_currentFrame fun frame => .bind (silent_readAt _ _ _) fun c =>
      .bind (silent_readAt _ _ _) fun receiver => ?_
    split
    · split
      · exact .bind (silent_bindMethod _ _) fun _ => .ret _
      · exact .fail _
    · exact .fail _

theorem silent_declareClass (name : String) (superclass : Option Class)
    (methods : List FunctionDecl) : Silent (declareClass name superclass methods) := by
  unfold declareClass
  refine .bind (silent_define _ _) fun _ => .bind silent_currentFrame fun here => ?_
  cases superclass with
  | none => exact silent_assignOutward _ _
  | some c =>
    exact .bind (silent_childFrame _) fun _ => .bind (silent_defineIn _ _ _) fun _ =>
      silent_assignOutward _ _

/-! ## Computations one after the other -/

namespace Limits

variable {P P' : Value → Machine → Prop} {x : Eval α} {f : α → Eval β} {m : Machine}

theorem imp (h : Limits P x m) (hP : ∀ v m, P v m → P' v m) : Limits P' x m :=
  ⟨h.writesOn, fun hroom total hsize => (h.capped hroom total hsize).imp hP⟩

theorem exhausted : Limits P (Computation.exhausted : Eval α) m :=
  ⟨fun _ h => (nomatch h), fun _ _ _ => .outOfFuel⟩

theorem bind (hx : Limits P x m) (hf : ∀ a m', x m = .done a m' → Limits P (f a) m') :
    Limits P (x >>= f) m := by
  have hfirst := hx.writesOn
  refine ⟨fun m'' h => ?_, fun hroom total hsize => ?_⟩
  · rw [Computation.bind_apply] at h
    cases ho : x m with
    | done a m' =>
      rw [ho] at h hfirst
      exact (hfirst m' rfl).trans ((hf a m' ho).writesOn m'' h)
    | failed e m' =>
      rw [ho] at h hfirst
      exact hfirst m'' h
    | outOfFuel =>
      rw [ho] at h
      cases h
  · have hcapped := hx.capped hroom total hsize
    rw [Computation.bind_apply, Computation.bind_apply]
    generalize ho : x m = o at hfirst hcapped
    generalize x (m.capped total) = o' at hcapped
    cases hcapped with
    | @done a m' hsize' =>
      have hm' := hfirst m' rfl
      rw [← hm'.current]
      exact (hf a m' ho).capped (hm'.room hroom) total hsize'
    | failed hsize' => exact .failed hsize'
    | outOfFuel => exact .outOfFuel
    | @full _ m₁ v hv hover hbytes =>
      refine .full hv hover fun m'' h => ?_
      cases o with
      | done a m' =>
        -- What runs on without a limit writes behind the line that does not fit.
        obtain ⟨bytes, hs⟩ := hbytes m' rfl
        obtain ⟨bytes', hs'⟩ := ((hf a m' ho).writesOn m'' h).sink ((hfirst m' rfl).room hroom)
        exact ⟨bytes ++ bytes', by rw [hs', hs, Sink.append_append]⟩
      | failed e m' => exact hbytes m'' h
      | outOfFuel => cases h

theorem inFrame {frame : FrameId} (h : Limits P x { m with current := frame }) :
    Limits P (inFrame frame x) m := by
  refine ⟨fun m' hm' => ?_, fun hroom total hsize => ?_⟩
  · have hin := h.writesOn
    unfold Eval.inFrame at hm'
    cases ho : x { m with current := frame } with
    | done a m₁ =>
      simp only [ho] at hm' hin
      cases hm'
      exact ⟨(hin m₁ rfl).sink, rfl⟩
    | failed e m₁ =>
      simp only [ho] at hm' hin
      cases hm'
      exact ⟨(hin m₁ rfl).sink, rfl⟩
    | outOfFuel =>
      simp only [ho] at hm'
      cases hm'
  · have hcapped := h.capped hroom total hsize
    unfold Eval.inFrame
    change Capped P total m.current _ (match x (({ m with current := frame } : Machine).capped total) with
      | .done a m₁ => _
      | .failed e m₁ => _
      | .outOfFuel => _)
    generalize x { m with current := frame } = o at hcapped
    generalize x (({ m with current := frame } : Machine).capped total) = o' at hcapped
    cases hcapped with
    | @done a m₁ hsize' => exact .done (m := { m₁ with current := m.current }) hsize'
    | @failed e m₁ hsize' => exact .failed (m := { m₁ with current := m.current }) hsize'
    | outOfFuel => exact .outOfFuel
    | full hv hover hbytes =>
      refine .full hv hover fun m' h' => ?_
      cases o with
      | done a m₁ => cases h'; exact hbytes m₁ rfl
      | failed e m₁ => cases h'; exact hbytes m₁ rfl
      | outOfFuel => cases h'

end Limits

/-! ## Natives -/

theorem silent_clock (args : List Value) : Silent (onWorld (Native.clock.run args)) := by
  refine ⟨fun m m' h => ?_, fun m s => rfl⟩
  cases h
  exact ⟨rfl, rfl⟩

theorem silent_str (args : List Value) : Silent (onWorld (Native.str.run args)) :=
  .ret (Value.string (args.headD .nil).text)

/-- How printing ends once the line is in the sink. -/
def printed (m : Machine) : Outcome Machine Value :=
  if m.sink.flushFails then .failed (.sink .flushFailed) m else .done .nil m

theorem eq_of_printed {m m' : Machine} (h : (printed m).state? = some m') : m' = m := by
  unfold printed at h
  split at h <;> exact (Option.some.inj h).symm

theorem capped_printed {P : Value → Machine → Prop} {total : Nat} {here : FrameId} {m : Machine}
    (h : m.sink.written.size ≤ total) :
    Capped P total here (printed m) (printed (m.capped total)) := by
  have hflush : (m.capped total).sink.flushFails = m.sink.flushFails := rfl
  unfold printed
  rw [hflush]
  split
  · exact .failed h
  · exact .done h

theorem print_of_write {args : List Value} {m : Machine} {s s' : Sink}
    (htext : m.sink.write (args.headD .nil).text.toUTF8 = (s, none))
    (hnewline : s.write "\n".toUTF8 = (s', none)) :
    onWorld (Native.print.run args) m = printed { m with sink := s' } := by
  simp only [onWorld, Native.run, World.printLine, Computation.bind_apply, World.write, htext,
    hnewline, World.flush, Sink.flush, printed]
  cases s'.flushFails <;> rfl

theorem print_of_text_full {args : List Value} {m : Machine} {s : Sink} {p : SinkProblem}
    (htext : m.sink.write (args.headD .nil).text.toUTF8 = (s, some p)) :
    onWorld (Native.print.run args) m = .failed (.sink p) { m with sink := s } := by
  simp only [onWorld, Native.run, World.printLine, Computation.bind_apply, World.write, htext]

theorem print_of_newline_full {args : List Value} {m : Machine} {s s' : Sink} {p : SinkProblem}
    (htext : m.sink.write (args.headD .nil).text.toUTF8 = (s, none))
    (hnewline : s.write "\n".toUTF8 = (s', some p)) :
    onWorld (Native.print.run args) m = .failed (.sink p) { m with sink := s' } := by
  simp only [onWorld, Native.run, World.printLine, Computation.bind_apply, World.write, htext,
    hnewline]

/-- Without a limit the whole line is written. -/
theorem print_of_room_none {m : Machine} (h : m.sink.room = none) (args : List Value) :
    onWorld (Native.print.run args) m =
      printed { m with sink := m.sink.append (args.headD .nil).line } := by
  have htext := Sink.write_of_room_none h (args.headD .nil).text.toUTF8
  have hnewline := Sink.write_of_room_none
    (s := m.sink.append (args.headD .nil).text.toUTF8) h "\n".toUTF8
  rw [print_of_write htext hnewline, Sink.append_append]
  rfl

/-- A line that fits is written as it is without a limit. -/
theorem print_capped {m : Machine} {total : Nat} {args : List Value}
    (h : m.sink.written.size + (args.headD .nil).line.size ≤ total) :
    onWorld (Native.print.run args) (m.capped total) =
      printed (Machine.capped total { m with sink := m.sink.append (args.headD .nil).line }) := by
  rw [Value.line, ByteArray.size_append] at h
  have htext : (m.capped total).sink.write (args.headD .nil).text.toUTF8 = _ :=
    Sink.write_capped (by omega)
  have hnewline : ((m.sink.append (args.headD .nil).text.toUTF8).capped total).write "\n".toUTF8 = _ :=
    Sink.write_capped (by rw [Sink.size_append]; omega)
  rw [print_of_write htext hnewline, Sink.append_append]
  rfl

/-- Of a line that does not fit so much is written as fits, be it text or text and newline that does
not. -/
theorem print_overflow {m : Machine} {total : Nat} {args : List Value}
    (h : m.Overflows total (args.headD .nil)) :
    onWorld (Native.print.run args) (m.capped total) = .failed (.sink .full)
      { m with sink := (m.sink.append (args.headD .nil).line).cut total } := by
  obtain ⟨hfits, hexceeds⟩ := h
  rw [Value.line, ByteArray.size_append] at hexceeds
  rw [Value.line, ← Sink.append_append]
  by_cases hle : m.sink.written.size + (args.headD .nil).text.toUTF8.size ≤ total
  · have htext : (m.capped total).sink.write (args.headD .nil).text.toUTF8 = _ :=
      Sink.write_capped hle
    refine print_of_newline_full htext (Sink.write_capped_of_lt ?_ ?_)
    · rw [Sink.size_append]
      exact hle
    · rw [Sink.size_append]
      omega
  · have htext : (m.capped total).sink.write (args.headD .nil).text.toUTF8 = _ :=
      Sink.write_capped_of_lt hfits (by omega)
    rw [Sink.cut_append (by rw [Sink.size_append]; omega)]
    exact print_of_text_full htext

theorem current_of_onWorld {x : Computation World α} {m m' : Machine}
    (h : (onWorld x m).state? = some m') : m'.current = m.current := by
  unfold onWorld at h
  split at h <;> cases h <;> rfl

theorem limits_print (args : List Value) (m : Machine) :
    Limits (fun v m' => v = args.headD .nil ∧ m' = m) (onWorld (Native.print.run args)) m := by
  refine ⟨fun m' hm' => ⟨fun hroom => ?_, current_of_onWorld hm'⟩, fun hroom total hsize => ?_⟩
  · rw [print_of_room_none hroom] at hm'
    rw [eq_of_printed hm']
    exact ⟨_, rfl⟩
  · rw [print_of_room_none hroom]
    by_cases hle : m.sink.written.size + (args.headD .nil).line.size ≤ total
    · rw [print_capped hle]
      refine capped_printed ?_
      rw [Sink.size_append]
      exact hle
    · have hover : m.Overflows total (args.headD .nil) := ⟨hsize, by omega⟩
      rw [print_overflow hover]
      refine .full ⟨rfl, rfl⟩ hover fun m' hm' => ⟨.empty, ?_⟩
      rw [eq_of_printed hm', Sink.append_empty]

end Eval
end Lox
