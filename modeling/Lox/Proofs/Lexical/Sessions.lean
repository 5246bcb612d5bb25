import Lox.Proofs.Lexical.Simulation
import Lox.Proofs.Scope.Checked

/-!
# Lox.Proofs.Lexical.Sessions

Lexical scoping of whole sessions: for whatever a user asks of a session, the evaluator on frames and
the lexical one report the same (`reports_eq`). Between requests the machines agree at the top level,
and each program that passes the static checks is linked when it runs.
-/

namespace Lox

/-! ## What a user sees -/

inductive Session.Request where
  | run (source : String)
  /-- Forgets the errors held. -/
  | reset

/-- What is to be seen after a run: how it ended, all that has been printed, and the errors held. -/
structure Session.Report where
  status : RunStatus
  printed : ByteArray
  errors : List Error

/-- The reports on the runs that are asked for. A run that does not end has none, and nothing comes
after it. -/
def Session.reports {μ : Type} (interpret : List Stmt → Computation μ Unit) (outside : μ → World) :
    Session μ → List Session.Request → List (Option Session.Report)
  | _, [] => []
  | s, .reset :: rest => s.reset.reports interpret outside rest
  | s, .run source :: rest =>
    match s.runBy interpret source with
    | none => [none]
    | some (s, status) =>
      some { status := status, printed := (outside s.machine).sink.written,
             errors := s.diagnostics.errors } :: s.reports interpret outside rest

/-- The reports of a new session that runs programs on frames. -/
def Eval.reports (sink : Sink) (clock : Nat → Float) (requests : List Session.Request)
    (fuel : Nat) : List (Option Session.Report) :=
  (Session.new sink clock).reports (fun program => Eval.interpret fuel program (.ofProgram program))
    Machine.toWorld requests

/-- The reports of a new session that runs programs by their text alone. -/
def Lexical.reports (sink : Sink) (clock : Nat → Float) (requests : List Session.Request)
    (fuel : Nat) : List (Option Session.Report) :=
  (Session.ofMachine (Lexical.Machine.initial sink clock)).reports (Lexical.Eval.interpret fuel)
    Lexical.Machine.toWorld requests

namespace Lexical

/-! ## Programs -/

/-- The top level is always the same: its variables are global. -/
theorem at_top (w : Plan) : At w .outside [] w.globals .top where
  aligned := by
    refine ⟨(List.getElem?_eq_some_iff.1 w.root).1, ⟨fun _ => rfl, fun _ => rfl⟩, fun _ _ => rfl,
      fun y d hd => ?_⟩
    cases hd
  carries := trivial
  settled := Scope.settled_nil
  owned := fun _ hs => absurd rfl (w.isLocal _ hs).2
  isTop := ⟨fun _ => rfl, fun _ => rfl⟩

theorem Stmt.after_nil (s : Stmt) : s.after [] = [] := by
  cases s <;> rfl

section

variable {w : Plan} {t : Table} {m : Lox.Machine} {x : Machine}

/-- The statements of a program end alike one by one. -/
theorem matches_runAll (fuel : Nat) : ∀ {program : List Stmt} {w : Plan} {m : Lox.Machine}
    {x : Machine}, Agree w w.globals m x → t.Le w.table → Stmt.AllLinked t {} [] program →
    Matches w (some w.globals) w.globals (fun _ _ _ => True) (Lox.Eval.runAll fuel program m)
      (Eval.interpret fuel program x)
  | [], w, _, _, h, _, _ => ⟨w, .refl w, h, trivial⟩
  | s :: ss, w, m, x, h, ht, hl => by
    simp only [Lox.Eval.runAll, Eval.interpret]
    refine ((simAt fuel).execute h (at_top w) ht hl.1).bind fun w' _ _ m' x' hg h' _ => ?_
    have hrest := hl.2
    rw [Stmt.after_nil, ← hg.toLe.globals] at *
    exact matches_runAll fuel h' (ht.trans hg.toLe.table) hrest

end

/-! ## Sessions -/

/-- Two sessions between requests. -/
structure Paired (w : Plan) (s : Session) (s' : Session Machine) : Prop where
  agree : Agree w w.globals s.machine s'.machine
  diagnostics : s'.diagnostics = s.diagnostics
  errors : ∀ e ∈ s.diagnostics.errors, e.isInternal = false
  nextId : s'.nextId = s.nextId
  next : w.table.next = s.nextId

/-- Static checks are the same whatever a program is run on. -/
theorem check_eq_of_machine {μ ν : Type} (s : Session μ) (m : ν) (source : String) :
    Session.check { machine := m, diagnostics := s.diagnostics, nextId := s.nextId } source =
      ({ machine := m, diagnostics := (s.check source).1.diagnostics,
         nextId := (s.check source).1.nextId }, (s.check source).2) := by
  unfold Session.check
  dsimp only
  split
  · rfl
  · split <;> rfl

namespace Paired

variable {w : Plan} {s s₁ : Session} {s' : Session Machine} {source : String}

theorem eq_mk (h : Paired w s s') :
    s' = { machine := s'.machine, diagnostics := s.diagnostics, nextId := s.nextId } := by
  rw [← h.diagnostics, ← h.nextId]

theorem reset (h : Paired w s s') : Paired w s.reset s'.reset :=
  ⟨h.agree, rfl, List.forall_mem_nil _, h.nextId, h.next⟩

theorem errors_check (h : Paired w s s') (source : String) :
    ∀ e ∈ (s.check source).1.diagnostics.errors, e.isInternal = false :=
  fun e he => (Session.isStatic_of_mem_check s source e he).elim (h.errors e)
    Error.isInternal_of_isStatic

/-- A source that does not pass the checks uses up numbers of references, no more. -/
theorem of_check_none (h : Paired w s s') (hc : s.check source = (s₁, none)) :
    ∃ s₁', s'.check source = (s₁', none) ∧ ∃ w', Paired w' s₁ s₁' := by
  have hnext : s.nextId ≤ s₁.nextId := by
    have := Session.nextId_check s source
    rw [hc] at this
    rw [this]
    exact Nat.le_add_right _ _
  have hmachine : s₁.machine = s.machine := by
    have := Session.machine_check s source
    rwa [hc] at this
  have herrors := h.errors_check source
  rw [hc] at herrors
  rw [h.eq_mk, check_eq_of_machine s s'.machine source, hc]
  refine ⟨_, rfl, ?_⟩
  have hle : w.table.next ≤ s₁.nextId := by
    rw [h.next]
    exact hnext
  let t : Table := ⟨w.table.locals, s₁.nextId, fun id hid => w.table.fresh id (Nat.le_trans hle hid)⟩
  have ht : w.table.Le t := ⟨hle, fun _ _ => rfl⟩
  refine ⟨w.withTable t, ?_, rfl, herrors, rfl, rfl⟩
  have hlocals : { s.machine with locals := t.locals } = s.machine := by
    show { s.machine with locals := w.table.locals } = s.machine
    rw [← h.agree.locals]
  have hagree := h.agree.withTable ht
  rw [hlocals, ← hmachine] at hagree
  exact hagree

/-- A program that passes the checks is linked when its distances have been added. -/
theorem of_check_some {program : List Stmt} (h : Paired w s s')
    (hc : s.check source = (s₁, some program)) :
    ∃ s₁', s'.check source = (s₁', some program) ∧ s₁'.diagnostics = s₁.diagnostics ∧
      s₁'.nextId = s₁.nextId ∧ ∃ w', w'.table.next = s₁.nextId ∧
        Agree w' w'.globals
          { s₁.machine with locals := (Locals.ofProgram program).merge s₁.machine.locals }
          s₁'.machine ∧
        Stmt.AllLinked w'.table {} [] program := by
  have hmachine : s₁.machine = s.machine := by
    have := Session.machine_check s source
    rwa [hc] at this
  obtain ⟨t, hlocals, hnext, hle, hlinked⟩ := Session.exists_table_of_check hc w.table h.next
  rw [h.eq_mk, check_eq_of_machine s s'.machine source, hc]
  refine ⟨_, rfl, rfl, rfl, w.withTable t, hnext, ?_, hlinked⟩
  have hagree := h.agree.withTable hle
  rw [hlocals, ← h.agree.locals] at hagree
  rw [hmachine]
  exact hagree

/-- Both sessions run a source alike. -/
theorem runBy (h : Paired w s s') (fuel : Nat) (source : String) :
    (s.run fuel source = none ∧ s'.runBy (Eval.interpret fuel) source = none) ∨
      ∃ s₁ s₁' status w', s.run fuel source = some (s₁, status) ∧
        s'.runBy (Eval.interpret fuel) source = some (s₁', status) ∧ Paired w' s₁ s₁' := by
  unfold Session.run Session.runBy
  cases hc : s.check source with
  | mk s₁ program =>
    cases program with
    | none =>
      obtain ⟨s₁', hc', w', hpaired⟩ := h.of_check_none hc
      rw [hc']
      exact .inr ⟨s₁, s₁', .staticError, w', rfl, rfl, hpaired⟩
    | some program =>
      obtain ⟨s₁', hc', hd, hn, w', hnext, hagree, hlinked⟩ := h.of_check_some hc
      have herrors := h.errors_check source
      rw [hc] at herrors
      rw [hc']
      have hrun := matches_runAll fuel hagree (.refl _) hlinked
      have hframes : Lox.Eval.interpret fuel program (.ofProgram program) s₁.machine =
          Lox.Eval.runAll fuel program
            { s₁.machine with locals := (Locals.ofProgram program).merge s₁.machine.locals } := rfl
      simp only [hframes]
      revert hrun
      cases Lox.Eval.runAll fuel program
        { s₁.machine with locals := (Locals.ofProgram program).merge s₁.machine.locals } with
      | done _ m =>
        cases Eval.interpret fuel program s₁'.machine with
        | done _ x =>
          rintro ⟨w'', hg, ha, -⟩
          rw [← hg.toLe.globals] at ha
          refine .inr ⟨_, _, .ok, w'', rfl, rfl, ha, hd, herrors, hn, ?_⟩
          rw [hg.sameTable]
          exact hnext
        | _ => exact False.elim
      | failed e m =>
        cases Eval.interpret fuel program s₁'.machine with
        | failed e' x =>
          rintro ⟨⟨rfl, hinternal⟩, w'', hg, ha⟩
          rw [← hg.toLe.globals] at ha
          refine .inr ⟨_, _, .runtimeError, w'', rfl, rfl, ha, ?_, ?_, hn, ?_⟩
          · simp only [hd]
          · intro e he
            obtain he | he := List.mem_append.1 he
            · exact herrors e he
            · rw [List.mem_singleton.1 he]
              exact hinternal
          · rw [hg.sameTable]
            exact hnext
        | _ => exact False.elim
      | outOfFuel =>
        cases Eval.interpret fuel program s₁'.machine with
        | outOfFuel => exact fun _ => .inl ⟨rfl, rfl⟩
        | _ => exact False.elim

theorem reports (fuel : Nat) (requests : List Session.Request) : ∀ {w : Plan} {s : Session}
    {s' : Session Machine}, Paired w s s' →
    s.reports (fun program => Lox.Eval.interpret fuel program (.ofProgram program))
        Lox.Machine.toWorld requests =
      s'.reports (Eval.interpret fuel) Machine.toWorld requests := by
  induction requests with
  | nil => exact fun _ => rfl
  | cons request rest ih =>
    intro w s s' h
    cases request with
    | reset => exact ih h.reset
    | run source =>
      have hrun := h.runBy fuel source
      unfold Session.run at hrun
      simp only [Session.reports]
      obtain ⟨hrun, hrun'⟩ | ⟨s₁, s₁', status, w', hrun, hrun', h'⟩ := hrun
      · rw [hrun, hrun']
      · rw [hrun, hrun']
        simp only [ih h', h'.agree.world, h'.diagnostics]

end Paired

/-! ## New sessions -/

/-- A plan of no memory but the globals. -/
def Plan.initial : Plan where
  links := [none]
  slots := []
  filled := fun _ => False
  globals := 0
  table := .empty
  nodup := .nil
  isLocal := nofun
  root := rfl
  filled_lt := nofun

theorem natives_rel (w : Plan) (name : String) :
    Option.Rel (ValueRel w) (Native.bindings.find? name) (Native.bindings.find? name) := by
  have hfold (ns : List Native) (bs : Bindings Value) (bs' : Bindings (Value Names))
      (h : Option.Rel (ValueRel w) (bs.find? name) (bs'.find? name)) :
      Option.Rel (ValueRel w)
        ((ns.foldl (fun bs n => bs.insert n.name (.native n)) bs).find? name)
        ((ns.foldl (fun bs n => bs.insert n.name (.native n)) bs').find? name) := by
    induction ns generalizing bs bs' with
    | nil => exact h
    | cons n ns ih =>
      refine ih _ _ ?_
      rw [Bindings.find?_insert, Bindings.find?_insert]
      by_cases hn : n.name = name
      · rw [if_pos hn, if_pos hn]
        exact .some (.native n)
      · rw [if_neg hn, if_neg hn]
        exact h
  exact hfold Native.all .empty .empty .none

theorem paired_new (sink : Sink) (clock : Nat → Float) :
    Paired .initial (.new sink clock) (.ofMachine (.initial sink clock)) where
  agree :=
    { world := rfl
      current := rfl
      globals := rfl
      locals := rfl
      frames := rfl
      enclosing := fun f => by
        cases f with
        | zero => rfl
        | succ f => rfl
      cells := rfl
      slot := fun _ _ _ _ hc => hc.elim
      global := natives_rel .initial
      size := rfl
      fields := fun _ => .none }
  diagnostics := rfl
  errors := List.forall_mem_nil _
  nextId := rfl
  next := rfl

/-- Lexical scoping: whatever is asked of a session, running on frames is reported as running by the
text alone is, for any amount of fuel. So when all runs of the one come to an end, all runs of the
other do, with the same reports. -/
theorem reports_eq (sink : Sink) (clock : Nat → Float) (requests : List Session.Request) :
    (∀ fuel, Lox.Eval.reports sink clock requests fuel = reports sink clock requests fuel) ∧
      ∀ ended : List Session.Report,
        (∃ fuel, Lox.Eval.reports sink clock requests fuel = ended.map some) ↔
          ∃ fuel, reports sink clock requests fuel = ended.map some := by
  have heq (fuel : Nat) :
      Lox.Eval.reports sink clock requests fuel = reports sink clock requests fuel :=
    (paired_new sink clock).reports fuel requests
  refine ⟨heq, fun ended => ?_⟩
  simp only [heq]

end Lexical
end Lox
