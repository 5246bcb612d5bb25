import Mathlib
import Lox.Proofs.Output.Capped
import Lox.Proofs.Rename.Sessions

/-!
# Lox.Proofs.Output.Cut

Runs before a sink that becomes full. Such a run prints the first bytes of what the run without a limit
prints, as many as there is room for. If that is not all of them the run ends where the line that does
not fit is printed, and nothing else is begun after that (`Session.run_withRoom`).
-/

namespace Lox

/-- What an activity comes to: itself, and what the activities that it comes to are made of. -/
inductive Leads (a : Activity) (m : Machine) : Activity → Machine → Prop
  | here : Leads a m a m
  | step {a' m' a'' m''} : Leads a m a' m' → Enters a' m' a'' m'' → Leads a m a'' m''

/-- The activity comes to print the value on the second machine. -/
def Prints (a : Activity) (m : Machine) (v : Value) (m' : Machine) : Prop :=
  ∃ n args, v = args.headD .nil ∧ Leads a m (.call (n + 1) (.native .print) args) m'

open Eval

/-! ## Whole evaluations -/

section

variable {a : Activity} {m : Machine}

/-- The output of all that an activity comes to, and that something holds of the results. -/
def Eval.LimitsTo (a : Activity) (m : Machine) {α : Type} (Q : α → Prop) (x : Eval α)
    (m' : Machine) : Prop :=
  Limits (Prints a m) x m' ∧ ∀ v m'', x m' = .done v m'' → Q v

theorem Eval.Silent.limitsTo {α : Type} {x : Eval α} (h : Silent x) {m' : Machine} :
    LimitsTo a m (fun _ => True) x m' := ⟨h.limits _ _, fun _ _ _ => trivial⟩

theorem rules_limits (a : Activity) (m : Machine) :
    Rules (Leads a m) (fun _ => True) (fun _ => True) (LimitsTo a m) where
  enters he h := h.step he
  data _ := trivial
  env _ := trivial
  ret hv := ⟨(Silent.ret _).limits _ _, fun _ _ hd => by cases hd; exact hv⟩
  fail p := ⟨(Silent.fail p).limits _ _, fun _ _ hd => nomatch hd⟩
  exhausted := ⟨.exhausted, fun _ _ hd => nomatch hd⟩
  bind {_ _ _ _ x _ m₁} hx hf := by
    have hcur {v m'} (hd : x m₁ = .done v m') : m'.current = m₁.current :=
      (hx.1.writesOn m' (by rw [hd]; rfl)).current
    refine ⟨.bind hx.1 fun v m' hd => (hf v m' hd (hcur hd) (hx.2 v m' hd)).1, fun v m'' hd => ?_⟩
    obtain ⟨u, m', hu, hv⟩ := Computation.exists_of_bind hd
    exact (hf u m' hu (hcur hu) (hx.2 u m' hu)).2 v m'' hv
  inFrame {_ _ x f m'} _ hx := by
    refine ⟨.inFrame hx.1, fun v m'' hd => ?_⟩
    unfold inFrame at hd
    cases ho : x { m' with current := f } with
    | done u m₁ =>
      simp only [ho] at hd
      cases hd
      exact hx.2 v m₁ ho
    | failed e m₁ => simp only [ho] at hd; cases hd
    | outOfFuel => simp only [ho] at hd; cases hd
  currentFrame _ := silent_currentFrame.limitsTo
  childFrame _ := (silent_childFrame _).limitsTo
  lookUp id name _ := (silent_lookUp id name).limitsTo
  this _ := (silent_readAt _ _ _).limitsTo
  assign _ _ _ := (silent_assign _ _ _).limitsTo
  define _ _ _ := (silent_define _ _).limitsTo
  function _ _ := (silent_define _ _).limitsTo
  native {n f args m'} h _ := by
    cases f with
    | clock => exact (silent_clock args).limitsTo
    | str => exact (silent_str args).limitsTo
    | print =>
      refine ⟨(limits_print args m').imp ?_, fun _ _ _ => trivial⟩
      rintro v m'' ⟨hv, rfl⟩
      exact ⟨n, args, hv, h⟩
  defineAll _ _ _ := (silent_defineAll _ _ _).limitsTo
  declareClass _ _ _ := (silent_declareClass _ _ _).limitsTo
  newObject _ := (silent_newObject _).limitsTo
  initializer _ _ _ _ _ := (silent_bindMethod _ _).limitsTo
  property _ _ _ := (silent_property _ _ _).limitsTo
  superMethod _ _ := (silent_superMethod _ _).limitsTo
  setField _ _ := (silent_setField _ _ _).limitsTo

end

/-! ## What a run with a limit comes to -/

/-- There is no limit, and no more written than so many bytes. -/
structure Machine.Fits (total : Nat) (m : Machine) : Prop where
  room : m.sink.room = none
  size : m.sink.written.size ≤ total

/-- Where a computation comes to a good end with a limit, it does so without. -/
theorem Eval.Limits.of_done {α : Type} {P : Value → Machine → Prop} {x : Eval α} {m m'' : Machine}
    {v : α} {total : Nat} (h : Limits P x m) (hm : m.Fits total)
    (hd : x (m.capped total) = .done v m'') :
    ∃ m', x m = .done v m' ∧ m'.Fits total ∧ m'' = m'.capped total := by
  have hcapped := h.capped hm.room total hm.size
  rw [hd] at hcapped
  obtain ⟨m', hm', rfl, hsize⟩ := hcapped.of_done
  have hroom := (h.writesOn m' (by rw [hm']; rfl)).room hm.room
  exact ⟨m', hm', ⟨hroom, hsize⟩, rfl⟩

section

variable {n : Nat} {m m'' : Machine} {total : Nat} (hm : m.Fits total)
include hm

theorem execute_of_capped {s : Stmt} {flow : Flow}
    (h : execute n s (m.capped total) = .done flow m'') :
    ∃ m', execute n s m = .done flow m' ∧ m'.Fits total ∧ m'' = m'.capped total :=
  (((rules_limits _ m).holdsAt n).execute .here trivial).1.of_done hm h

theorem evaluate_of_capped {e : Expr} {v : Value}
    (h : evaluate n e (m.capped total) = .done v m'') :
    ∃ m', evaluate n e m = .done v m' ∧ m'.Fits total ∧ m'' = m'.capped total :=
  (((rules_limits _ m).holdsAt n).evaluate .here trivial).1.of_done hm h

theorem evaluateAll_of_capped {es : List Expr} {vs : List Value}
    (h : evaluateAll n es (m.capped total) = .done vs m'') :
    ∃ m', evaluateAll n es m = .done vs m' ∧ m'.Fits total ∧ m'' = m'.capped total :=
  (((rules_limits _ m).holdsAt n).evaluateAll .here trivial).1.of_done hm h

theorem Eval.Silent.of_capped {α : Type} {x : Eval α} (hx : Silent x) {v : α}
    (h : x (m.capped total) = .done v m'') :
    ∃ m', x m = .done v m' ∧ m'.Fits total ∧ m'' = m'.capped total :=
  (hx.limits (fun _ _ => True) m).of_done hm h

/-- What an activity is made of with a limit it is made of without. -/
theorem enters_of_capped {a a' : Activity} (h : Enters a (m.capped total) a' m'') :
    ∃ m', Enters a m a' m' ∧ m'.Fits total ∧ m'' = m'.capped total := by
  cases h with
  | programHead => exact ⟨m, .programHead, hm, rfl⟩
  | programTail hd =>
    obtain ⟨m', hd', hm', rfl⟩ := execute_of_capped hm hd
    exact ⟨m', .programTail hd', hm', rfl⟩
  | statement => exact ⟨m, .statement, hm, rfl⟩
  | expression => exact ⟨m, .expression, hm, rfl⟩
  | var => exact ⟨m, .var, hm, rfl⟩
  | @block _ _ _ frame _ hf =>
    obtain ⟨m', hf', hm', rfl⟩ := (silent_childFrame _).of_capped hm hf
    exact ⟨{ m' with current := frame }, .block hf', ⟨hm'.room, hm'.size⟩, rfl⟩
  | ifCondition => exact ⟨m, .ifCondition, hm, rfl⟩
  | ifYes hd ht =>
    obtain ⟨m', hd', hm', rfl⟩ := evaluate_of_capped hm hd
    exact ⟨m', .ifYes hd' ht, hm', rfl⟩
  | elseCondition => exact ⟨m, .elseCondition, hm, rfl⟩
  | elseYes hd ht =>
    obtain ⟨m', hd', hm', rfl⟩ := evaluate_of_capped hm hd
    exact ⟨m', .elseYes hd' ht, hm', rfl⟩
  | elseNo hd ht =>
    obtain ⟨m', hd', hm', rfl⟩ := evaluate_of_capped hm hd
    exact ⟨m', .elseNo hd' ht, hm', rfl⟩
  | loopCondition => exact ⟨m, .loopCondition, hm, rfl⟩
  | loopBody hd ht =>
    obtain ⟨m', hd', hm', rfl⟩ := evaluate_of_capped hm hd
    exact ⟨m', .loopBody hd' ht, hm', rfl⟩
  | loopAgain hd ht hb =>
    obtain ⟨m₁, hd', hm₁, rfl⟩ := evaluate_of_capped hm hd
    obtain ⟨m', hb', hm', rfl⟩ := execute_of_capped hm₁ hb
    exact ⟨m', .loopAgain hd' ht hb', hm', rfl⟩
  | ret => exact ⟨m, .ret, hm, rfl⟩
  | baseClass => exact ⟨m, .baseClass, hm, rfl⟩
  | superclass => exact ⟨m, .superclass, hm, rfl⟩
  | derivedClass hd =>
    obtain ⟨m', hd', hm', rfl⟩ := evaluate_of_capped hm hd
    exact ⟨m', .derivedClass hd', hm', rfl⟩
  | firstStatement => exact ⟨m, .firstStatement, hm, rfl⟩
  | moreStatements hd =>
    obtain ⟨m', hd', hm', rfl⟩ := execute_of_capped hm hd
    exact ⟨m', .moreStatements hd', hm', rfl⟩
  | grouping => exact ⟨m, .grouping, hm, rfl⟩
  | unary => exact ⟨m, .unary, hm, rfl⟩
  | binaryLeft => exact ⟨m, .binaryLeft, hm, rfl⟩
  | binaryRight hd =>
    obtain ⟨m', hd', hm', rfl⟩ := evaluate_of_capped hm hd
    exact ⟨m', .binaryRight hd', hm', rfl⟩
  | logicalLeft => exact ⟨m, .logicalLeft, hm, rfl⟩
  | logicalRight hd ht =>
    obtain ⟨m', hd', hm', rfl⟩ := evaluate_of_capped hm hd
    exact ⟨m', .logicalRight hd' ht, hm', rfl⟩
  | assignValue => exact ⟨m, .assignValue, hm, rfl⟩
  | assign hd =>
    obtain ⟨m', hd', hm', rfl⟩ := evaluate_of_capped hm hd
    exact ⟨m', .assign hd', hm', rfl⟩
  | callee => exact ⟨m, .callee, hm, rfl⟩
  | arguments hd =>
    obtain ⟨m', hd', hm', rfl⟩ := evaluate_of_capped hm hd
    exact ⟨m', .arguments hd', hm', rfl⟩
  | invoke hd hvs =>
    obtain ⟨m₁, hd', hm₁, rfl⟩ := evaluate_of_capped hm hd
    obtain ⟨m', hvs', hm', rfl⟩ := evaluateAll_of_capped hm₁ hvs
    exact ⟨m', .invoke hd' hvs', hm', rfl⟩
  | getObject => exact ⟨m, .getObject, hm, rfl⟩
  | setObject => exact ⟨m, .setObject, hm, rfl⟩
  | setValue hd =>
    obtain ⟨m', hd', hm', rfl⟩ := evaluate_of_capped hm hd
    exact ⟨m', .setValue hd', hm', rfl⟩
  | option => exact ⟨m, .option, hm, rfl⟩
  | firstArgument => exact ⟨m, .firstArgument, hm, rfl⟩
  | moreArguments hd =>
    obtain ⟨m', hd', hm', rfl⟩ := evaluate_of_capped hm hd
    exact ⟨m', .moreArguments hd', hm', rfl⟩
  | call hc hlen => exact ⟨m, .call hc hlen, hm, rfl⟩
  | function => exact ⟨m, .function, hm, rfl⟩
  | initializer ho hi hb =>
    obtain ⟨m₁, ho', hm₁, rfl⟩ := (silent_newObject _).of_capped hm ho
    obtain ⟨m', hb', hm', rfl⟩ := (silent_bindMethod _ _).of_capped hm₁ hb
    exact ⟨m', .initializer ho' hi hb', hm', rfl⟩
  | @body _ _ _ _ frame _ _ hf hp =>
    obtain ⟨m₁, hf', hm₁, rfl⟩ := (silent_childFrame _).of_capped hm hf
    obtain ⟨m', hp', hm', rfl⟩ := (silent_defineAll _ _ _).of_capped hm₁ hp
    exact ⟨{ m' with current := frame }, .body hf' hp', ⟨hm'.room, hm'.size⟩, rfl⟩

/-- Whatever an activity comes to with a limit it comes to without, and all that has been written by
then is within the limit. -/
theorem leads_of_capped {a a' : Activity} (h : Leads a (m.capped total) a' m'') :
    ∃ m', Leads a m a' m' ∧ m'.Fits total ∧ m'' = m'.capped total := by
  induction h with
  | here => exact ⟨m, .here, hm, rfl⟩
  | step _ he ih =>
    obtain ⟨m₁, hl, hm₁, rfl⟩ := ih
    obtain ⟨m', he', hm', rfl⟩ := enters_of_capped hm₁ he
    exact ⟨m', hl.step he', hm', rfl⟩

end

/-! ## Programs -/

/-- A run of the program that starts on the machine, with room for no more than so many bytes in all,
ends where a line does not fit. -/
structure StopsAtPrint (fuel : Nat) (program : List Stmt) (start : Machine) (total : Nat)
    (last : Machine) : Prop where
  /-- The last machine is the one on which a line is printed that does not fit, but for what there is
  room for of that line. -/
  print : ∃ v m, Prints (.program fuel program) start v m ∧ m.Overflows total v ∧
    last = { m with sink := (m.sink.append v.line).cut total, current := start.current }
  /-- Whatever is begun is begun before that. -/
  before : ∀ a m', Leads (.program fuel program) (start.capped total) a m' →
    ∃ m, Leads (.program fuel program) start a m ∧ m.Fits total ∧ m' = m.capped total

/-- The outcome, on a machine with a limit. -/
def Outcome.capped {α : Type} (total : Nat) : Outcome Machine α → Outcome Machine α
  | .done a m => .done a (m.capped total)
  | .failed e m => .failed e (m.capped total)
  | .outOfFuel => .outOfFuel

/-- How a program ends with a limit, if it ends without. -/
theorem runAll_capped {fuel : Nat} {program : List Stmt} {start last : Machine} {total : Nat}
    (hstart : start.Fits total) (hend : (runAll fuel program start).state? = some last) :
    start.WritesOn last ∧
      (last.sink.written.size ≤ total ∧
        runAll fuel program (start.capped total) = (runAll fuel program start).capped total ∨
      total < last.sink.written.size ∧ ∃ m, StopsAtPrint fuel program start total m ∧
        m.sink.written = last.sink.written.extract 0 total ∧
        runAll fuel program (start.capped total) = .failed (.sink .full) m) := by
  have h := ((rules_limits (.program fuel program) start).runAll .here trivial).1
  refine ⟨h.writesOn last hend, ?_⟩
  have hcapped := h.capped hstart.room total hstart.size
  generalize ho : runAll fuel program start = o at hend hcapped
  generalize ho' : runAll fuel program (start.capped total) = o' at hcapped
  cases hcapped with
  | done hsize => cases hend; exact .inl ⟨hsize, rfl⟩
  | failed hsize => cases hend; exact .inl ⟨hsize, rfl⟩
  | outOfFuel => cases hend
  | @full _ m v hv hover hbytes =>
    obtain ⟨bytes, hs⟩ := hbytes last hend
    have hline : total < (m.sink.append v.line).written.size := by
      rw [Sink.size_append]
      exact hover.exceeds
    have hcut := Sink.cut_append (Nat.le_of_lt hline) bytes
    refine .inr ⟨?_, _, ⟨⟨v, m, hv, hover, rfl⟩, fun a m' => leads_of_capped hstart⟩, ?_, rfl⟩
    · rw [hs, Sink.size_append]
      omega
    · rw [hs]
      exact (congrArg Sink.written hcut).symm

/-! ## Sessions -/

namespace Session

/-- The session with a sink that takes so many bytes more. -/
def withRoom (n : Nat) (s : Session) : Session :=
  { s with machine := { s.machine with sink := { s.machine.sink with room := some n } } }

theorem check_withRoom (n : Nat) (s : Session) (source : String) :
    (s.withRoom n).check source =
      ((s.check source).1.withRoom n, (s.check source).2) := by
  have hm := machine_check s source
  have h := Lexical.check_eq_of_machine s (s.withRoom n).machine source
  refine h.trans ?_
  simp only [withRoom, hm]

theorem ended_capped {s s' : Session} {o : Outcome Machine Unit} {status : RunStatus}
    (h : s.ended o = some (s', status)) (total : Nat) :
    s.ended (o.capped total) = some ({ s' with machine := s'.machine.capped total }, status) := by
  cases o <;> cases h <;> rfl

theorem run_withRoom_eq {s s₁ : Session} {source : String} {program : List Stmt}
    (hc : s.check source = (s₁, some program)) (fuel n : Nat) :
    (s.withRoom n).run fuel source = s₁.ended (runAll fuel program
      ((s₁.machine.loaded program).capped (s₁.machine.sink.written.size + n))) := by
  have hcheck := check_withRoom n s source
  rw [hc] at hcheck
  have hloaded : (s₁.withRoom n).machine.loaded program =
      (s₁.machine.loaded program).capped (s₁.machine.sink.written.size + n) := by
    simp only [withRoom, Machine.loaded, Machine.capped, Sink.capped, Nat.add_sub_cancel_left]
  rw [run_eq_ended hcheck, hloaded]
  cases runAll fuel program _ <;> rfl

/-- Where the check fails nothing is run and nothing is written. -/
theorem run_withRoom_of_check_none {s s₁ : Session} {source : String}
    (hc : s.check source = (s₁, none)) (fuel n : Nat) :
    s₁.machine = s.machine ∧
      (s.withRoom n).run fuel source = some (s₁.withRoom n, .staticError) := by
  have hmachine := machine_check s source
  have hcheck := check_withRoom n s source
  rw [hc] at hmachine hcheck
  exact ⟨hmachine, run_of_check_none hcheck fuel⟩

/-- With a limit from the start, a session has the room that is left of it. -/
theorem withRoom_sub (s : Session) (total : Nat) :
    s.withRoom (total - s.machine.sink.written.size) =
      { s with machine := s.machine.capped total } := rfl

/-- A run before a sink with room for some bytes more writes the first bytes of what the run without a
limit writes. If that is all of them, nothing else is different. Otherwise the run ends with the error of
the sink, on the machine on which the line is printed that does not fit, and nothing that it comes to is
begun after that. -/
theorem run_withRoom {s s' : Session} {fuel : Nat} {source : String} {status : RunStatus}
    (hroom : s.machine.sink.room = none) (hrun : s.run fuel source = some (s', status)) :
    ∃ output, s'.machine.sink.written = s.machine.sink.written ++ output ∧
      ∀ n, ∃ s'' status', (s.withRoom n).run fuel source = some (s'', status') ∧
        s''.machine.sink.written =
          s.machine.sink.written ++ output.extract 0 (min n output.size) ∧
        (output.size ≤ n → s'' = s'.withRoom (n - output.size) ∧ status' = status) ∧
        (n < output.size → status' = .runtimeError ∧
          s''.diagnostics = s.diagnostics.report (.sink .full) ∧
          s''.diagnostics.hasRuntimeError = s.diagnostics.hasRuntimeError ∧
          ∃ program, (s.check source).2 = some program ∧
            StopsAtPrint fuel program (s.machine.loaded program)
              (s.machine.sink.written.size + n) s''.machine) := by
  cases hc : s.check source with
  | mk s₁ program =>
    cases program with
    | none =>
      rw [run_of_check_none hc] at hrun
      cases hrun
      have hmachine := (run_withRoom_of_check_none hc fuel 0).1
      refine ⟨.empty, by rw [hmachine, ByteArray.append_empty], fun n => ?_⟩
      refine ⟨_, _, (run_withRoom_of_check_none hc fuel n).2, ?_, fun _ => ⟨rfl, rfl⟩, fun h => ?_⟩
      · simp [withRoom, hmachine]
      · exact absurd h (Nat.not_lt_zero n)
    | some program =>
      obtain ⟨-, -, rfl⟩ := check_eq_some.1 hc
      rw [run_eq_ended hc] at hrun
      have hend : (runAll fuel program (s.machine.loaded program)).state? = some s'.machine :=
        state?_of_ended hrun
      have hfits (n : Nat) :
          (s.machine.loaded program).Fits (s.machine.sink.written.size + n) :=
        ⟨hroom, Nat.le_add_right _ _⟩
      obtain ⟨output, hsink⟩ := (runAll_capped (hfits 0) hend).1.sink hroom
      have hwritten : s'.machine.sink.written = s.machine.sink.written ++ output := by
        rw [hsink]
        rfl
      have hsize : s'.machine.sink.written.size = s.machine.sink.written.size + output.size := by
        rw [hwritten, ByteArray.size_append]
      refine ⟨output, hwritten, fun n => ?_⟩
      have hrun' := run_withRoom_eq hc fuel n
      obtain ⟨-, ⟨hle, heq⟩ | ⟨hlt, m, hstops, hcut, heq⟩⟩ :=
        runAll_capped (hfits n) hend
      · have hn : output.size ≤ n := by omega
        have hroom' : s.machine.sink.written.size + n - s'.machine.sink.written.size =
            n - output.size := by omega
        have hsame := withRoom_sub s' (s.machine.sink.written.size + n)
        rw [hroom'] at hsame
        refine ⟨s'.withRoom (n - output.size), status, ?_, ?_, fun _ => ⟨rfl, rfl⟩,
          fun h => absurd h (Nat.not_lt_of_le hn)⟩
        · rw [hsame]
          exact hrun'.trans ((congrArg (ended _) heq).trans (ended_capped hrun _))
        · rw [Nat.min_eq_right hn, ByteArray.extract_zero_size]
          exact hwritten
      · have hlt' : n < output.size := by omega
        refine ⟨_, _, hrun'.trans (congrArg (ended _) heq), ?_, fun h => ?_, fun _ => ?_⟩
        · rw [Nat.min_eq_left (Nat.le_of_lt hlt')]
          refine hcut.trans ?_
          rw [hwritten, ByteArray.extract_append, Nat.zero_sub, Nat.add_sub_cancel_left,
            Sink.extract_of_size_le (Nat.le_add_right _ _)]
        · omega
        · refine ⟨rfl, rfl, ?_, program, rfl, hstops⟩
          simp [Diagnostics.hasRuntimeError, Diagnostics.report, Error.isRuntime]

theorem exists_run_two_lines :
    ∃ s', (new {} fun _ => 0).run 9 "print(\"ab\");print(\"c\");" = some (s', .ok) ∧
      s'.machine.sink.written = "ab\nc\n".toUTF8 := by
  have h : ((new {} fun _ => 0).run 9 "print(\"ab\");print(\"c\");").map
      (fun r => (r.1.machine.sink.written, r.2)) = some ("ab\nc\n".toUTF8, .ok) := by cbv
  obtain ⟨⟨s', status⟩, hrun, hs'⟩ := Option.map_eq_some_iff.1 h
  obtain ⟨hwritten, rfl⟩ := Prod.mk.inj hs'
  exact ⟨s', hrun, hwritten⟩

/-- The sink has room for the text of a first line but not for its newline. -/
theorem run_withRoom_before_newline :
    ∃ s'', ((new {} fun _ => 0).withRoom 2).run 9 "print(\"ab\");print(\"c\");" =
        some (s'', .runtimeError) ∧
      s''.machine.sink.written = "ab".toUTF8 ∧ s''.diagnostics.hasRuntimeError = false := by
  obtain ⟨s', hrun, hwritten⟩ := exists_run_two_lines
  obtain ⟨output, hout, h⟩ := run_withRoom rfl hrun
  have houtput : output = "ab\nc\n".toUTF8 := by
    rw [← hwritten, hout]
    exact (ByteArray.empty_append).symm
  subst houtput
  obtain ⟨s'', status, hrun', hcut, -, hstopped⟩ := h 2
  obtain ⟨rfl, -, hruntime, -⟩ := hstopped (by decide)
  exact ⟨s'', hrun', hcut, hruntime⟩

end Session

end Lox
