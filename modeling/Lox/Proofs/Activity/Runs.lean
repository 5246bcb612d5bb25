import Lox.Proofs.Scope.Checked

/-!
# Lox.Proofs.Activity.Runs

What a session runs. A source that the checks reject changes no machine; for any other one the
statements of the program run with the distances of its references, and the session has the machine on
which they end, well or not.
-/

namespace Lox

/-- The state in which a computation ends, well or not. -/
def Outcome.state? {σ α : Type} : Outcome σ α → Option σ
  | .done _ s | .failed _ s => some s
  | .outOfFuel => none

theorem Outcome.state?_of_done {σ α : Type} {o : Outcome σ α} {a : α} {s : σ}
    (h : o = .done a s) : o.state? = some s := by
  rw [h]
  rfl

/-- The machine on which the statements of a program start. -/
def Machine.loaded (program : List Stmt) (m : Machine) : Machine :=
  { m with locals := (Locals.ofProgram program).merge m.locals }

namespace Session

theorem run_of_check_none {s s₁ : Session} {source : String} (h : s.check source = (s₁, none))
    (fuel : Nat) : s.run fuel source = some (s₁, .staticError) := by
  unfold run runBy
  rw [h]

/-- A source that passes the checks is run with the distances of its references. -/
theorem run_of_check {s s₁ : Session} {source : String} {program : List Stmt}
    (h : s.check source = (s₁, some program)) (fuel : Nat) :
    s.run fuel source =
      match Eval.runAll fuel program
        { s₁.machine with locals := (Locals.ofProgram program).merge s₁.machine.locals } with
      | .done _ m => some ({ s₁ with machine := m }, .ok)
      | .failed e m =>
        some ({ s₁ with machine := m, diagnostics := s₁.diagnostics.report e }, .runtimeError)
      | .outOfFuel => none := by
  have hinterpret : Eval.interpret fuel program (.ofProgram program) s₁.machine =
      Eval.runAll fuel program
        { s₁.machine with locals := (Locals.ofProgram program).merge s₁.machine.locals } := rfl
  unfold run runBy
  rw [h]
  dsimp only
  rw [hinterpret]
  cases Eval.runAll fuel program _ <;> rfl

/-- The session once its program has ended. -/
def ended (s : Session) : Outcome Machine Unit → Option (Session × RunStatus)
  | .done _ m => some ({ s with machine := m }, .ok)
  | .failed e m =>
    some ({ s with machine := m, diagnostics := s.diagnostics.report e }, .runtimeError)
  | .outOfFuel => none

theorem run_eq_ended {s s₁ : Session} {source : String} {program : List Stmt}
    (hc : s.check source = (s₁, some program)) (fuel : Nat) :
    s.run fuel source = s₁.ended (Eval.runAll fuel program (s₁.machine.loaded program)) := by
  rw [run_of_check hc]
  unfold Machine.loaded
  cases Eval.runAll fuel program _ <;> rfl

theorem state?_of_ended {s s' : Session} {o : Outcome Machine Unit} {status : RunStatus}
    (h : s.ended o = some (s', status)) : o.state? = some s'.machine := by
  cases o <;> cases h <;> rfl

theorem nextId_of_ended {s s' : Session} {o : Outcome Machine Unit} {status : RunStatus}
    (h : s.ended o = some (s', status)) : s'.nextId = s.nextId := by
  cases o <;> cases h <;> rfl

theorem machine_eq_of_check {s s₁ : Session} {source : String} {program : Option (List Stmt)}
    (h : s.check source = (s₁, program)) : s₁.machine = s.machine := by
  have hmachine := machine_check s source
  rwa [h] at hmachine

/-- A run leaves the machine as it was, or it is the run of a program. -/
theorem machine_of_run {s s' : Session} {fuel : Nat} {source : String} {status : RunStatus}
    (h : s.run fuel source = some (s', status)) :
    s'.machine = s.machine ∨ ∃ s₁ program, s.check source = (s₁, some program) ∧
      (Eval.runAll fuel program (s₁.machine.loaded program)).state? = some s'.machine := by
  rcases hc : s.check source with ⟨s₁, _ | program⟩
  · rw [run_of_check_none hc] at h
    cases h
    exact .inl (machine_eq_of_check hc)
  · rw [run_eq_ended hc] at h
    exact .inr ⟨s₁, program, rfl, state?_of_ended h⟩

end Session
end Lox
