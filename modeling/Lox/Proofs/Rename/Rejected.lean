import Lox.Proofs.Lexical.Sessions
import Lox.Proofs.Rename.Sessions

/-!
# Lox.Proofs.Rename.Rejected

A source that is rejected for a static error has no effect but to be held against the sources after
it, and to use up numbers of references. So a session without the rejected sources goes as it went with
them (`rejected_has_no_effect`): between requests the two sessions are twins, and the one may hold
static errors that the other does not hold only where nothing runs until the next reset.
-/

namespace Lox

namespace Session

/-- The source was not run: a static error was held. -/
def Report.isRejected (r : Report) : Bool := r.status == .staticError

/-- The requests without the sources that come to be rejected. -/
def withoutRejected (fuel : Nat) : Session → List Request → List Request
  | _, [] => []
  | s, .reset :: rest => .reset :: s.reset.withoutRejected fuel rest
  | s, .run source :: rest =>
    match s.run fuel source with
    | none => .run source :: rest
    | some (s, .staticError) => s.withoutRejected fuel rest
    | some (s, _) => .run source :: s.withoutRejected fuel rest

/-- The second session has gone as the first one, but without the sources that were rejected. -/
structure Spared (w : Renaming) (s s' : Session) : Prop where
  twin : s.Twin w s'
  diagnostics : s.diagnostics.hasStaticError = true ∨ s'.diagnostics = s.diagnostics

namespace Spared

variable {w : Renaming} {s s' s₁ : Session} {source : String}

theorem reset (h : Spared w s s') : Spared w s.reset s'.reset :=
  ⟨⟨h.twin.machine, h.twin.left, h.twin.right⟩, .inr rfl⟩

/-- A rejected source leaves a static error behind. -/
theorem rejected (h : Spared w s s') (hc : s.check source = (s₁, none)) :
    ∃ w', Spared w' s₁ s' := by
  have hmachine := machine_check s source
  rw [hc] at hmachine
  obtain ⟨w', -, htwin⟩ := h.twin.skip hmachine (nextId_le_of_check hc) rfl (Nat.le_refl _)
  exact ⟨w', htwin, .inl (hasStaticError_of_check_none hc)⟩

/-- A source that runs in the first session runs alike in the second. -/
theorem run (h : Spared w s s') {program : List Stmt} (hc : s.check source = (s₁, some program))
    (fuel : Nat) :
    (s.run fuel source = none ∧ s'.run fuel source = none) ∨
      ∃ w' s₂ s₂' status, s.run fuel source = some (s₂, status) ∧
        s'.run fuel source = some (s₂', status) ∧ status ≠ .staticError ∧ Spared w' s₂ s₂' ∧
        s₂'.diagnostics = s₂.diagnostics := by
  have hstatic := (check_eq_some.1 hc).1
  have hd : s'.diagnostics = s.diagnostics := by
    refine h.diagnostics.resolve_left fun hheld => ?_
    rw [hstatic] at hheld
    cases hheld
  obtain hnone | ⟨w', s₂, s₂', status, es, -, hs, hs', hne, htwin, hes, hes'⟩ :=
    h.twin.run_of_check_some hc (hd ▸ hstatic) fuel
  · exact .inl hnone
  · have heq : s₂'.diagnostics = s₂.diagnostics := by rw [hes, hes', hd]
    exact .inr ⟨w', s₂, s₂', status, hs, hs', hne, ⟨htwin, .inr heq⟩, heq⟩

/-- What the second session reports is what the first one does but for the rejected sources. -/
theorem reports_withoutRejected (fuel : Nat) (requests : List Request) :
    ∀ {w : Renaming} {s s' : Session}, Spared w s s' →
    s'.reports (fun program => Eval.interpret fuel program (.ofProgram program)) Machine.toWorld
        (s.withoutRejected fuel requests) =
      (s.reports (fun program => Eval.interpret fuel program (.ofProgram program)) Machine.toWorld
        requests).filter fun r => !r.any Report.isRejected := by
  induction requests with
  | nil => exact fun _ => rfl
  | cons request rest ih =>
    intro w s s' h
    cases request with
    | reset => exact ih h.reset
    | run source =>
      rcases hc : s.check source with ⟨s₁, _ | program⟩
      · have hrun := run_of_check_none hc fuel
        obtain ⟨w', h'⟩ := h.rejected hc
        have hreports := ih h'
        simp only [withoutRejected, hrun]
        unfold Session.run at hrun
        rw [hreports, Session.reports, hrun]
        rfl
      · obtain ⟨hrun, hrun'⟩ | ⟨w', s₂, s₂', status, hrun, hrun', hne, h', hd⟩ := h.run hc fuel
        · simp only [withoutRejected, hrun]
          unfold Session.run at hrun hrun'
          simp only [Session.reports, hrun, hrun']
          rfl
        · have hreports := ih h'
          have hkept : (status == RunStatus.staticError) = false := by simpa using hne
          have hrequests : s.withoutRejected fuel (.run source :: rest) =
              .run source :: s₂.withoutRejected fuel rest := by
            cases status with
            | staticError => exact absurd rfl hne
            | _ => simp only [withoutRejected, hrun]
          unfold Session.run at hrun hrun'
          rw [hrequests]
          simp only [Session.reports, hrun, hrun', hreports, h'.twin.machine.world, hd]
          simp [Report.isRejected, hkept]

end Spared

end Session

/-- A rejected source has no effect: it leaves the machine as it was, its output included, and a
session without the rejected sources reports of the other ones what it reported with them. -/
theorem rejected_has_no_effect :
    (∀ (s s' : Session) (fuel : Nat) (source : String),
      s.run fuel source = some (s', .staticError) → s'.machine = s.machine) ∧
    ∀ (sink : Sink) (clock : Nat → Float) (requests : List Session.Request) (fuel : Nat),
      Eval.reports sink clock ((Session.new sink clock).withoutRejected fuel requests) fuel =
        (Eval.reports sink clock requests fuel).filter
          fun r => !r.any Session.Report.isRejected := by
  refine ⟨fun s s' fuel source h => Session.machine_eq_of_rejected h, ?_⟩
  intro sink clock requests fuel
  have hnew : Session.Spared .initial (.new sink clock) (.new sink clock) :=
    ⟨Session.twin_new sink clock, .inr rfl⟩
  exact hnew.reports_withoutRejected fuel requests

theorem exists_check_paren (sink : Sink) (clock : Nat → Float) :
    ∃ s, (Session.new sink clock).check ")" = (s, none) :=
  ⟨_, Prod.ext rfl (by cbv)⟩

/-- The requests that are left when an unopened parenthesis is rejected before a reset and a line. -/
theorem withoutRejected_paren :
    (Session.new {} fun _ => 0).withoutRejected 9 [.run ")", .reset, .run "print(\"a\");"] =
      [.reset, .run "print(\"a\");"] := by cbv

/-- An unopened parenthesis is rejected, and the line that is printed after a reset is printed
without it too. -/
theorem rejected_has_no_effect_paren :
    ∃ s, (Session.new {} fun _ => 0).run 9 ")" = some (s, .staticError) ∧
      s.machine = .initial {} (fun _ => 0) ∧
      Eval.reports {} (fun _ => 0) [.reset, .run "print(\"a\");"] 9 =
        (Eval.reports {} (fun _ => 0) [.run ")", .reset, .run "print(\"a\");"] 9).filter
          (fun r => !r.any Session.Report.isRejected) ∧
      (Eval.reports {} (fun _ => 0) [.reset, .run "print(\"a\");"] 9).map
        (Option.map fun r => (r.status, r.printed)) = [some (.ok, "a\n".toUTF8)] := by
  obtain ⟨s, hcheck⟩ := exists_check_paren {} fun _ => 0
  have hrun := Session.run_of_check_none hcheck 9
  refine ⟨s, hrun, rejected_has_no_effect.1 _ _ _ _ hrun, ?_, by cbv⟩
  rw [← rejected_has_no_effect.2, withoutRejected_paren]

end Lox
