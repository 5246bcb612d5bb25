import Lox.Session

/-!
# Lox.Proofs.Fuel

More fuel never changes a finished result (`Session.run_of_le`). So a run of a source ends in one way
at most, whatever fuel it is given (`Session.Ends.unique`).
-/

namespace Lox

namespace Eval

open Lox.Computation

variable {α β : Type}

/-- Where the first computation does not run out of fuel, the second ends as it does. -/
def LeadsTo (x x' : Eval α) : Prop := ∀ m, x m = .outOfFuel ∨ x' m = x m

theorem LeadsTo.refl (x : Eval α) : LeadsTo x x := fun _ => .inr rfl

theorem LeadsTo.trans {x y z : Eval α} (h : LeadsTo x y) (h' : LeadsTo y z) : LeadsTo x z := by
  intro m
  obtain hx | hx := h m
  · exact .inl hx
  · obtain hy | hy := h' m
    · exact .inl (hx.symm.trans hy)
    · exact .inr (hy.trans hx)

theorem leadsTo_exhausted (x : Eval α) : LeadsTo exhausted x := fun _ => .inl rfl

theorem leadsTo_bind {x x' : Eval α} {k k' : α → Eval β} (h : LeadsTo x x')
    (hk : ∀ a, LeadsTo (k a) (k' a)) : LeadsTo (x >>= k) (x' >>= k') := by
  intro m
  rw [bind_apply, bind_apply]
  obtain hx | hx := h m
  · rw [hx]
    exact .inl rfl
  · rw [hx]
    cases x m with
    | done a m => exact hk a m
    | _ => exact .inr rfl

theorem leadsTo_inFrame (frame : FrameId) {x x' : Eval α} (h : LeadsTo x x') :
    LeadsTo (inFrame frame x) (inFrame frame x') := by
  intro m
  unfold inFrame
  obtain hx | hx := h { m with current := frame }
  · rw [hx]
    exact .inl rfl
  · rw [hx]
    exact .inr rfl

/-- What one more unit of fuel leaves as it is. -/
structure Fueled (n : Nat) : Prop where
  evaluate : ∀ e, LeadsTo (evaluate n e) (evaluate (n + 1) e)
  evaluateOption : ∀ e, LeadsTo (evaluateOption n e) (evaluateOption (n + 1) e)
  evaluateAll : ∀ es, LeadsTo (evaluateAll n es) (evaluateAll (n + 1) es)
  execute : ∀ s, LeadsTo (execute n s) (execute (n + 1) s)
  executeAll : ∀ ss, LeadsTo (executeAll n ss) (executeAll (n + 1) ss)
  invoke : ∀ f args, LeadsTo (invoke n f args) (invoke (n + 1) f args)
  call : ∀ c args, LeadsTo (call n c args) (call (n + 1) c args)
  callFunction : ∀ f args, LeadsTo (callFunction n f args) (callFunction (n + 1) f args)

theorem fueled_zero : Fueled 0 := by
  constructor
  all_goals
    intros
    simp only [evaluate_zero, evaluateOption_zero, evaluateAll_zero, execute_zero, executeAll_zero,
      invoke_zero, call_zero, callFunction_zero]
    exact leadsTo_exhausted _

namespace Fueled

variable {n : Nat} (ih : Fueled n)
include ih

theorem evaluate_succ (e : Expr) :
    LeadsTo (Eval.evaluate (n + 1) e) (Eval.evaluate (n + 1 + 1) e) := by
  cases e with
  | constant | var | thisRef | superRef | unparsed =>
    simp only [Eval.evaluate]
    exact .refl _
  | grouping e =>
    simp only [Eval.evaluate]
    exact ih.evaluate e
  | unary operator e =>
    simp only [Eval.evaluate]
    exact leadsTo_bind (ih.evaluate e) fun _ => .refl _
  | binary l operator r =>
    simp only [Eval.evaluate]
    exact leadsTo_bind (ih.evaluate l) fun _ => leadsTo_bind (ih.evaluate r) fun _ => .refl _
  | logical l operator r =>
    simp only [Eval.evaluate]
    refine leadsTo_bind (ih.evaluate l) fun v => ?_
    split
    · exact .refl _
    · exact ih.evaluate r
  | assign id name value =>
    simp only [Eval.evaluate]
    exact leadsTo_bind (ih.evaluate value) fun _ => .refl _
  | call callee paren args =>
    simp only [Eval.evaluate]
    exact leadsTo_bind (ih.evaluate callee) fun f => leadsTo_bind (ih.evaluateAll args) fun vs =>
      ih.invoke f vs
  | get object name =>
    simp only [Eval.evaluate]
    exact leadsTo_bind (ih.evaluate object) fun _ => .refl _
  | set object name value =>
    simp only [Eval.evaluate]
    refine leadsTo_bind (ih.evaluate object) fun v => ?_
    cases v with
    | object c o => exact leadsTo_bind (ih.evaluate value) fun _ => .refl _
    | _ => exact .refl _

theorem evaluateOption_succ (e : Option Expr) :
    LeadsTo (Eval.evaluateOption (n + 1) e) (Eval.evaluateOption (n + 1 + 1) e) := by
  cases e with
  | none =>
    simp only [Eval.evaluateOption]
    exact .refl _
  | some e =>
    simp only [Eval.evaluateOption]
    exact ih.evaluate e

theorem evaluateAll_succ (es : List Expr) :
    LeadsTo (Eval.evaluateAll (n + 1) es) (Eval.evaluateAll (n + 1 + 1) es) := by
  cases es with
  | nil =>
    simp only [Eval.evaluateAll]
    exact .refl _
  | cons e es =>
    simp only [Eval.evaluateAll]
    exact leadsTo_bind (ih.evaluate e) fun _ => leadsTo_bind (ih.evaluateAll es) fun _ => .refl _

theorem execute_succ (s : Stmt) :
    LeadsTo (Eval.execute (n + 1) s) (Eval.execute (n + 1 + 1) s) := by
  cases s with
  | expression e =>
    simp only [Eval.execute]
    exact leadsTo_bind (ih.evaluate e) fun _ => .refl _
  | var name init =>
    simp only [Eval.execute]
    exact leadsTo_bind (ih.evaluateOption init) fun _ => .refl _
  | block body =>
    simp only [Eval.execute]
    exact leadsTo_bind (.refl _) fun _ => leadsTo_bind (.refl _) fun frame =>
      leadsTo_inFrame frame (ih.executeAll body)
  | ifThen condition yes =>
    simp only [Eval.execute]
    refine leadsTo_bind (ih.evaluate condition) fun v => ?_
    split
    · exact ih.execute yes
    · exact .refl _
  | ifElse condition yes no =>
    simp only [Eval.execute]
    refine leadsTo_bind (ih.evaluate condition) fun v => ?_
    split
    · exact ih.execute yes
    · exact ih.execute no
  | loop condition body =>
    simp only [Eval.execute]
    refine leadsTo_bind (ih.evaluate condition) fun v => ?_
    split
    · refine leadsTo_bind (ih.execute body) fun flow => ?_
      cases flow with
      | normal => exact ih.execute (.loop condition body)
      | returned r => exact .refl _
    · exact .refl _
  | function decl =>
    simp only [Eval.execute]
    exact .refl _
  | ret keyword value =>
    simp only [Eval.execute]
    exact leadsTo_bind (ih.evaluateOption value) fun _ => .refl _
  | cls name superclass methods =>
    cases superclass with
    | none =>
      simp only [Eval.execute]
      exact .refl _
    | some superclass =>
      simp only [Eval.execute]
      exact leadsTo_bind (ih.evaluate superclass) fun _ => .refl _

theorem executeAll_succ (ss : List Stmt) :
    LeadsTo (Eval.executeAll (n + 1) ss) (Eval.executeAll (n + 1 + 1) ss) := by
  cases ss with
  | nil =>
    simp only [Eval.executeAll]
    exact .refl _
  | cons s ss =>
    simp only [Eval.executeAll]
    refine leadsTo_bind (ih.execute s) fun flow => ?_
    cases flow with
    | normal => exact ih.executeAll ss
    | returned v => exact .refl _

theorem invoke_succ (f : Value) (args : List Value) :
    LeadsTo (Eval.invoke (n + 1) f args) (Eval.invoke (n + 1 + 1) f args) := by
  simp only [Eval.invoke]
  cases f.callable? with
  | none => exact .refl _
  | some c =>
    dsimp only
    split
    · exact ih.call c args
    · exact .refl _

theorem call_succ (c : Callable) (args : List Value) :
    LeadsTo (Eval.call (n + 1) c args) (Eval.call (n + 1 + 1) c args) := by
  cases c with
  | native f =>
    simp only [Eval.call]
    exact .refl _
  | function f =>
    simp only [Eval.call]
    exact ih.callFunction f args
  | cls c =>
    simp only [Eval.call]
    refine leadsTo_bind (.refl _) fun object => ?_
    cases c.findMethod? initializerName with
    | none => exact .refl _
    | some init =>
      exact leadsTo_bind (.refl _) fun bound =>
        leadsTo_bind (ih.callFunction bound args) fun _ => .refl _

theorem callFunction_succ (f : Closure) (args : List Value) :
    LeadsTo (Eval.callFunction (n + 1) f args) (Eval.callFunction (n + 1 + 1) f args) := by
  simp only [Eval.callFunction]
  exact leadsTo_bind (.refl _) fun frame => leadsTo_bind (.refl _) fun _ =>
    leadsTo_bind (leadsTo_inFrame frame (ih.executeAll f.decl.body)) fun _ => .refl _

end Fueled

theorem fueled (n : Nat) : Fueled n := by
  induction n with
  | zero => exact fueled_zero
  | succ n ih =>
    exact
      { evaluate := ih.evaluate_succ
        evaluateOption := ih.evaluateOption_succ
        evaluateAll := ih.evaluateAll_succ
        execute := ih.execute_succ
        executeAll := ih.executeAll_succ
        invoke := ih.invoke_succ
        call := ih.call_succ
        callFunction := ih.callFunction_succ }

theorem leadsTo_interpret {n n' : Nat} (h : n ≤ n') (program : List Stmt) (locals : Locals) :
    LeadsTo (interpret n program locals) (interpret n' program locals) := by
  have hsucc (n : Nat) (ss : List Stmt) : LeadsTo (runAll n ss) (runAll (n + 1) ss) := by
    induction ss with
    | nil => exact .refl _
    | cons s ss ih => exact leadsTo_bind ((fueled n).execute s) fun _ => ih
  refine leadsTo_bind (.refl _) fun _ => ?_
  induction h with
  | refl => exact .refl _
  | step _ ih => exact ih.trans (hsucc _ program)

end Eval

/-! ## Sessions -/

namespace Session

/-- More fuel than suffices changes nothing. -/
theorem run_of_le {n n' : Nat} (h : n ≤ n') {s : Session} {source : String}
    {r : Session × RunStatus} (hr : s.run n source = some r) : s.run n' source = some r := by
  rw [← hr]
  unfold run runBy at hr ⊢
  cases hc : s.check source with
  | mk s₁ program =>
    rw [hc] at hr
    cases program with
    | none => rfl
    | some program =>
      dsimp only at hr ⊢
      obtain hnone | heq := Eval.leadsTo_interpret h program (.ofProgram program) s₁.machine
      · rw [hnone] at hr
        cases hr
      · rw [heq]

/-- The run of a source comes to an end, for enough fuel. -/
def Ends (s : Session) (source : String) (s' : Session) (status : RunStatus) : Prop :=
  ∃ fuel, s.run fuel source = some (s', status)

theorem Ends.unique {s s₁ s₂ : Session} {source : String} {status₁ status₂ : RunStatus}
    (h₁ : s.Ends source s₁ status₁) (h₂ : s.Ends source s₂ status₂) :
    s₁ = s₂ ∧ status₁ = status₂ := by
  obtain ⟨n₁, h₁⟩ := h₁
  obtain ⟨n₂, h₂⟩ := h₂
  have h₁ := run_of_le (Nat.le_max_left n₁ n₂) h₁
  rw [run_of_le (Nat.le_max_right n₁ n₂) h₂] at h₁
  cases h₁
  exact ⟨rfl, rfl⟩

end Session
end Lox
