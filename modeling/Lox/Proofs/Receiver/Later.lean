import Lox.Proofs.Receiver.Kept
import Lox.Proofs.Safety.Gate

/-!
# Lox.Proofs.Receiver.Later

The course of a session: which states of the machine come before which (`Later`). From the start of an
activity to its end, into each activity it is made of and out again, what is bound as `this` or `super`
in a frame stays bound (`Later.kept`).
-/

namespace Lox

open Eval

/-- The state in which an activity that starts on the machine ends, well or not. -/
def Activity.end? : Activity → Machine → Option Machine
  | .program n ss, m => (runAll n ss m).state?
  | .statement n s, m => (Eval.execute n s m).state?
  | .execute n s, m => (Eval.execute n s m).state?
  | .executeAll n ss, m => (Eval.executeAll n ss m).state?
  | .evaluate n e, m => (Eval.evaluate n e m).state?
  | .evaluateOption n e, m => (Eval.evaluateOption n e m).state?
  | .evaluateAll n es, m => (Eval.evaluateAll n es m).state?
  | .assign id name v, m => (Eval.assign id name.lexeme v m).state?
  | .declareClass name superclass methods, m =>
    (Eval.declareClass name.lexeme superclass methods m).state?
  | .invoke n f args, m => (Eval.invoke n f args m).state?
  | .call n c args, m => (Eval.call n c args m).state?
  | .callFunction n f args, m => (Eval.callFunction n f args m).state?

/-- The second state of a machine comes at the same time as the first or later. -/
inductive Later : Machine → Machine → Prop
  | refl (m : Machine) : Later m m
  | trans {m m' m''} : Later m m' → Later m' m'' → Later m m''
  /-- A program starts on the machine of its session. -/
  | start {s s' : Session} {source ss} : s.Reached → s.check source = (s', some ss) →
      Later s.machine
        { s'.machine with locals := (Locals.ofProgram ss).merge s'.machine.locals }
  /-- A part of an activity starts. -/
  | enter {a m a' m'} : Reached a m → Enters a m a' m' → Later m m'
  /-- An activity ends. -/
  | finish {a m m'} : Reached a m → a.end? m = some m' → Later m m'
  /-- After one of its parts an activity ends. -/
  | leave {a m a' m' m₁ m₂} : Reached a m → Enters a m a' m' → a'.end? m' = some m₁ →
      a.end? m = some m₂ → Later m₁ m₂

/-! ## Into an activity -/

/-- An assignment and a class declaration bind a name of a program. -/
def Activity.Named : Activity → Prop
  | .assign _ name _ | .declareClass name _ _ => name.IsName
  | _ => True

theorem named_of_enters {a a' : Activity} {m m' : Machine} (h : Enters a m a' m')
    (hs : a.Sound m) : a'.Named := by
  cases h with
  | baseClass => exact hs.isName_cls
  | derivedClass _ => exact hs.isName_cls
  | assign _ => exact hs.isName_assign
  | _ => trivial

theorem Reached.named {a : Activity} {m : Machine} (h : Reached a m) : a.Named := by
  cases h with
  | program => trivial
  | enter hr he => exact named_of_enters he (sound_of_reached hr)

/-- The parts of an activity start with the receivers that the activity starts with. -/
theorem kept_of_enters {a a' : Activity} {m m' : Machine} (h : Enters a m a' m')
    (hs : a.Sound m) : Kept m m' := by
  cases h with
  | programTail hdone =>
    exact ((keepsAt _).execute (sound_of_enters .statement (sound_of_enters .programHead hs))).of_done
      hdone
  | block hchild =>
    have hk := (keeps_childFrame _).of_done hchild
    exact hk.trans (.of_same rfl rfl)
  | ifYes hdone _ => exact ((keepsAt _).evaluate (sound_of_enters .ifCondition hs)).of_done hdone
  | elseYes hdone _ => exact ((keepsAt _).evaluate (sound_of_enters .elseCondition hs)).of_done hdone
  | elseNo hdone _ => exact ((keepsAt _).evaluate (sound_of_enters .elseCondition hs)).of_done hdone
  | loopBody hdone _ => exact ((keepsAt _).evaluate (sound_of_enters .loopCondition hs)).of_done hdone
  | loopAgain hdone ht hbody =>
    have hround := (keepsAt _).execute (sound_of_enters (.loopBody hdone ht) hs)
    exact (((keepsAt _).evaluate (sound_of_enters .loopCondition hs)).of_done hdone).trans
      (hround.of_done hbody)
  | derivedClass hdone =>
    exact ((keepsAt _).evaluate (sound_of_enters .superclass hs)).of_done hdone
  | moreStatements hdone =>
    exact ((keepsAt _).execute (sound_of_enters .firstStatement hs)).of_done hdone
  | binaryRight hdone =>
    exact ((keepsAt _).evaluate (sound_of_enters .binaryLeft hs)).of_done hdone
  | logicalRight hdone _ =>
    exact ((keepsAt _).evaluate (sound_of_enters .logicalLeft hs)).of_done hdone
  | assign hdone => exact ((keepsAt _).evaluate (sound_of_enters .assignValue hs)).of_done hdone
  | arguments hdone => exact ((keepsAt _).evaluate (sound_of_enters .callee hs)).of_done hdone
  | invoke hdone hargs =>
    have hrest := (keepsAt _).evaluateAll (sound_of_enters (.arguments hdone) hs)
    exact (((keepsAt _).evaluate (sound_of_enters .callee hs)).of_done hdone).trans
      (hrest.of_done hargs)
  | setValue hdone => exact ((keepsAt _).evaluate (sound_of_enters .setObject hs)).of_done hdone
  | moreArguments hdone =>
    exact ((keepsAt _).evaluate (sound_of_enters .firstArgument hs)).of_done hdone
  | initializer hobject _ hbound =>
    exact ((keeps_newObject _).of_done hobject).trans ((keeps_bindMethod _ _).of_done hbound)
  | body hchild hparams =>
    have hk := (keeps_defineAll _ hs.isName_params _).of_done hparams
    exact (((keeps_childFrame _).of_done hchild).trans hk).trans (.of_same rfl rfl)
  | _ => exact .refl _

/-! ## Through an activity -/

theorem Activity.kept_of_end? {a : Activity} {m m' : Machine} (hs : a.Sound m) (hn : a.Named)
    (h : a.end? m = some m') : Kept m m' := by
  cases a with
  | program n ss => exact keeps_runAll hs m' h
  | statement n s => exact (keepsAt n).execute (sound_of_enters .statement hs) m' h
  | execute n s => exact (keepsAt n).execute hs m' h
  | executeAll n ss => exact (keepsAt n).executeAll hs m' h
  | evaluate n e => exact (keepsAt n).evaluate hs m' h
  | evaluateOption n e => exact (keepsAt n).evaluateOption hs m' h
  | evaluateAll n es => exact (keepsAt n).evaluateAll hs m' h
  | assign id name v => exact keeps_assign id hn v m' h
  | declareClass name superclass methods => exact keeps_declareClass hn superclass methods hs m' h
  | invoke n f args => exact (keepsAt n).invoke hs m' h
  | call n c args => exact (keepsAt n).call hs m' h
  | callFunction n f args => exact (keepsAt n).callFunction hs m' h

/-! ## Out of an activity -/

section

variable {n : Nat} {m m' m₁ m₂ : Machine} {a' : Activity}

/-- A part of a statement is followed by the rest of it. -/
theorem ends_in_execute {s : Stmt} (h : Enters (.execute (n + 1) s) m a' m')
    (hs : (Activity.execute (n + 1) s).Sound m)
    (h₂ : (Activity.execute (n + 1) s).end? m = some m₂) :
    ∃ m₁, a'.end? m' = some m₁ ∧ Kept m₁ m₂ := by
  simp only [Activity.end?] at h₂
  cases h with
  | expression =>
    rw [Eval.execute] at h₂
    exact Follows.bind (fun _ _ _ => .ret _) m₂ h₂
  | var =>
    rw [Eval.execute] at h₂
    refine Follows.bind (fun v _ _ => ?_) m₂ h₂
    exact .bind (keeps_define hs.isName_var v) fun _ _ _ => .ret _
  | block hchild =>
    rw [Eval.execute] at h₂
    exact Follows.next rfl (Follows.next hchild (.inFrame _ _)) m₂ h₂
  | ifCondition =>
    rw [Eval.execute] at h₂
    exact Follows.bind (fun _ _ hv => (keepsAt n).ifThen hs hv) m₂ h₂
  | ifYes hv ht =>
    rw [Eval.execute, Computation.bind_of_done hv, if_pos ht] at h₂
    exact Follows.same _ m₂ h₂
  | elseCondition =>
    rw [Eval.execute] at h₂
    exact Follows.bind (fun _ _ hv => (keepsAt n).ifElse hs hv) m₂ h₂
  | elseYes hv ht =>
    rw [Eval.execute, Computation.bind_of_done hv, if_pos ht] at h₂
    exact Follows.same _ m₂ h₂
  | elseNo hv ht =>
    rw [Eval.execute, Computation.bind_of_done hv, ht] at h₂
    exact Follows.same _ m₂ h₂
  | loopCondition =>
    rw [Eval.execute] at h₂
    exact Follows.bind (fun _ _ hv => (keepsAt n).loop hs hv) m₂ h₂
  | loopBody hv ht =>
    rw [Eval.execute, Computation.bind_of_done hv, if_pos ht] at h₂
    exact Follows.bind (fun _ _ hb => (keepsAt n).loopAgain hs hv ht hb) m₂ h₂
  | loopAgain hv ht hb =>
    rw [Eval.execute, Computation.bind_of_done hv, if_pos ht, Computation.bind_of_done hb] at h₂
    exact Follows.same _ m₂ h₂
  | ret =>
    rw [Eval.execute] at h₂
    exact Follows.bind (fun _ _ _ => .ret _) m₂ h₂
  | baseClass =>
    rw [Eval.execute] at h₂
    exact Follows.bind (fun _ _ _ => .ret _) m₂ h₂
  | superclass =>
    rw [Eval.execute] at h₂
    exact Follows.bind (fun _ _ hv => KeepsAt.derived hs hv) m₂ h₂
  | derivedClass hv =>
    rw [Eval.execute, Computation.bind_of_done hv] at h₂
    exact Follows.bind (fun _ _ _ => .ret _) m₂ h₂

/-- A part of an expression is followed by the rest of it. -/
theorem ends_in_evaluate {e : Expr} (h : Enters (.evaluate (n + 1) e) m a' m')
    (hs : (Activity.evaluate (n + 1) e).Sound m)
    (h₂ : (Activity.evaluate (n + 1) e).end? m = some m₂) :
    ∃ m₁, a'.end? m' = some m₁ ∧ Kept m₁ m₂ := by
  simp only [Activity.end?] at h₂
  cases h with
  | grouping =>
    rw [Eval.evaluate] at h₂
    exact Follows.same _ m₂ h₂
  | unary =>
    rw [Eval.evaluate] at h₂
    exact Follows.bind (fun _ _ _ => .ofExcept _) m₂ h₂
  | binaryLeft =>
    rw [Eval.evaluate] at h₂
    exact Follows.bind (fun _ _ hv => (keepsAt n).binary hs hv) m₂ h₂
  | binaryRight hv =>
    rw [Eval.evaluate, Computation.bind_of_done hv] at h₂
    exact Follows.bind (fun _ _ _ => .ofExcept _) m₂ h₂
  | logicalLeft =>
    rw [Eval.evaluate] at h₂
    exact Follows.bind (fun _ _ hv => (keepsAt n).logical hs hv) m₂ h₂
  | logicalRight hv hd =>
    rw [Eval.evaluate, Computation.bind_of_done hv, hd] at h₂
    exact Follows.same _ m₂ h₂
  | assignValue =>
    rw [Eval.evaluate] at h₂
    refine Follows.bind (fun v _ _ => ?_) m₂ h₂
    exact .bind (keeps_assign _ hs.isName_assign v) fun _ _ _ => .ret _
  | assign hv =>
    rw [Eval.evaluate, Computation.bind_of_done hv] at h₂
    exact Follows.bind (fun _ _ _ => .ret _) m₂ h₂
  | callee =>
    rw [Eval.evaluate] at h₂
    exact Follows.bind (fun _ _ hf => (keepsAt n).arguments hs hf) m₂ h₂
  | arguments hf =>
    rw [Eval.evaluate, Computation.bind_of_done hf] at h₂
    refine Follows.bind (fun vs _ hvs => ?_) m₂ h₂
    exact (keepsAt n).invoke (sound_of_enters (.invoke hf hvs) hs)
  | invoke hf hvs =>
    rw [Eval.evaluate, Computation.bind_of_done hf, Computation.bind_of_done hvs] at h₂
    exact Follows.same _ m₂ h₂
  | getObject =>
    rw [Eval.evaluate] at h₂
    exact Follows.bind (fun v _ _ => keeps_get v _) m₂ h₂
  | setObject =>
    rw [Eval.evaluate] at h₂
    exact Follows.bind (fun _ _ hv => (keepsAt n).set hs hv) m₂ h₂
  | setValue hv =>
    rw [Eval.evaluate, Computation.bind_of_done hv] at h₂
    refine Follows.bind (fun u _ _ => ?_) m₂ h₂
    exact .bind (keeps_setField _ _ u) fun _ _ _ => .ret _

/-- An activity that ends has had an end of each of its parts, and has only gone on from there. -/
theorem ends_in_part {a : Activity} (h : Enters a m a' m') (hs : a.Sound m)
    (h₂ : a.end? m = some m₂) : ∃ m₁, a'.end? m' = some m₁ ∧ Kept m₁ m₂ := by
  cases a with
  | program n ss =>
    simp only [Activity.end?] at h₂
    cases h with
    | programHead =>
      rw [runAll] at h₂
      refine Follows.bind (fun _ _ hd => ?_) m₂ h₂
      exact keeps_runAll (sound_of_enters (.programTail hd) hs)
    | programTail hd =>
      rw [runAll, Computation.bind_of_done hd] at h₂
      exact Follows.same _ m₂ h₂
  | statement n s =>
    cases h with
    | statement => exact Follows.same _ m₂ h₂
  | execute n s =>
    cases n with
    | zero => cases h
    | succ n => exact ends_in_execute h hs h₂
  | evaluate n e =>
    cases n with
    | zero => cases h
    | succ n => exact ends_in_evaluate h hs h₂
  | executeAll n ss =>
    simp only [Activity.end?] at h₂
    cases h with
    | firstStatement =>
      rw [Eval.executeAll] at h₂
      exact Follows.bind (fun _ _ hd => (keepsAt _).statements hs hd) m₂ h₂
    | moreStatements hd =>
      rw [Eval.executeAll, Computation.bind_of_done hd] at h₂
      exact Follows.same _ m₂ h₂
  | evaluateOption n e =>
    simp only [Activity.end?] at h₂
    cases h with
    | option =>
      rw [Eval.evaluateOption] at h₂
      exact Follows.same _ m₂ h₂
  | evaluateAll n es =>
    simp only [Activity.end?] at h₂
    cases h with
    | firstArgument =>
      rw [Eval.evaluateAll] at h₂
      refine Follows.bind (fun _ _ hv => ?_) m₂ h₂
      exact .bind ((keepsAt _).evaluateAll (sound_of_enters (.moreArguments hv) hs)) fun _ _ _ => .ret _
    | moreArguments hv =>
      rw [Eval.evaluateAll, Computation.bind_of_done hv] at h₂
      exact Follows.bind (fun _ _ _ => .ret _) m₂ h₂
  | assign id name v => cases h
  | declareClass name superclass methods => cases h
  | invoke n f args =>
    simp only [Activity.end?] at h₂
    cases h with
    | call hc hlen =>
      rw [Eval.invoke] at h₂
      simp only [hc, if_pos hlen] at h₂
      exact Follows.same _ m₂ h₂
  | call n c args =>
    simp only [Activity.end?] at h₂
    cases h with
    | function =>
      rw [Eval.call] at h₂
      exact Follows.same _ m₂ h₂
    | initializer ho hi hb =>
      rw [Eval.call, Computation.bind_of_done ho] at h₂
      simp only [hi, Computation.bind_of_done hb] at h₂
      exact Follows.bind (fun _ _ _ => .ret _) m₂ h₂
  | callFunction n f args =>
    simp only [Activity.end?] at h₂
    cases h with
    | body hf hp =>
      rw [Eval.callFunction, Computation.bind_of_done hf, Computation.bind_of_done hp] at h₂
      -- The body ends in its own frame, and the caller's comes back before the result.
      exact (Follows.inFrame _ _).trans_bind (fun flow _ _ => keeps_result f flow) m₂ h₂

end

/-! ## From then on -/

/-- The distances of a new program are of references that there were not. -/
theorem kept_of_check {s s' : Session} {source : String} {ss : List Stmt} (hs : s.Reached)
    (h : s.check source = (s', some ss)) :
    Kept s.machine
      { s'.machine with locals := (Locals.ofProgram ss).merge s'.machine.locals } := by
  have hm : s'.machine = s.machine := by
    have := Session.machine_check s source
    rwa [h] at this
  obtain ⟨w, s₂, hpaired⟩ := hs.exists_paired
  obtain ⟨t, hlocals, -, hle, -⟩ := Session.exists_table_of_check h w.table hpaired.next
  rw [hm]
  refine ⟨.refl _, fun id d hd => ?_⟩
  rw [hpaired.agree.locals] at hd ⊢
  have hid : id < w.table.next := by
    by_contra hlt
    rw [w.table.fresh id (Nat.le_of_not_lt hlt)] at hd
    cases hd
  show ((Locals.ofProgram ss).merge w.table.locals).find? id = some d
  rw [← hlocals, hle.2 id hid]
  exact hd

/-- What a frame has as receiver or superclass it has for ever. -/
theorem Later.kept {m m' : Machine} (h : Later m m') : Kept m m' := by
  induction h with
  | refl m => exact .refl _
  | trans _ _ ih ih' => exact ih.trans ih'
  | start hs hcheck => exact kept_of_check hs hcheck
  | enter hr he => exact kept_of_enters he (sound_of_reached hr)
  | finish hr hend => exact Activity.kept_of_end? (sound_of_reached hr) hr.named hend
  | leave hr he h₁ h₂ =>
    obtain ⟨m, hm, hk⟩ := ends_in_part he (sound_of_reached hr) h₂
    rw [h₁] at hm
    cases hm
    exact hk

end Lox
