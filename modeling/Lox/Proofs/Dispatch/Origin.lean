import Mathlib
import Lox.Proofs.Activity.Runs
import Lox.Proofs.Memory.Census

/-!
# Lox.Proofs.Dispatch.Origin

Where functions and methods come from. Whatever function there is in memory or in hand when an activity
starts, it has been declared before by a statement or bound before to a receiver, and whatever method
there is, its class has been declared before (`origin_of_reached`).
-/

namespace Lox

open Eval

/-- A method that is read is the result; an initializer is called. -/
theorem Binds.ends_or_calls {a : Activity} {m m' : Machine} {receiver : Value} {bound : Closure}
    (h : Binds a m receiver bound m') :
    a.end? m = some m' ∨ ∃ n args, Enters a m (.callFunction n bound args) m' := by
  cases h with
  | get hobject hfield hf hb =>
    exact .inl (Outcome.state?_of_done (evaluate_eq (.get hobject hfield hf hb)))
  | super hd hc ho hf hb => exact .inl (Outcome.state?_of_done (evaluate_eq (.super hd hc ho hf hb)))
  | construct hobject hinit hb => exact .inr ⟨_, _, .initializer hobject hinit hb⟩

theorem Binds.later {a : Activity} {m m' : Machine} {receiver : Value} {bound : Closure}
    (h : Binds a m receiver bound m') (hr : Reached a m) : Later m m' := by
  obtain hend | ⟨n, args, he⟩ := h.ends_or_calls
  · exact .finish hr hend
  · exact .enter hr he

/-- The activity has come to an end before the machine. -/
def Activity.Past (horizon : Machine) (a : Activity) (m : Machine) : Prop :=
  Reached a m ∧ ∃ m', a.end? m = some m' ∧ Later m' horizon

/-- The functions and methods that have been made before the machine. All of memory is in the region. -/
def madeBefore (horizon : Machine) : Region where
  frame _ := True
  object _ := True
  function f :=
    (∃ n decl m, Reached (.execute (n + 1) (.function decl)) m ∧ Later m horizon ∧
      f = ⟨decl, m.current, false⟩) ∨
    ∃ a m receiver m', Reached a m ∧ Binds a m receiver f m' ∧ Later m' horizon
  method f := ∃ name superclass methods m d,
    (Activity.declareClass name superclass methods).Past horizon m ∧ d ∈ methods ∧
      f = ⟨d, m.classFrame superclass, d.isInitializer⟩

namespace Activity.Past

variable {horizon m m' m'' : Machine} {a a' : Activity}

theorem later (h : a.Past horizon m) : Later m horizon := by
  obtain ⟨hr, m', hend, hlater⟩ := h
  exact (Later.finish hr hend).trans hlater

/-- The parts of an activity that is over are over. -/
theorem enters (he : Enters a m a' m') (h : a.Past horizon m) : a'.Past horizon m' := by
  obtain ⟨hr, m₂, hend, hlater⟩ := h
  obtain ⟨m₁, hend', -⟩ := ends_in_part he (sound_of_reached hr) hend
  exact ⟨hr.enter he, m₁, hend', (Later.leave hr he hend' hend).trans hlater⟩

/-- A method has been bound before the activity is over that binds it. -/
theorem of_binds {receiver : Value} {bound : Closure} (h : a.Past horizon m)
    (hb : Binds a m receiver bound m') : Later m' horizon := by
  obtain hend | ⟨n, args, he⟩ := hb.ends_or_calls
  · obtain ⟨-, m₂, hend', hlater⟩ := h
    rw [hend] at hend'
    cases hend'
    exact hlater
  · exact (enters he h).later

end Activity.Past

/-! ## Evaluations that are over -/

theorem census_madeBefore (horizon : Machine) :
    Census (Activity.Past horizon) (madeBefore horizon) where
  enters := Activity.Past.enters
  env _ := trivial
  methodEnv _ := trivial
  function h _ := .inl ⟨_, _, _, h.1, h.later, rfl⟩
  method h hd _ := ⟨_, _, _, _, _, h, hd, rfl⟩
  bound h hb _ _ := .inr ⟨_, _, _, _, h.1, hb, h.of_binds hb⟩

/-- All functions and methods in memory have been made before. -/
def Machine.Accounted (horizon m : Machine) : Prop := m.ClosedIn (madeBefore horizon)

section

variable {horizon m m' : Machine} {n : Nat}

/-- What is true of an evaluation that comes to a good end. -/
theorem Eval.Within.accounted {α : Type} {Q : α → Prop} {x : Eval α} {v : α}
    (h : Within (madeBefore horizon) Q x m) (hm : horizon.Accounted m) (hd : x m = .done v m') :
    horizon.Accounted m' ∧ Q v := by
  obtain ⟨hinside, hQ⟩ := h hm
  exact ⟨(hinside m' (by rw [hd]; rfl)).closed, hQ v m' hd⟩

variable (hm : horizon.Accounted m) (hl : Later m' horizon)
include hm hl

theorem accounted_evaluate {e : Expr} {v : Value} (hr : Reached (.evaluate n e) m)
    (hd : evaluate n e m = .done v m') :
    horizon.Accounted m' ∧ v.In (madeBefore horizon) :=
  (((census_madeBefore horizon).rules.holdsAt n).evaluate
    ⟨hr, m', Outcome.state?_of_done hd, hl⟩ trivial).accounted hm hd

theorem accounted_evaluateAll {es : List Expr} {vs : List Value}
    (hr : Reached (.evaluateAll n es) m) (hd : evaluateAll n es m = .done vs m') :
    horizon.Accounted m' ∧ ∀ v ∈ vs, v.In (madeBefore horizon) :=
  (((census_madeBefore horizon).rules.holdsAt n).evaluateAll
    ⟨hr, m', Outcome.state?_of_done hd, hl⟩ trivial).accounted hm hd

theorem accounted_execute {s : Stmt} {flow : Flow} (hr : Reached (.execute n s) m)
    (hd : execute n s m = .done flow m') : horizon.Accounted m' :=
  ((((census_madeBefore horizon).rules.holdsAt n).execute
    ⟨hr, m', Outcome.state?_of_done hd, hl⟩ trivial).accounted hm hd).1

end

/-! ## Activities under way -/

/-- The values that the activity starts with. -/
def Activity.ValuesIn (r : Region) : Activity → Prop
  | .assign _ _ v => v.In r
  | .declareClass _ superclass _ => ∀ c, superclass = some c → c.In r
  | .invoke _ f args => f.In r ∧ ∀ v ∈ args, v.In r
  | .call _ c args => c.Holds (Value.In r) ∧ ∀ v ∈ args, v.In r
  | .callFunction _ f args => r.function f ∧ ∀ v ∈ args, v.In r
  | _ => True

theorem accounted_of_enters {horizon : Machine} {a a' : Activity} {m m' : Machine}
    (he : Enters a m a' m') (hr : Reached a m) (hl : Later m' horizon) (hm : horizon.Accounted m)
    (hv : a.ValuesIn (madeBefore horizon)) :
    horizon.Accounted m' ∧ a'.ValuesIn (madeBefore horizon) := by
  cases he with
  | programTail hd =>
    exact ⟨accounted_execute hm hl ((hr.enter .programHead).enter .statement) hd, trivial⟩
  | block hchild =>
    obtain ⟨hm', -⟩ := (within_childFrame trivial).accounted hm hchild
    exact ⟨⟨hm'.store, hm'.globals⟩, trivial⟩
  | ifYes hd _ => exact ⟨(accounted_evaluate hm hl (hr.enter .ifCondition) hd).1, trivial⟩
  | elseYes hd _ => exact ⟨(accounted_evaluate hm hl (hr.enter .elseCondition) hd).1, trivial⟩
  | elseNo hd _ => exact ⟨(accounted_evaluate hm hl (hr.enter .elseCondition) hd).1, trivial⟩
  | loopBody hd _ => exact ⟨(accounted_evaluate hm hl (hr.enter .loopCondition) hd).1, trivial⟩
  | loopAgain hd ht hb =>
    have hbody := hr.enter (.loopBody hd ht)
    have hlater := Later.finish hbody (Outcome.state?_of_done hb)
    obtain ⟨hm', -⟩ := accounted_evaluate hm (hlater.trans hl) (hr.enter .loopCondition) hd
    exact ⟨accounted_execute hm' hl hbody hb, trivial⟩
  | baseClass => exact ⟨hm, fun _ hc => by cases hc⟩
  | derivedClass hd =>
    obtain ⟨hm', hc⟩ := accounted_evaluate hm hl (hr.enter .superclass) hd
    refine ⟨hm', fun c' hc' => ?_⟩
    cases hc'
    exact hc
  | moreStatements hd => exact ⟨accounted_execute hm hl (hr.enter .firstStatement) hd, trivial⟩
  | binaryRight hd => exact ⟨(accounted_evaluate hm hl (hr.enter .binaryLeft) hd).1, trivial⟩
  | logicalRight hd _ => exact ⟨(accounted_evaluate hm hl (hr.enter .logicalLeft) hd).1, trivial⟩
  | assign hd => exact accounted_evaluate hm hl (hr.enter .assignValue) hd
  | arguments hd => exact ⟨(accounted_evaluate hm hl (hr.enter .callee) hd).1, trivial⟩
  | invoke hd hargs =>
    have hrest := hr.enter (.arguments hd)
    have hlater := Later.finish hrest (Outcome.state?_of_done hargs)
    obtain ⟨hm', hf⟩ := accounted_evaluate hm (hlater.trans hl) (hr.enter .callee) hd
    obtain ⟨hm'', hvs⟩ := accounted_evaluateAll hm' hl hrest hargs
    exact ⟨hm'', hf, hvs⟩
  | setValue hd => exact ⟨(accounted_evaluate hm hl (hr.enter .setObject) hd).1, trivial⟩
  | moreArguments hd => exact ⟨(accounted_evaluate hm hl (hr.enter .firstArgument) hd).1, trivial⟩
  | call hc _ => exact ⟨hm, Value.holds_of_callable? hv.1 hc, hv.2⟩
  | function => exact ⟨hm, hv⟩
  | initializer ho hi hb =>
    obtain ⟨hm', hobject⟩ := (within_newObject hv.1).accounted hm ho
    obtain ⟨hm'', -⟩ := (within_bindMethod trivial hobject).accounted hm' hb
    exact ⟨hm'', .inr ⟨_, _, _, _, hr, .construct ho hi hb, hl⟩, hv.2⟩
  | body hchild hparams =>
    obtain ⟨hm', -⟩ := (within_childFrame trivial).accounted hm hchild
    obtain ⟨hm'', -⟩ := (within_defineAll trivial _ hv.2).accounted hm' hparams
    exact ⟨⟨hm''.store, hm''.globals⟩, trivial⟩
  | _ => exact ⟨hm, trivial⟩

/-! ## Sessions -/

theorem exists_native_of_bindings {name : String} {v : Value}
    (h : Native.bindings.find? name = some v) : ∃ n, v = .native n := by
  simp only [Native.bindings, Native.all, List.foldl_cons, List.foldl_nil,
    Bindings.find?_insert] at h
  split at h
  · exact ⟨_, (Option.some.inj h).symm⟩
  · split at h
    · exact ⟨_, (Option.some.inj h).symm⟩
    · split at h
      · exact ⟨_, (Option.some.inj h).symm⟩
      · cases h

/-- A fresh machine has natives only. -/
theorem closedIn_initial {r : Region} (hframe : ∀ f, r.frame f) (hobject : ∀ o, r.object o)
    (sink : Sink) (clock : Nat → Float) : (Machine.initial sink clock).store.ClosedIn r where
  enclosing _ e _ _ := hframe e
  bound f name v _ hv := by
    obtain _ | f := f
    · obtain ⟨n, rfl⟩ := exists_native_of_bindings hv
      trivial
    · cases hv
  field o name v _ hv := by cases hv
  newFrame f _ := hframe f
  newObject o _ := hobject o

theorem accounted_initial (horizon : Machine) (sink : Sink) (clock : Nat → Float) :
    horizon.Accounted (.initial sink clock) where
  globals := trivial
  store := closedIn_initial (fun _ => trivial) (fun _ => trivial) sink clock

theorem Session.Reached.accounted {s : Session} (h : s.Reached) {horizon : Machine}
    (hl : Later s.machine horizon) : horizon.Accounted s.machine := by
  induction h with
  | new sink clock => exact accounted_initial horizon sink clock
  | reset _ ih => exact ih hl
  | @run s fuel source s' status hs hrun ih =>
    obtain hsame | ⟨s₁, program, hcheck, hend⟩ := Session.machine_of_run hrun
    · rw [hsame] at hl ⊢
      exact ih hl
    · have hr : Lox.Reached (.program fuel program) (s₁.machine.loaded program) :=
        .program fuel hs hcheck
      have hlater : Later s.machine s'.machine := (Later.start hs hcheck).trans (.finish hr hend)
      have hm := ih (hlater.trans hl)
      have hloaded : horizon.Accounted (s₁.machine.loaded program) := by
        rw [Session.machine_eq_of_check hcheck]
        exact ⟨hm.store, hm.globals⟩
      have hrun := (census_madeBefore horizon).rules.runAll ⟨hr, s'.machine, hend, hl⟩ trivial
      exact ((hrun hloaded).1 s'.machine hend).closed

/-- Whenever an activity starts, what there is in memory and what it starts with has been made before. -/
theorem accounted_of_reached {a : Activity} {m horizon : Machine} (h : Reached a m)
    (hl : Later m horizon) :
    horizon.Accounted m ∧ a.ValuesIn (madeBefore horizon) := by
  induction h with
  | @program s s' source ss n hs hcheck =>
    have hm := hs.accounted ((Later.start hs hcheck).trans hl)
    rw [Session.machine_eq_of_check hcheck]
    exact ⟨⟨hm.store, hm.globals⟩, trivial⟩
  | enter hr he ih =>
    obtain ⟨hm, hv⟩ := ih ((Later.enter hr he).trans hl)
    exact accounted_of_enters he hr hl hm hv

end Lox
