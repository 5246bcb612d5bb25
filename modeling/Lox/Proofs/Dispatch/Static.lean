import Mathlib
import Lox.Proofs.Dispatch.Layout
import Lox.Proofs.Dispatch.Origin
import Lox.Proofs.Dispatch.Supers

/-!
# Lox.Proofs.Dispatch.Static

`super` is static in the class and dynamic in the receiver. Every evaluation of `super` is part of a
method of a class with a superclass (`exists_inMethod`), and finds what the superclass was when the class
was declared, for the receiver that the method has been bound to (`super_static`).
-/

namespace Lox

open Eval

/-! ## Where bound methods come from -/

/-- The frame of a bound method is inside of the one that the method closes over. -/
theorem enclosing?_of_bindMethod {f bound : Closure} {receiver : Value} {m m' : Machine}
    (h : bindMethod f receiver m = .done bound m') :
    m'.store.enclosing? bound.env = some f.env := by
  cases h
  show (Store.define _ m.store.frames.size "this" receiver).enclosing? m.store.frames.size = _
  rw [Store.enclosing?_define, Store.enclosing?_addFrame, if_pos rfl]

/-- What is bound is a method of a class that has been declared before. -/
theorem Binds.exists_method {a : Activity} {m m' : Machine} {receiver : Value} {bound : Closure}
    (hb : Binds a m receiver bound m') (hr : Reached a m) :
    ∃ env, m'.store.enclosing? bound.env = some env ∧
      (madeBefore m').method { bound with env := env } := by
  have hmethod {f : Closure} {m₁ : Machine} (hbound : bindMethod f receiver m₁ = .done bound m')
      (hf : (madeBefore m').method f) : ∃ env, m'.store.enclosing? bound.env = some env ∧
        (madeBefore m').method { bound with env := env } := by
    refine ⟨f.env, enclosing?_of_bindMethod hbound, ?_⟩
    rw [(local?_of_bindMethod hbound).1]
    exact hf
  obtain ⟨hm, hv⟩ := accounted_of_reached hr (hb.later hr)
  cases hb with
  | get hobject hfield hf hbound =>
    have hread := Outcome.state?_of_done (Binds.get hobject hfield hf hbound).evaluate_eq
    have hl := Later.leave hr .getObject (Outcome.state?_of_done hobject) hread
    have hc := accounted_evaluate hm hl (hr.enter .getObject) hobject
    exact hmethod hbound (hc.2.1.findMethod? hf)
  | super hd hc ho hf hbound =>
    exact hmethod hbound (Class.In.findMethod? (hm.store.getAt? trivial hc) hf)
  | construct hobject hinit hbound => exact hmethod hbound (Class.In.findMethod? hv.1 hinit)

/-- A method with a reference to `super` is one of a class with a superclass. -/
theorem subclasses_of_method {horizon : Machine} {f : Closure}
    (h : (madeBefore horizon).method f) :
    f.decl.supers = [] ∨ ∃ methods c m, Subclasses methods c f.env m ∧ Later m horizon ∧
      f.decl ∈ methods := by
  obtain ⟨name, superclass, methods, m₁, d, ⟨hr, m₂, hend, hl⟩, hd, rfl⟩ := h
  cases hr with
  | enter hr he =>
    have hs := sound_of_reached hr
    cases he with
    | baseClass =>
      obtain ⟨w, x, t, ctx, scopes, frame, scope, -, -, -, hlinked⟩ := hs
      exact .inl (hlinked.2.supers_eq_nil (fun h => by cases h) hd)
    | derivedClass he =>
      have hlive := sound_of_enters (.derivedClass he) hs
      obtain ⟨m, hdeclared⟩ := Activity.Sound.exists_declared hlive
      rw [Activity.end?, hdeclared] at hend
      cases hend
      exact .inr ⟨methods, _, m₂, .declared hr he (execute_cls he hdeclared), hl, hd⟩

/-! ## Where functions come from -/

/-- The function is a bound method of a class with a superclass or comes from one, and has no references
to `super` but those in the text of the method. -/
def Closure.FromMethod (f : Closure) (m : Machine) : Prop :=
  ∃ methods c frame m₁ receiver bound m₂ m₃, Subclasses methods c frame m₁ ∧ Later m₁ m₂ ∧
    BindsOneOf methods frame receiver bound m₂ ∧ ComesFrom bound m₂ f m₃ ∧ Later m₃ m ∧
    f.decl.supers ⊆ bound.decl.supers

theorem InBody.size_lt {n : Nat} {f : Closure} {args : List Value} {m m₁ : Machine} {a : Activity}
    (h : InBody n f args m a m₁) (hr : Reached (.callFunction (n + 1) f args) m) :
    m.store.frames.size < m₁.store.frames.size := by
  induction h with
  | start hchild hparams =>
    cases hchild
    have hk := (keeps_defineAll _ (sound_of_reached hr).isName_params _).of_done hparams
    refine Nat.lt_of_lt_of_le ?_ hk.store.frames
    rw [Store.addFrame, Array.size_push]
    exact Nat.lt_succ_self _
  | enter hb hi he ih =>
    exact Nat.lt_of_lt_of_le ih (Later.enter (hb.reached hr).1 he).kept.store.frames

theorem supers_eq_nil_or_fromMethod {n : Nat} {f : Closure} {args : List Value} {m : Machine}
    (hr : Reached (.callFunction (n + 1) f args) m) :
    f.decl.supers = [] ∨ f.FromMethod m := by
  -- A function is made later than the one is called that makes it, and each call adds a frame.
  induction hsize : m.store.frames.size using Nat.strong_induction_on generalizing n f args m with
  | _ size ih =>
    obtain ⟨k, decl, m', hr', hl', rfl⟩ | ⟨a, m₀, receiver, m₁, hra, hbinds, hl'⟩ :=
      (accounted_of_reached hr (.refl m)).2.1
    · obtain hnil | ⟨n', g, args', m₀, hcall, hbody⟩ := supers_eq_nil_or_inBody hr'
      · exact .inl hnil
      · have hlt : m₀.store.frames.size < size :=
          hsize ▸ Nat.lt_of_lt_of_le (hbody.size_lt hcall) hl'.kept.store.frames
        obtain hnil | ⟨methods, c, frame, m₁, receiver, bound, m₂, m₃, hc, hl, hb, hg, hlg, hsub⟩ :=
          ih _ hlt hcall rfl
        · exact .inl (List.subset_nil.1 (hnil ▸ hbody.supers))
        · exact .inr ⟨methods, c, frame, m₁, receiver, bound, m₂, m', hc, hl, hb,
            .declared hg hlg hcall hbody, hl', List.Subset.trans hbody.supers hsub⟩
    · obtain ⟨env, henclosing, hmethod⟩ := hbinds.exists_method hra
      obtain hnil | ⟨methods, c, m₂, hc, hl, hd⟩ := subclasses_of_method hmethod
      · exact .inl hnil
      · exact .inr ⟨methods, c, env, m₂, receiver, f, m₁, m₁, hc, hl,
          ⟨⟨a, m₀, hra, hbinds⟩, hd, henclosing⟩, .self, hl', List.Subset.refl _⟩

/-- Every evaluation of `super` is part of a method of a class with a superclass, and its text of the text
of the method. -/
theorem exists_inMethod {n : Nat} {id : RefId} {keyword method : Token} {m : Machine}
    (hr : Reached (.evaluate n (.superRef id keyword method)) m) :
    ∃ methods c frame m₁ receiver bound m₂, Subclasses methods c frame m₁ ∧ Later m₁ m₂ ∧
      BindsOneOf methods frame receiver bound m₂ ∧ id ∈ bound.decl.supers ∧
      (Activity.evaluate n (.superRef id keyword method)).InMethod bound m₂ m := by
  obtain hnil | ⟨k, f, args, m₀, hcall, hbody⟩ := supers_eq_nil_or_inBody hr
  · cases hnil
  · have hid : id ∈ f.decl.supers := hbody.supers List.mem_cons_self
    obtain hnil | ⟨methods, c, frame, m₁, receiver, bound, m₂, m₃, hc, hl, hb, hf, hlf, hsub⟩ :=
      supers_eq_nil_or_fromMethod hcall
    · rw [hnil] at hid
      cases hid
    · exact ⟨methods, c, frame, m₁, receiver, bound, m₂, hc, hl, hb, hsub hid,
        f, m₃, k, args, m₀, hf, hlf, hcall, hbody⟩

/-- `super` in a method of a class, however deep in functions and blocks inside of it and however late it
is evaluated, finds a method from what the superclass was evaluated to when the class was declared, and
binds it to the receiver that the method has been bound to. And there is no other `super`. -/
theorem super_static :
    (∀ methods c frame m₁ receiver bound m₂, Subclasses methods c frame m₁ → Later m₁ m₂ →
      BindsOneOf methods frame receiver bound m₂ →
      ∀ n id keyword method m,
        (Activity.evaluate (n + 1) (.superRef id keyword method)).InMethod bound m₂ m →
        evaluate (n + 1) (.superRef id keyword method) m = dispatch c receiver method.lexeme m) ∧
    (∀ n id keyword method m, Reached (.evaluate n (.superRef id keyword method)) m →
      ∃ methods c frame m₁ receiver bound m₂, Subclasses methods c frame m₁ ∧ Later m₁ m₂ ∧
        BindsOneOf methods frame receiver bound m₂ ∧ id ∈ bound.decl.supers ∧
        (Activity.evaluate n (.superRef id keyword method)).InMethod bound m₂ m) := by
  refine ⟨?_, fun n id keyword method m hr => exists_inMethod hr⟩
  intro methods c frame m₁ receiver bound m₂ hc hl hb n id keyword method m h
  exact evaluate_superRef_of_inMethod hc hl hb h

theorem exists_check_super (sink : Sink) (clock : Nat → Float) :
    ∃ s, s.machine = .initial sink clock ∧ (Session.new sink clock).check
        "class A\x7bm()\x7b\x7d\x7dclass B<A\x7bm()\x7bsuper.m;\x7d\x7dB().m();" =
      (s, some [.cls ⟨.identifier, "A", none, 1⟩ none [⟨⟨.identifier, "m", none, 1⟩, [], []⟩],
        .cls ⟨.identifier, "B", none, 1⟩ (some (.var 12 ⟨.identifier, "A", none, 1⟩))
          [⟨⟨.identifier, "m", none, 1⟩, [], [.expression
            (.superRef 18 ⟨.kwSuper, "super", none, 1⟩ ⟨.identifier, "m", none, 1⟩)]⟩],
        .expression (.call (.get (.call (.var 24 ⟨.identifier, "B", none, 1⟩)
          ⟨.rightParen, ")", none, 1⟩ []) ⟨.identifier, "m", none, 1⟩)
          ⟨.rightParen, ")", none, 1⟩ [])]) :=
  ⟨_, Session.machine_check _ _, Prod.ext rfl (by cbv)⟩

/-- A method reads the one of the superclass that it overrides. -/
theorem super_static_overridden :
    ∃ n id keyword method m c receiver found m',
      Reached (.evaluate (n + 1) (.superRef id keyword method)) m ∧
      evaluate (n + 1) (.superRef id keyword method) m = dispatch c receiver method.lexeme m ∧
      dispatch c receiver method.lexeme m = .done (.function found) m' ∧ found.decl.body = [] ∧
      ∃ bound m₂, id ∈ bound.decl.supers ∧
        (Activity.evaluate (n + 1) (.superRef id keyword method)).InMethod bound m₂ m := by
  obtain ⟨s, hmachine, hcheck⟩ := exists_check_super {} fun _ => 0
  have hprogram := Reached.program 12 (.new {} fun _ => 0) hcheck
  rw [hmachine] at hprogram
  have hclasses := Reached.enter hprogram (.programTail (by cbv))
  have hdeclares := Reached.enter (Reached.enter hclasses .programHead) .statement
  have hrest := Reached.enter hclasses (.programTail (by cbv))
  have hcall := Reached.enter (Reached.enter (Reached.enter hrest .programHead) .statement) .expression
  have hget := Reached.enter hcall .callee
  have hlater := Binds.later (.get (by cbv) (by cbv) (by cbv) (by cbv)) hget
  have hinvoke := Reached.enter hcall (.invoke (by cbv) (by cbv))
  have hfunction := Reached.enter (Reached.enter hinvoke (.call rfl rfl)) .function
  have hbody := Reached.enter hfunction (.body (by cbv) (by cbv))
  have hsuper := Reached.enter (Reached.enter hbody .firstStatement) .expression
  obtain ⟨-, -, -, -, -, bound, m₂, -, -, -, hid, hin⟩ := super_static.2 _ _ _ _ _ hsuper
  exact ⟨_, _, _, _, _, _, _, _, _, hsuper,
    super_static.1 _ _ _ _ _ _ _ (.declared hdeclares rfl rfl) hlater
      ⟨⟨_, _, hget, .get rfl rfl rfl rfl⟩, List.mem_cons_self, rfl⟩ _ _ _ _ _
      ⟨_, _, _, _, _, .self, .refl _, hfunction,
        .enter (.enter (.start rfl rfl) trivial .firstStatement) trivial .expression⟩,
    by cbv, rfl, bound, m₂, hid, hin⟩

end Lox
