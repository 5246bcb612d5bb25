import Mathlib
import Lox.Proofs.Receiver.Bound

/-!
# Lox.Proofs.Dispatch.Layout

Where `super` finds what it needs. The frame of a bound method has the receiver, and the frame around it
has what the superclass was evaluated to when the class was declared. All that is done in calls of the
method, and in calls of functions made there, is done inside of these two frames, however much later
(`Activity.InMethod`); so the two distances of a reference to `super` always lead to them.
-/

namespace Lox

open Eval

/-- The method of a class under a name, bound to a receiver. -/
def Eval.dispatch (c : Class) (receiver : Value) (method : String) : Eval Value :=
  match c.findMethod? method with
  | some f => do
    let bound ← bindMethod f receiver
    pure (.function bound)
  | none => Computation.fail (.undefinedProperty method)

/-- A class with a superclass has been declared: its methods, the value of the superclass, the frame
that has been made for that value, and the machine right after. -/
inductive Subclasses : List FunctionDecl → Class → FrameId → Machine → Prop
  | declared {n name e methods m c m₁ flow m₂} :
      Reached (.execute (n + 1) (.cls name (some e) methods)) m →
      evaluate n e m = .done (.cls c) m₁ →
      execute (n + 1) (.cls name (some e) methods) m = .done flow m₂ →
      Subclasses methods c m₁.store.frames.size m₂

/-- One of the methods that close over the frame has been bound to a receiver; the machine is the one
right after. -/
structure BindsOneOf (methods : List FunctionDecl) (frame : FrameId) (receiver : Value)
    (bound : Closure) (m : Machine) : Prop where
  binds : ∃ a m₀, Reached a m₀ ∧ Binds a m₀ receiver bound m
  decl : bound.decl ∈ methods
  enclosing : m.store.enclosing? bound.env = some frame

/-- The functions that come from a bound method: itself, and every function that is declared in a call
of one of them. The second machine is the one on which the function is made. -/
inductive ComesFrom (bound : Closure) (m₀ : Machine) : Closure → Machine → Prop
  | self : ComesFrom bound m₀ bound m₀
  | declared {f m₁ n args m k decl m'} : ComesFrom bound m₀ f m₁ → Later m₁ m →
      Reached (.callFunction (n + 1) f args) m →
      InBody n f args m (.execute (k + 1) (.function decl)) m' →
      ComesFrom bound m₀ ⟨decl, m'.current, false⟩ m'

/-- The activity is part of what the body of a bound method does itself, or the body of a function that
comes from it. -/
def Activity.InMethod (bound : Closure) (m₀ : Machine) (a : Activity) (m : Machine) : Prop :=
  ∃ f m₁ n args m₂, ComesFrom bound m₀ f m₁ ∧ Later m₁ m₂ ∧
    Reached (.callFunction (n + 1) f args) m₂ ∧ InBody n f args m₂ a m

/-! ## The two frames -/

theorem Eval.execute_cls {n : Nat} {name : Token} {e : Expr} {methods : List FunctionDecl} {c : Class}
    {m m₁ m₂ : Machine} (he : evaluate n e m = .done (.cls c) m₁)
    (hd : declareClass name.lexeme (some c) methods m₁ = .done () m₂) :
    execute (n + 1) (.cls name (some e) methods) m = .done .normal m₂ := by
  rw [execute, Computation.bind_of_done he]
  exact Computation.bind_of_done hd _

/-- The frame around the methods has the superclass. -/
theorem Subclasses.local? {methods : List FunctionDecl} {c : Class} {frame : FrameId} {m : Machine}
    (h : Subclasses methods c frame m) : m.store.local? frame "super" = some (.cls c) := by
  cases h with
  | @declared n name e methods m₀ c m₁ flow m₂ hr he hd =>
    have hlive : m₁.current < m₁.store.frames.size :=
      sound_of_enters (.derivedClass he) (sound_of_reached hr)
    rw [execute_cls he (declareClass_derived _ c _ hlive)] at hd
    cases hd
    rw [Store.local?_define_of_ne _ (Nat.ne_of_lt hlive), Store.local?_define _ _ ?_, if_pos rfl]
    simp [Store.addFrame]

/-- Only instances are receivers. -/
theorem Binds.exists_object {a : Activity} {m m' : Machine} {receiver : Value} {bound : Closure}
    (h : Binds a m receiver bound m') : ∃ c o, receiver = .object c o := by
  cases h with
  | get => exact ⟨_, _, rfl⟩
  | super => exact ⟨_, _, rfl⟩
  | construct hobject =>
    cases hobject
    exact ⟨_, _, rfl⟩

/-! ## Inside of the frames -/

/-- A function stays where it has been made. -/
theorem Closure.Under.kept {env : FrameId} {f : Closure} {m m' : Machine} (h : f.Under env m)
    (hk : Kept m m') : f.Under env m' := by
  obtain ⟨t, ctx, scopes, k, hp, ht, hthis, hanc⟩ := h
  exact ⟨t, ctx, scopes, k, hp, fun id d hid => hk.locals id d (ht id d hid), hthis,
    Store.ancestor?_mono hk.store.enclosing? hanc⟩

/-- A function is declared inside of the frames that its declaration runs in. -/
theorem under_of_function {env : FrameId} {n : Nat} {decl : FunctionDecl} {m : Machine}
    (h : (Activity.execute n (.function decl)).Under env m) :
    Closure.Under env ⟨decl, m.current, false⟩ m := by
  have hdecl : Under env m fun t ctx scopes => decl.Linked t { ctx with function := .function } scopes :=
    Under.after h (fun _ _ _ h => h) fun _ _ _ h => h.2
  obtain ⟨t, ctx, scopes, k, hp, ht, hthis, hanc⟩ := hdecl
  exact ⟨t, { ctx with function := .function }, scopes, k, hp, ht, hthis, hanc⟩

theorem ComesFrom.under {bound f : Closure} {m₀ m : Machine} (h : ComesFrom bound m₀ f m)
    (hu : bound.Under bound.env m₀) : f.Under bound.env m := by
  induction h with
  | self => exact hu
  | declared _ hlater hr hbody ih => exact under_of_function (hbody.under_of hr (ih.kept hlater.kept))

theorem ComesFrom.later {bound f : Closure} {m₀ m : Machine} (h : ComesFrom bound m₀ f m) :
    Later m₀ m := by
  induction h with
  | self => exact .refl _
  | declared _ hlater hr hbody ih => exact (ih.trans hlater).trans (hbody.reached hr).2

theorem Activity.InMethod.later {bound : Closure} {m₀ m : Machine} {a : Activity}
    (h : a.InMethod bound m₀ m) : Later m₀ m := by
  obtain ⟨f, m₁, n, args, m₂, hf, hlater, hr, hbody⟩ := h
  exact (hf.later.trans hlater).trans (hbody.reached hr).2

theorem Activity.InMethod.under {bound : Closure} {m₀ m : Machine} {a : Activity}
    (h : a.InMethod bound m₀ m) (hk : m₀.Knows bound.decl) : a.Under bound.env m := by
  obtain ⟨f, m₁, n, args, m₂, hf, hlater, hr, hbody⟩ := h
  exact hbody.under_of hr ((hf.under hk.under).kept hlater.kept)

/-! ## The look-up -/

/-- Under a frame with a receiver, and around it one with a superclass, `super` means these two. -/
theorem evaluate_superRef_of_under {n : Nat} {id : RefId} {keyword method : Token}
    {env frame : FrameId} {m : Machine} {c cls : Class} {o : ObjectId}
    (h : (Activity.evaluate (n + 1) (.superRef id keyword method)).Under env m)
    (hthis : m.store.local? env "this" = some (.object cls o))
    (hframe : m.store.enclosing? env = some frame)
    (hsuper : m.store.local? frame "super" = some (.cls c)) :
    evaluate (n + 1) (.superRef id keyword method) m =
      dispatch c (.object cls o) method.lexeme m := by
  obtain ⟨t, ⟨left, context⟩, scopes, k, ⟨⟨hcls, hid⟩, hcarries⟩, ht, hk, hanc⟩ := h
  obtain rfl : context = .subclass := hcls
  -- The scope of the superclass is the one right around that of the receiver.
  obtain ⟨d, hd, hd'⟩ := hcarries
  have hkd : k = d := Option.some.inj (hk.symm.trans hd.1)
  subst hkd
  rw [hd'.1] at hid
  have hreadThis : m.store.getAt? m.current k "this" = some (.object cls o) := by
    simp only [Store.getAt?, hanc, hthis]
  have hreadSuper : m.store.getAt? m.current (k + 1) "super" = some (.cls c) := by
    simp only [Store.getAt?, Store.ancestor?_of_enclosing? hanc hframe, hsuper]
  rw [evaluate]
  simp only [superMethod, distanceOf?, ht id _ hid, currentFrame, readAt, Nat.add_sub_cancel,
    hreadThis, hreadSuper, found, Computation.bind_apply]
  rfl

/-- In a method of a class `super` finds what the superclass was when the class was declared, for the
receiver that the method has been bound to. -/
theorem evaluate_superRef_of_inMethod {methods : List FunctionDecl} {c : Class} {frame : FrameId}
    {m₁ m₂ m : Machine} {receiver : Value} {bound : Closure} {n : Nat} {id : RefId}
    {keyword method : Token} (hc : Subclasses methods c frame m₁) (hlater : Later m₁ m₂)
    (hb : BindsOneOf methods frame receiver bound m₂)
    (h : (Activity.evaluate (n + 1) (.superRef id keyword method)).InMethod bound m₂ m) :
    evaluate (n + 1) (.superRef id keyword method) m = dispatch c receiver method.lexeme m := by
  obtain ⟨a, m₀, hr, hbinds⟩ := hb.binds
  have hkept := h.later.kept
  have hunder := h.under (hbinds.knows (sound_of_reached hr))
  obtain ⟨cls, o, rfl⟩ := hbinds.exists_object
  exact evaluate_superRef_of_under hunder (hkept.local? (.inl rfl) hbinds.local?)
    (hkept.store.enclosing? _ _ hb.enclosing)
    (hkept.local? (.inr rfl) (hlater.kept.local? (.inr rfl) hc.local?))

end Lox
