import Lox.Proofs.Depth.Evaluated
import Lox.Proofs.Depth.Visits
import Lox.Proofs.Safety.Reached

/-!
# Lox.Proofs.Depth.Entered

Activities keep to the chart. If the code of an activity stands in its frame, then so does that of
all it is made of (`Activity.Fits.leads`), at the point to which the walk goes on from it. Calls
start at the point of the declaration of their function.
-/

namespace Lox

open Resolve

/-- The code of a program that an activity runs. -/
def Activity.code? : Activity → Option Code
  | program _ ss | executeAll _ ss => some (.stmts ss)
  | statement _ s | execute _ s => some (.stmt s)
  | evaluate _ e => some (.expr e)
  | evaluateOption _ e => e.map .expr
  | evaluateAll _ es => some (.exprs es)
  | callFunction _ f _ => some (.decl f.decl)
  | assign _ _ _ | declareClass _ _ _ | invoke _ _ _ | call _ _ _ => none

/-- The frame that an activity starts from. A call makes its own inside of that of the function. -/
def Activity.frame (m : Machine) : Activity → FrameId
  | callFunction _ f _ => f.env
  | _ => m.current

/-- What an activity starts with stands in its frame, and a program is at the top. -/
def Activity.Given (ps : List (List Stmt)) (w : Chart) (p : Point) : Activity → Prop
  | program _ _ => p = {}
  | invoke _ f args => f.In (w.region ps) ∧ ∀ v ∈ args, v.In (w.region ps)
  | call _ c args => c.Holds (Value.In (w.region ps)) ∧ (∀ v ∈ args, v.In (w.region ps)) ∧
      args.length = c.arity
  | callFunction _ f args => (∀ v ∈ args, v.In (w.region ps)) ∧ args.length = f.arity
  | _ => True

/-- The walk comes to the code of the activity at this point, where it stands in its frame. -/
structure Activity.Fits (ps : List (List Stmt)) (w : Chart) (m : Machine) (p : Point)
    (a : Activity) : Prop where
  code : ∀ c, a.code? = some c → Visits ps c p ∧ w.Stands (a.frame m) p
  given : a.Given ps w p

/-- The part of an activity keeps to a chart, at the point to which the walk goes on. -/
def Activity.Leads (ps : List (List Stmt)) (T : Table) (p : Point) (a a' : Activity)
    (m' : Machine) : Prop :=
  ∃ w' p', Charted ps T w' m'.current m' ∧ a'.Fits ps w' m' p' ∧
    ∀ c c', a.code? = some c → a'.code? = some c' → Moves c p c' p'

/-- Where no scope is around it, a statement leaves none. -/
theorem Resolve.Point.after_top (s : Stmt) : ({} : Point).after s = {} := by
  unfold Point.after
  rw [(extends_stmt {} [] s).eq_nil]

section

variable {ps : List (List Stmt)} {T : Table} {w : Chart} {m m' : Machine} {p : Point}
  {a a' : Activity} {c c' : Code}

namespace Activity.Leads

/-- Code that the walk goes on to starts in the current frame. -/
theorem of_code {p' : Point} {frame : FrameId} (hw : Moves c p c' p') (hv : Visits ps c p)
    (h : Charted ps T w frame m') (hs : w.Stands frame p') (hc : a.code? = some c)
    (hc' : a'.code? = some c') (hframe : a'.frame m' = m'.current) (hgiven : a'.Given ps w p') :
    Activity.Leads ps T p a a' m' := by
  obtain rfl := h.current
  refine ⟨w, p', h, ⟨fun code hcode => ?_, hgiven⟩, fun c₁ c₂ h₁ h₂ => ?_⟩
  · obtain rfl := Option.some.inj (hc'.symm.trans hcode)
    rw [hframe]
    obtain ⟨rfl, rfl⟩ | hw := hw
    · exact ⟨hv, hs⟩
    · exact ⟨hv.part hw, hs⟩
  · obtain rfl := Option.some.inj (hc.symm.trans h₁)
    obtain rfl := Option.some.inj (hc'.symm.trans h₂)
    exact hw

theorem of_no_code {frame : FrameId} (h : Charted ps T w frame m') (hc' : a'.code? = none)
    (hgiven : a'.Given ps w p) : Activity.Leads ps T p a a' m' := by
  obtain rfl := h.current
  have hno : ∀ c, a'.code? ≠ some c := fun c hc => nomatch hc'.symm.trans hc
  exact ⟨w, p, h, ⟨fun c hc => absurd hc (hno c), hgiven⟩, fun _ c _ hc => absurd hc (hno c)⟩

end Activity.Leads

/-! ## Into the parts -/

namespace Charted

variable {n : Nat} {frame : FrameId} (h : Charted ps T w frame m)
include h

theorem enter_execute {s : Stmt} (hs : w.Stands frame p) (hv : Visits ps (.stmt s) p)
    (he : Enters (.execute (n + 1) s) m a' m') :
    Activity.Leads ps T p (.execute (n + 1) s) a' m' := by
  have hnone : p.clauseOf = none := (hv.fits h.known).2.2
  have hbefore {e : Expr} (hve : Visits ps (.expr e) p) {v : Value} {m' : Machine}
      (hdone : Eval.evaluate n e m = .done v m') :
      ∃ w', w.Le w' ∧ Charted ps T w' frame m' ∧ v.In (w'.region ps) :=
    ((chartsAt ps T n).evaluate h hs hve).of_done hdone
  cases he with
  | expression | ifCondition | elseCondition | loopCondition =>
    exact .of_code (.inr (.inner (.head _))) hv h hs rfl rfl rfl trivial
  | @var _ name init =>
    cases init with
    | none => exact .of_no_code h rfl trivial
    | some e => exact .of_code (.inr .initializer) hv h (hs.begin name) rfl rfl rfl trivial
  | @block _ body _ _ _ hchild =>
    obtain rfl := h.current
    obtain ⟨w₁, -, h₁, hbody⟩ := (h.childFrame hs hnone [] body).of_done hchild
    exact .of_code (.inr .block) hv (h₁.inFrame _) hbody rfl rfl rfl trivial
  | ifYes hdone _ | elseYes hdone _ | loopBody hdone _ =>
    obtain ⟨w₁, hle, h₁, -⟩ := hbefore (hv.part (.inner (.head _))) hdone
    exact .of_code (.inr (.inner (.tail _ (.head _)))) hv h₁ (hs.mono hle) rfl rfl rfl trivial
  | elseNo hdone _ =>
    obtain ⟨t, -, -, ⟨hyes, -⟩, -⟩ := (hv.fits h.known).1
    have hvyes := hv.part (.inner (.tail _ (.head _)))
    obtain ⟨w₁, hle, h₁, -⟩ := hbefore (hv.part (.inner (.head _))) hdone
    have hs₁ := hs.mono hle
    rw [← (hvyes.fits h.known).after_eq hyes] at hs₁
    exact .of_code (.inr .no) hv h₁ hs₁ rfl rfl rfl trivial
  | loopAgain hdone _ hbody =>
    obtain ⟨w₁, hle₁, h₁, -⟩ := hbefore (hv.part (.inner (.head _))) hdone
    have hvbody := hv.part (.inner (.tail _ (.head _)))
    obtain ⟨w₂, hle₂, h₂, -⟩ :=
      ((chartsAt ps T n).execute h₁ (hs.mono hle₁) hvbody).of_done hbody
    exact .of_code (.inl ⟨rfl, rfl⟩) hv h₂ (hs.mono (hle₁.trans hle₂)) rfl rfl rfl trivial
  | @ret _ _ value =>
    cases value with
    | none => exact .of_no_code h rfl trivial
    | some e => exact .of_code (.inr (.inner (.head _))) hv h hs rfl rfl rfl trivial
  | baseClass => exact .of_no_code h rfl trivial
  | superclass => exact .of_code (.inr .superclass) hv h (hs.clause hnone _) rfl rfl rfl trivial
  | derivedClass hdone =>
    obtain ⟨w₁, -, h₁, -⟩ := ((chartsAt ps T n).evaluate h (hs.clause hnone _)
      (hv.part .superclass)).of_done hdone
    exact .of_no_code h₁ rfl trivial

theorem enter_executeAll {ss : List Stmt} (hs : w.Stands frame p) (hv : Visits ps (.stmts ss) p)
    (he : Enters (.executeAll (n + 1) ss) m a' m') :
    Activity.Leads ps T p (.executeAll (n + 1) ss) a' m' := by
  cases he with
  | firstStatement => exact .of_code (.inr (.inner (.head _))) hv h hs rfl rfl rfl trivial
  | moreStatements hdone =>
    obtain ⟨w₁, -, h₁, hs₁⟩ :=
      ((chartsAt ps T n).execute h hs (hv.part (.inner (.head _)))).of_done hdone
    exact .of_code (.inr .more) hv h₁ hs₁ rfl rfl rfl trivial

theorem enter_evaluate {e : Expr} (hs : w.Stands frame p) (hv : Visits ps (.expr e) p)
    (he : Enters (.evaluate (n + 1) e) m a' m') :
    Activity.Leads ps T p (.evaluate (n + 1) e) a' m' := by
  have hbefore {e : Expr} (hve : Visits ps (.expr e) p) {v : Value} {m' : Machine}
      (hdone : Eval.evaluate n e m = .done v m') :
      ∃ w', w.Le w' ∧ Charted ps T w' frame m' ∧ v.In (w'.region ps) :=
    ((chartsAt ps T n).evaluate h hs hve).of_done hdone
  cases he with
  | binaryRight hdone | logicalRight hdone _ | arguments hdone | setValue hdone =>
    obtain ⟨w₁, hle, h₁, -⟩ := hbefore (hv.part (.inner (.head _))) hdone
    exact .of_code (.inr (.inner (.tail _ (.head _)))) hv h₁ (hs.mono hle) rfl rfl rfl trivial
  | assign hdone =>
    obtain ⟨w₁, -, h₁, -⟩ := hbefore (hv.part (.inner (.head _))) hdone
    exact .of_no_code h₁ rfl trivial
  | invoke hdone hargs =>
    obtain ⟨w₁, hle₁, h₁, hf⟩ := hbefore (hv.part (.inner (.head _))) hdone
    have hvargs := hv.part (.inner (.tail _ (.head _)))
    obtain ⟨w₂, hle₂, h₂, hvs⟩ :=
      ((chartsAt ps T n).evaluateAll h₁ (hs.mono hle₁) hvargs).of_done hargs
    exact .of_no_code h₂ rfl ⟨.mono hle₂ hf, hvs⟩
  | _ => exact .of_code (.inr (.inner (.head _))) hv h hs rfl rfl rfl trivial

theorem enter_evaluateAll {es : List Expr} (hs : w.Stands frame p) (hv : Visits ps (.exprs es) p)
    (he : Enters (.evaluateAll (n + 1) es) m a' m') :
    Activity.Leads ps T p (.evaluateAll (n + 1) es) a' m' := by
  cases he with
  | firstArgument => exact .of_code (.inr (.inner (.head _))) hv h hs rfl rfl rfl trivial
  | moreArguments hdone =>
    obtain ⟨w₁, hle, h₁, -⟩ :=
      ((chartsAt ps T n).evaluate h hs (hv.part (.inner (.head _)))).of_done hdone
    exact .of_code (.inr (.inner (.tail _ (.head _)))) hv h₁ (hs.mono hle) rfl rfl rfl trivial

/-- Nothing is declared at the top level, so it does not matter how a statement ends. -/
theorem enter_program {ss : List Stmt} (hs : w.Stands frame {}) (hv : Visits ps (.stmts ss) {})
    (he : Enters (.program n ss) m a' m') : Activity.Leads ps T {} (.program n ss) a' m' := by
  cases he with
  | programHead => exact .of_code (.inr (.inner (.head _))) hv h hs rfl rfl rfl trivial
  | @programTail _ s _ _ _ _ hdone =>
    obtain ⟨w₁, hle, h₁, -⟩ :=
      ((chartsAt ps T n).execute h hs (hv.part (.inner (.head _)))).of_done hdone
    have hs₁ := hs.mono hle
    rw [← Point.after_top s] at hs₁
    exact .of_code (.inr .more) hv h₁ hs₁ rfl rfl rfl (Point.after_top s)

/-- A call starts where its function was declared. -/
theorem enter_call {c : Callable} {args : List Value} (hc : c.Holds (Value.In (w.region ps)))
    (hargs : ∀ v ∈ args, v.In (w.region ps)) (hlen : args.length = c.arity)
    (he : Enters (.call (n + 1) c args) m a' m') :
    Activity.Leads ps T p (.call (n + 1) c args) a' m' := by
  obtain rfl := h.current
  cases he with
  | @function _ f =>
    obtain ⟨q, hq, hs⟩ : f.Stands ps w := hc
    refine ⟨w, q, h, ⟨?_, hargs, hlen⟩, nofun⟩
    rintro _ ⟨⟩
    exact ⟨hq, hs⟩
  | @initializer _ c _ _ object _ init bound _ hobject hinit hbound =>
    obtain ⟨w₁, hle₁, h₁, hin⟩ := (h.newObject (c := c) hc).of_done hobject
    have hclass : c.In (w₁.region ps) := Value.In.mono (v := .cls c) hle₁ hc
    obtain ⟨w₂, hle₂, h₂, ⟨q, hq, hs⟩, hdecl⟩ :=
      (h₁.bindMethod (hclass.findMethod? hinit) hin).of_done hbound
    refine ⟨w₂, q, h₂.inFrame _, ⟨?_, ?_, ?_⟩, nofun⟩
    · rintro _ ⟨⟩
      exact ⟨hq, hs⟩
    · exact fun v hv => .mono (hle₁.trans hle₂) (hargs v hv)
    · rw [Closure.arity, hdecl]
      simp only [Callable.arity, Class.arity, hinit] at hlen
      exact hlen

theorem enter_callFunction {f : Closure} {args : List Value} (hs : w.Stands f.env p)
    (hv : Visits ps (.decl f.decl) p) (hargs : ∀ v ∈ args, v.In (w.region ps))
    (hlen : args.length = f.arity) (he : Enters (.callFunction (n + 1) f args) m a' m') :
    Activity.Leads ps T p (.callFunction (n + 1) f args) a' m' := by
  have hnone : p.clauseOf = none := (hv.fits h.known).2.2
  have hsub := ((hv.part .body).fits h.known).allSub
  cases he with
  | body hchild hparams =>
    obtain ⟨w₁, hle₁, h₁, hs₁⟩ :=
      (h.childFrame hs hnone f.decl.params f.decl.body).of_done hchild
    have hargs₁ := fun v hv => (hargs v hv).mono hle₁
    obtain ⟨w₂, -, h₂, hs₂⟩ := (Charted.defineAll h₁ hs₁ hsub hargs₁ hlen).of_done hparams
    exact .of_code (.inr .body) hv (h₂.inFrame _) hs₂ rfl rfl rfl trivial

end Charted

/-- Activities keep to a chart from one to the next. -/
theorem Activity.Fits.leads (hf : a.Fits ps w m p) (h : Charted ps T w m.current m)
    (he : Enters a m a' m') : Activity.Leads ps T p a a' m' := by
  cases a with
  | program n ss =>
    obtain ⟨hv, hs⟩ := hf.code _ rfl
    obtain rfl : p = {} := hf.given
    exact h.enter_program hs hv he
  | statement n s =>
    obtain ⟨hv, hs⟩ := hf.code _ rfl
    cases he
    exact .of_code (.inl ⟨rfl, rfl⟩) hv h hs rfl rfl rfl trivial
  | execute n s =>
    obtain ⟨hv, hs⟩ := hf.code _ rfl
    cases n with
    | zero => cases he
    | succ n => exact h.enter_execute hs hv he
  | executeAll n ss =>
    obtain ⟨hv, hs⟩ := hf.code _ rfl
    cases n with
    | zero => cases he
    | succ n => exact h.enter_executeAll hs hv he
  | evaluate n e =>
    obtain ⟨hv, hs⟩ := hf.code _ rfl
    cases n with
    | zero => cases he
    | succ n => exact h.enter_evaluate hs hv he
  | evaluateOption n e =>
    cases he with
    | option =>
      obtain ⟨hv, hs⟩ := hf.code _ rfl
      exact .of_code (.inl ⟨rfl, rfl⟩) hv h hs rfl rfl rfl trivial
  | evaluateAll n es =>
    obtain ⟨hv, hs⟩ := hf.code _ rfl
    cases n with
    | zero => cases he
    | succ n => exact h.enter_evaluateAll hs hv he
  | assign | declareClass => cases he
  | invoke n f args =>
    cases he with
    | call hc hlen =>
      obtain ⟨hval, hargs⟩ := hf.given
      exact .of_no_code h rfl ⟨Value.holds_of_callable? hval hc, hargs, hlen⟩
  | call n c args =>
    obtain ⟨hc, hargs, hlen⟩ := hf.given
    cases n with
    | zero => cases he
    | succ n => exact h.enter_call hc hargs hlen he
  | callFunction n f args =>
    obtain ⟨hv, hs⟩ := hf.code _ rfl
    obtain ⟨hargs, hlen⟩ := hf.given
    cases n with
    | zero => cases he
    | succ n => exact h.enter_callFunction hs hv hargs hlen he

end

end Lox
