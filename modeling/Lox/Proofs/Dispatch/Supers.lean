import Mathlib
import Lox.Proofs.Receiver.Bound

/-!
# Lox.Proofs.Dispatch.Supers

The references to `super` in the text of a method, those in functions inside of it included. The methods
of a class that is declared inside of it are not part of it: there `super` is of that class. Linked code
has such references only in the methods of a class with a superclass, and what a body does itself has
those of the body only.
-/

namespace Lox

mutual

def Expr.supers : Expr → List RefId
  | .constant _ | .unparsed | .var _ _ | .thisRef _ _ => []
  | .grouping e | .unary _ e | .get e _ => e.supers
  | .binary l _ r | .logical l _ r => l.supers ++ r.supers
  | .assign _ _ value => value.supers
  | .call callee _ args => callee.supers ++ Expr.supersOfList args
  | .set object _ value => object.supers ++ value.supers
  | .superRef id _ _ => [id]

def Expr.supersOfList : List Expr → List RefId
  | [] => []
  | e :: es => e.supers ++ Expr.supersOfList es

end

def Expr.supersOfOption : Option Expr → List RefId
  | none => []
  | some e => e.supers

mutual

def Stmt.supers : Stmt → List RefId
  | .expression e => e.supers
  | .var _ init => Expr.supersOfOption init
  | .block body => Stmt.supersOfList body
  | .ifThen c yes => c.supers ++ yes.supers
  | .ifElse c yes no => c.supers ++ yes.supers ++ no.supers
  | .loop c body => c.supers ++ body.supers
  | .function decl => decl.supers
  | .ret _ value => Expr.supersOfOption value
  | .cls _ superclass _ => Expr.supersOfOption superclass

def Stmt.supersOfList : List Stmt → List RefId
  | [] => []
  | s :: ss => s.supers ++ Stmt.supersOfList ss

def FunctionDecl.supers : FunctionDecl → List RefId
  | ⟨_, _, body⟩ => Stmt.supersOfList body

end

/-! ## Outside of classes with a superclass -/

variable {t : Table}

mutual

theorem Expr.supers_eq_nil {ctx : ResolveContext} {scopes : List Scope} :
    ∀ {e : Expr}, e.Linked t ctx scopes → ctx.cls ≠ .subclass → e.supers = []
  | .constant _, _, _ | .var _ _, _, _ | .thisRef _ _, _, _ => by rw [Expr.supers]
  | .unparsed, h, _ => h.elim
  | .grouping e, h, hc | .get e _, h, hc => by
    rw [Expr.supers]
    exact e.supers_eq_nil h hc
  | .unary _ e, h, hc => by
    rw [Expr.supers]
    exact e.supers_eq_nil h.2 hc
  | .binary l _ r, h, hc => by
    rw [Expr.supers, l.supers_eq_nil h.2.1 hc, r.supers_eq_nil h.2.2 hc, List.append_nil]
  | .logical l _ r, h, hc | .set l _ r, h, hc => by
    rw [Expr.supers, l.supers_eq_nil h.1 hc, r.supers_eq_nil h.2 hc, List.append_nil]
  | .assign _ _ e, h, hc => by
    rw [Expr.supers]
    exact e.supers_eq_nil h.2.2 hc
  | .call callee _ args, h, hc => by
    rw [Expr.supers, callee.supers_eq_nil h.1 hc, Expr.supersOfList_eq_nil h.2 hc, List.append_nil]
  | .superRef _ _ _, h, hc => absurd h.1 hc

theorem Expr.supersOfList_eq_nil {ctx : ResolveContext} {scopes : List Scope} :
    ∀ {es : List Expr}, Expr.AllLinked t ctx scopes es → ctx.cls ≠ .subclass →
      Expr.supersOfList es = []
  | [], _, _ => by rw [Expr.supersOfList]
  | e :: es, h, hc => by
    rw [Expr.supersOfList, e.supers_eq_nil h.1 hc, Expr.supersOfList_eq_nil h.2 hc, List.append_nil]

end

theorem Expr.supersOfOption_eq_nil {ctx : ResolveContext} {scopes : List Scope} {e : Option Expr}
    (h : Expr.OptionLinked t ctx scopes e) (hc : ctx.cls ≠ .subclass) :
    Expr.supersOfOption e = [] := by
  cases e with
  | none => rfl
  | some e => exact e.supers_eq_nil h hc

mutual

theorem Stmt.supers_eq_nil {ctx : ResolveContext} {scopes : List Scope} :
    ∀ {s : Stmt}, s.Linked t ctx scopes → ctx.cls ≠ .subclass → s.supers = []
  | .expression e, h, hc => by
    rw [Stmt.supers]
    exact e.supers_eq_nil h hc
  | .var _ init, h, hc => by
    rw [Stmt.supers]
    exact Expr.supersOfOption_eq_nil h.2 hc
  | .block body, h, hc => by
    rw [Stmt.supers]
    exact Stmt.supersOfList_eq_nil h hc
  | .ifThen c yes, h, hc => by
    rw [Stmt.supers, c.supers_eq_nil h.1 hc, yes.supers_eq_nil h.2.2 hc, List.append_nil]
  | .ifElse c yes no, h, hc => by
    rw [Stmt.supers, c.supers_eq_nil h.1 hc, yes.supers_eq_nil h.2.1.2 hc,
      no.supers_eq_nil h.2.2.2 hc, List.append_nil, List.append_nil]
  | .loop c body, h, hc => by
    rw [Stmt.supers, c.supers_eq_nil h.1 hc, body.supers_eq_nil h.2.2 hc, List.append_nil]
  | .function decl, h, hc => by
    rw [Stmt.supers]
    exact decl.supers_eq_nil h.2 hc
  | .ret _ value, h, hc => by
    rw [Stmt.supers]
    exact Expr.supersOfOption_eq_nil h.2 hc
  | .cls _ none _, _, _ => by
    rw [Stmt.supers]
    rfl
  | .cls _ (some e) _, h, hc => by
    rw [Stmt.supers]
    exact e.supers_eq_nil h.2.1 hc

theorem Stmt.supersOfList_eq_nil {ctx : ResolveContext} {scopes : List Scope} :
    ∀ {ss : List Stmt}, Stmt.AllLinked t ctx scopes ss → ctx.cls ≠ .subclass →
      Stmt.supersOfList ss = []
  | [], _, _ => by rw [Stmt.supersOfList]
  | s :: ss, h, hc => by
    rw [Stmt.supersOfList, s.supers_eq_nil h.1 hc, Stmt.supersOfList_eq_nil h.2 hc, List.append_nil]

theorem FunctionDecl.supers_eq_nil {ctx : ResolveContext} {scopes : List Scope} :
    ∀ {d : FunctionDecl}, d.Linked t ctx scopes → ctx.cls ≠ .subclass → d.supers = []
  | ⟨_, _, body⟩, h, hc => by
    rw [FunctionDecl.supers]
    exact Stmt.supersOfList_eq_nil h.2 hc

end

theorem FunctionDecl.AllLinked.supers_eq_nil {ctx : ResolveContext} {scopes : List Scope}
    {ds : List FunctionDecl} (h : FunctionDecl.AllLinked t ctx scopes ds)
    (hc : ctx.cls ≠ .subclass) {d : FunctionDecl} (hd : d ∈ ds) : d.supers = [] := by
  induction ds with
  | nil => cases hd
  | cons d' ds ih =>
    obtain rfl | hd := List.mem_cons.1 hd
    · exact d.supers_eq_nil h.1 hc
    · exact ih h.2 hd

/-! ## What a body does itself -/

/-- The references to `super` in the code that the activity is about. -/
def Activity.supers : Activity → List RefId
  | .program _ ss | .executeAll _ ss => Stmt.supersOfList ss
  | .statement _ s | .execute _ s => s.supers
  | .evaluate _ e => e.supers
  | .evaluateOption _ e => Expr.supersOfOption e
  | .evaluateAll _ es => Expr.supersOfList es
  | _ => []

theorem supers_of_enters {a a' : Activity} {m m' : Machine} (h : Enters a m a' m')
    (hi : a.IsInner) : a'.supers ⊆ a.supers := by
  cases h with
  | body _ _ => exact hi.elim
  | programHead => exact hi.elim
  | programTail _ => exact hi.elim
  | statement => exact hi.elim
  | _ => simp [Activity.supers, Stmt.supers, Stmt.supersOfList, Expr.supers, Expr.supersOfList,
      Expr.supersOfOption]

theorem InBody.supers {n : Nat} {f : Closure} {args : List Value} {m m₁ : Machine} {a : Activity}
    (h : InBody n f args m a m₁) : a.supers ⊆ f.decl.supers := by
  induction h with
  | start _ _ =>
    obtain ⟨⟨name, params, body⟩, env, isInitializer⟩ := f
    exact List.Subset.refl _
  | enter _ hi he ih => exact List.Subset.trans (supers_of_enters he hi) ih

/-- Code with a reference to `super` is part of the body of a function that has been called. -/
theorem supers_eq_nil_or_inBody {a : Activity} {m : Machine} (h : Reached a m) :
    a.supers = [] ∨ ∃ n f args m₀, Reached (.callFunction (n + 1) f args) m₀ ∧
      InBody n f args m₀ a m := by
  induction h with
  | program n hs hcheck =>
    obtain ⟨w, x, t, -, -, hl⟩ := sound_of_reached (.program n hs hcheck)
    exact .inl (Stmt.supersOfList_eq_nil hl (by decide))
  | @enter a m a' m' hr he ih =>
    by_cases hi : a.IsInner
    · obtain hnil | ⟨n, f, args, m₀, hcall, hbody⟩ := ih
      · exact .inl (List.subset_nil.1 (hnil ▸ supers_of_enters he hi))
      · exact .inr ⟨n, f, args, m₀, hcall, hbody.enter hi he⟩
    · have hs := sound_of_reached (hr.enter he)
      cases he with
      | body hchild hparams => exact .inr ⟨_, _, _, _, hr, .start hchild hparams⟩
      | programHead =>
        obtain ⟨w, x, t, -, -, hl⟩ := hs
        exact .inl (Stmt.supers_eq_nil hl (by decide))
      | programTail _ =>
        obtain ⟨w, x, t, -, -, hl⟩ := hs
        exact .inl (Stmt.supersOfList_eq_nil hl (by decide))
      | statement =>
        obtain ⟨w, x, t, -, -, hl⟩ := sound_of_reached hr
        exact .inl (Stmt.supers_eq_nil hl (by decide))
      | _ => exact absurd trivial hi

end Lox
