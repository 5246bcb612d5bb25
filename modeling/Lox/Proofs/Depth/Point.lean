import Lox.Proofs.Scope.Linked

/-!
# Lox.Proofs.Depth.Point

The static walk point by point. `WalksTo` says which code the walk goes on to from some code, and
with which scopes; what it comes to in some programs are their visits (`Visits`), and what is found
there is part of the findings of the whole (`Visits.infix_findings`). A point has each scope twice,
as it is when the walk comes to the code and as it is when the walk over that scope is over, so with
the names that are declared anywhere in it.

Code of linked programs is linked where it is visited, and what its scopes have they have to the end
(`Visits.fits`).
-/

namespace Lox

namespace Resolve

inductive Code where
  | stmt (s : Stmt)
  | stmts (ss : List Stmt)
  | expr (e : Expr)
  | exprs (es : List Expr)
  /-- The parameters and the body of a function or method. -/
  | decl (d : FunctionDecl)

def Code.refs : Code → List (RefId × Token)
  | stmt s => s.refs
  | stmts ss => Stmt.refsOfList ss
  | expr e => e.refs
  | exprs es => Expr.refsOfList es
  | decl d => d.refs

/-- Where the walk is when it comes to some code. -/
structure Point where
  ctx : ResolveContext := {}
  /-- The stack of scopes. -/
  scopes : List Scope := []
  /-- The same scopes, each as it is when the walk over it is over. -/
  whole : List Scope := []
  /-- The class whose superclass this is about. -/
  clauseOf : Option String := none

namespace Point

/-- After a declaration. -/
def declare (p : Point) (name : Token) : Point := { p with scopes := Scope.declare p.scopes name }

/-- After a statement. -/
def after (p : Point) (s : Stmt) : Point :=
  { p with scopes := (Resolve.stmt p.ctx p.scopes s).1 }

/-- In a new scope with these parameters, where these statements are to be walked over. -/
def enter (p : Point) (params : List Token) (body : List Stmt) : Point :=
  let scopes := (declareAll (.empty :: p.scopes) params).1
  { p with scopes := scopes, whole := (Resolve.stmts p.ctx scopes body).1.headD .empty :: p.whole }

/-- In a scope with one name that has it from the start. -/
def wrap (p : Point) (scope : Scope) : Point :=
  { p with scopes := scope :: p.scopes, whole := scope :: p.whole }

/-- The superclass of a class. -/
def clause (p : Point) (name : Token) : Point :=
  { p.declare name with ctx := { p.ctx with cls := .subclass }, clauseOf := some name.lexeme }

/-- In a class, around the scope of the receiver. -/
def aroundThis (p : Point) (name : Token) (left : FunctionContext) : Option Expr → Point
  | none => { p.declare name with ctx := { function := left, cls := .plain } }
  | some _ => { p.declare name with ctx := { function := left, cls := .subclass } }.wrap superScope

/-- A method of a class. -/
def method (p : Point) (name : Token) (superclass : Option Expr) (d : FunctionDecl) : Point :=
  (p.aroundThis name (methodContext d) superclass).wrap thisScope

end Point

/-- The parts over which the walk goes with the scopes of the whole. -/
def Code.inner : Code → List Code
  | expr (.grouping e) | expr (.unary _ e) | expr (.get e _) | expr (.assign _ _ e) => [expr e]
  | expr (.binary l _ r) | expr (.logical l _ r) | expr (.set l _ r) => [expr l, expr r]
  | expr (.call callee _ args) => [expr callee, exprs args]
  | exprs (e :: es) => [expr e, exprs es]
  | stmt (.expression e) | stmt (.ret _ (some e)) => [expr e]
  | stmt (.ifThen e yes) | stmt (.ifElse e yes _) => [expr e, stmt yes]
  | stmt (.loop e body) => [expr e, stmt body]
  | stmts (s :: _) => [stmt s]
  | _ => []

/-- The walk over some code at a point goes on to a part of it at another point. -/
inductive WalksTo : Code → Point → Code → Point → Prop
  | inner {c c' p} : c' ∈ c.inner → WalksTo c p c' p
  | initializer {name e p} : WalksTo (.stmt (.var name (some e))) p (.expr e)
      { p with scopes := (declare p.scopes name).1 }
  | block {body p} : WalksTo (.stmt (.block body)) p (.stmts body) (p.enter [] body)
  | no {e yes no p} : WalksTo (.stmt (.ifElse e yes no)) p (.stmt no) (p.after yes)
  | function {d p} : WalksTo (.stmt (.function d)) p (.decl d)
      { p.declare d.name with ctx := { p.ctx with function := .function } }
  | superclass {name e ms p} : WalksTo (.stmt (.cls name (some e) ms)) p (.expr e) (p.clause name)
  | method {name e ms d p} : d ∈ ms →
      WalksTo (.stmt (.cls name e ms)) p (.decl d) (p.method name e d)
  | more {s ss p} : WalksTo (.stmts (s :: ss)) p (.stmts ss) (p.after s)
  | body {d p} : WalksTo (.decl d) p (.stmts d.body) (p.enter d.params d.body)

/-- The walk over one of the programs comes to the code at this point. -/
inductive Visits (ps : List (List Stmt)) : Code → Point → Prop
  | program {program} : program ∈ ps → Visits ps (.stmts program) {}
  | part {c p c' p'} : Visits ps c p → WalksTo c p c' p' → Visits ps c' p'

theorem Visits.mono {ps ps' : List (List Stmt)} (hps : ps ⊆ ps') {c : Code} {p : Point}
    (h : Visits ps c p) : Visits ps' c p := by
  induction h with
  | program hp => exact .program (hps hp)
  | part _ hw ih => exact .part ih hw

/-! ## What is found on the way -/

/-- What the walk finds in some code at a point. -/
def Code.findings (p : Point) : Code → List Finding
  | stmt s => (Resolve.stmt p.ctx p.scopes s).2
  | stmts ss => (Resolve.stmts p.ctx p.scopes ss).2
  | expr e => Resolve.expr p.ctx p.scopes e
  | exprs es => Resolve.exprs p.ctx p.scopes es
  | decl d => functionBody p.ctx p.scopes d

theorem infix_methods (ctx : ResolveContext) (scopes : List Scope) {d : FunctionDecl} :
    ∀ {ms : List FunctionDecl}, d ∈ ms →
    functionBody { ctx with function := methodContext d } scopes d <:+: methods ctx scopes ms
  | m :: ms, hd => by
    unfold methods
    obtain rfl | hd := List.mem_cons.1 hd
    · exact ⟨[], _, rfl⟩
    · exact (infix_methods ctx scopes hd).trans (List.suffix_append _ _).isInfix

theorem infix_inner_expr {e : Expr} {c' : Code} (h : c' ∈ (Code.expr e).inner) (p : Point) :
    c'.findings p <:+: (Code.expr e).findings p := by
  have hleft (xs ys : List Finding) : xs <:+: xs ++ ys := (List.prefix_append xs ys).isInfix
  have hright (xs ys : List Finding) : ys <:+: xs ++ ys := (List.suffix_append xs ys).isInfix
  cases e with
  | grouping | unary | get =>
    obtain rfl := List.mem_singleton.1 h
    exact List.infix_rfl
  | assign =>
    obtain rfl := List.mem_singleton.1 h
    exact hleft _ _
  | binary | logical | call =>
    obtain rfl | rfl := List.mem_pair.1 h
    · exact hleft _ _
    · exact hright _ _
  | set =>
    -- The value is walked over first.
    obtain rfl | rfl := List.mem_pair.1 h
    · exact hright _ _
    · exact hleft _ _
  | _ => cases h

theorem infix_inner_stmt {s : Stmt} {c' : Code} (h : c' ∈ (Code.stmt s).inner) (p : Point) :
    c'.findings p <:+: (Code.stmt s).findings p := by
  have hleft (xs ys : List Finding) : xs <:+: xs ++ ys := (List.prefix_append xs ys).isInfix
  have hright (xs ys : List Finding) : ys <:+: xs ++ ys := (List.suffix_append xs ys).isInfix
  cases s with
  | expression =>
    obtain rfl := List.mem_singleton.1 h
    exact List.infix_rfl
  | ret keyword value =>
    cases value with
    | none => cases h
    | some e =>
      obtain rfl := List.mem_singleton.1 h
      exact hright _ _
  | ifThen | loop =>
    obtain rfl | rfl := List.mem_pair.1 h
    · exact hleft _ _
    · exact hright _ _
  | ifElse =>
    obtain rfl | rfl := List.mem_pair.1 h
    · exact (hleft _ _).trans (hleft _ _)
    · exact (hright _ _).trans (hleft _ _)
  | _ => cases h

theorem infix_inner {c c' : Code} (h : c' ∈ c.inner) (p : Point) :
    c'.findings p <:+: c.findings p := by
  cases c with
  | expr e => exact infix_inner_expr h p
  | stmt s => exact infix_inner_stmt h p
  | exprs es =>
    cases es with
    | nil => cases h
    | cons =>
      obtain rfl | rfl := List.mem_pair.1 h
      · exact (List.prefix_append _ _).isInfix
      · exact (List.suffix_append _ _).isInfix
  | stmts ss =>
    cases ss with
    | nil => cases h
    | cons =>
      obtain rfl := List.mem_singleton.1 h
      exact (List.prefix_append _ _).isInfix
  | decl => cases h

/-- What the walk finds in the code that it goes on to is part of what it finds in all. -/
theorem WalksTo.infix_findings {c c' : Code} {p p' : Point} (h : WalksTo c p c' p') :
    c'.findings p' <:+: c.findings p := by
  cases h with
  | inner hc => exact infix_inner hc p
  | initializer => exact (List.suffix_append _ _).isInfix
  | block => exact List.infix_rfl
  | no => exact (List.suffix_append _ _).isInfix
  | function => exact (List.suffix_append _ _).isInfix
  | superclass => exact ⟨_, _, rfl⟩
  | @method name e ms d _ hd =>
    cases e with
    | none =>
      have hmethod := infix_methods { p.ctx with cls := .plain }
        (thisScope :: (declareWhole p.scopes name).1) hd
      exact hmethod.trans (List.suffix_append _ _).isInfix
    | some e =>
      have hmethod := infix_methods { p.ctx with cls := .subclass }
        (thisScope :: superScope :: (declareWhole p.scopes name).1) hd
      exact hmethod.trans (List.suffix_append _ _).isInfix
  | more => exact (List.suffix_append _ _).isInfix
  | @body d _ =>
    obtain ⟨name, params, body⟩ := d
    exact (List.suffix_append _ _).isInfix

/-- The visits are those of the walk that makes the findings. -/
theorem Visits.infix_findings {ps : List (List Stmt)} {c : Code} {p : Point} (h : Visits ps c p) :
    ∃ program ∈ ps, c.findings p <:+: Resolve.findings program := by
  induction h with
  | program hp => exact ⟨_, hp, List.infix_rfl⟩
  | part _ hw ih =>
    obtain ⟨program, hp, hfindings⟩ := ih
    exact ⟨program, hp, hw.infix_findings.trans hfindings⟩

end Resolve

namespace Scope

/-- The second scope has the names of the first. -/
def Sub (s s' : Scope) : Prop := ∀ x, s.contains x = true → s'.contains x = true

def AllSub : List Scope → List Scope → Prop := List.Forall₂ Sub

/-- Later the innermost scope has more names. -/
inductive Extends : List Scope → List Scope → Prop
  | nil : Extends [] []
  | cons {s s' : Scope} {outer : List Scope} : s.Sub s' → Extends (s :: outer) (s' :: outer)

theorem Sub.refl (s : Scope) : s.Sub s := fun _ h => h

namespace Extends

theorem refl : ∀ scopes : List Scope, Extends scopes scopes
  | [] => .nil
  | s :: _ => .cons (.refl s)

theorem trans {a b c : List Scope} (h : Extends a b) (h' : Extends b c) : Extends a c := by
  cases h with
  | nil => exact h'
  | cons hs =>
    cases h' with
    | cons hs' => exact .cons fun x hx => hs' x (hs x hx)

theorem enter (name : String) (complete : Bool) :
    ∀ scopes : List Scope, Extends scopes (Scope.enter name complete scopes)
  | [] => .nil
  | s :: outer => by
    refine .cons fun x hx => ?_
    rw [Bindings.contains_insert, hx, Bool.or_true]

theorem declare (scopes : List Scope) (name : Token) : Extends scopes (Scope.declare scopes name) :=
  (Extends.enter name.lexeme false scopes).trans (.enter name.lexeme true _)

/-- Where there is no scope, none is added. -/
theorem eq_nil {scopes : List Scope} (h : Extends [] scopes) : scopes = [] := by
  cases h
  rfl

/-- What is part of the later scopes is part of the earlier ones all the more. -/
theorem allSub {a b whole : List Scope} (h : Extends a b) (hb : AllSub b whole) :
    AllSub a whole := by
  cases h with
  | nil => exact hb
  | cons hs =>
    cases hb with
    | cons hw hrest => exact .cons (fun x hx => hw x (hs x hx)) hrest

end Extends

end Scope

open Scope (Extends AllSub)

namespace Resolve

/-! ## The walk adds names to the innermost scope only -/

theorem extends_declareAll (names : List Token) :
    ∀ scopes : List Scope, Extends scopes (declareAll scopes names).1 := by
  induction names with
  | nil => exact .refl
  | cons name names ih =>
    intro scopes
    exact (Extends.declare scopes name).trans (ih _)

mutual

theorem extends_stmt (ctx : ResolveContext) (scopes : List Scope) :
    ∀ s : Stmt, Extends scopes (stmt ctx scopes s).1
  | .expression _ | .block _ | .ret _ _ => .refl scopes
  | .var name _ => .declare scopes name
  | .function decl => .declare scopes decl.name
  | .cls name none _ | .cls name (some _) _ => .declare scopes name
  | .ifThen _ yes => extends_stmt ctx scopes yes
  | .ifElse _ yes no => (extends_stmt ctx scopes yes).trans (extends_stmt ctx _ no)
  | .loop _ body => extends_stmt ctx scopes body

theorem extends_stmts (ctx : ResolveContext) (scopes : List Scope) :
    ∀ ss : List Stmt, Extends scopes (stmts ctx scopes ss).1
  | [] => .refl scopes
  | s :: ss => (extends_stmt ctx scopes s).trans (extends_stmts ctx _ ss)

end

/-- When the walk over a body is over, the scope of the body is whole. -/
theorem allSub_enter {p : Point} (params : List Token) (body : List Stmt)
    (h : AllSub p.scopes p.whole) :
    AllSub (stmts (p.enter params body).ctx (p.enter params body).scopes body).1
      (p.enter params body).whole := by
  have hextends := (extends_declareAll params (.empty :: p.scopes)).trans
    (extends_stmts p.ctx _ body)
  unfold Point.enter
  dsimp only
  revert hextends
  generalize (stmts p.ctx _ body).1 = scopes
  intro hextends
  cases hextends with
  | cons => exact .cons (.refl _) h

end Resolve

/-! ## Parts of linked code -/

open Resolve

theorem Stmt.Linked.fst_stmt {t : Table} : ∀ {s : Stmt} {ctx : ResolveContext}
    {scopes : List Scope}, s.Linked t ctx scopes → (stmt ctx scopes s).1 = s.after scopes
  | .expression _, _, _, _ | .var _ _, _, _, _ | .block _, _, _, _ | .function _, _, _, _
  | .ret _ _, _, _, _ | .cls _ none _, _, _, _ | .cls _ (some _) _, _, _, _ => rfl
  | .ifThen condition yes, ctx, scopes, h => by
    have hyes : (stmt ctx scopes yes).1 = yes.after scopes := Stmt.Linked.fst_stmt h.2.2
    rwa [Stmt.after_of_isStatement h.2.1] at hyes
  | .ifElse condition yes no, ctx, scopes, h => by
    obtain ⟨-, ⟨hys, hy⟩, hns, hn⟩ := h
    have hyes : (stmt ctx scopes yes).1 = yes.after scopes := Stmt.Linked.fst_stmt hy
    have hno : (stmt ctx scopes no).1 = no.after scopes := Stmt.Linked.fst_stmt hn
    rw [Stmt.after_of_isStatement hys] at hyes
    rw [Stmt.after_of_isStatement hns] at hno
    simp only [stmt, hyes]
    exact hno
  | .loop condition body, ctx, scopes, h => by
    have hbody : (stmt ctx scopes body).1 = body.after scopes := Stmt.Linked.fst_stmt h.2.2
    rwa [Stmt.after_of_isStatement h.2.1] at hbody

theorem FunctionDecl.AllLinked.of_mem {t : Table} {ctx : ResolveContext} {scopes : List Scope}
    {ms : List FunctionDecl} (h : FunctionDecl.AllLinked t ctx scopes ms) {d : FunctionDecl}
    (hd : d ∈ ms) : d.Linked t { ctx with function := methodContext d } scopes := by
  induction ms with
  | nil => cases hd
  | cons m ms ih =>
    obtain rfl | hd := List.mem_cons.1 hd
    · exact h.1
    · exact ih h.2 hd

namespace Resolve

/-! ## Visits of linked programs -/

/-- What is known of code of a linked program. A superclass is linked outside of its class. -/
def Code.Fits (T : Table) (p : Point) : Code → Prop
  | stmt s => (∃ t, t.Le T ∧ s.Linked t p.ctx p.scopes) ∧ AllSub (s.after p.scopes) p.whole ∧
      p.clauseOf = none
  | stmts ss => (∃ t, t.Le T ∧ Stmt.AllLinked t p.ctx p.scopes ss) ∧
      AllSub (Resolve.stmts p.ctx p.scopes ss).1 p.whole ∧ p.clauseOf = none
  | expr e => ∃ t ctx scopes, Table.Le t T ∧ e.Linked t ctx scopes ∧ AllSub scopes p.whole
  | exprs es => ∃ t ctx scopes, Table.Le t T ∧ Expr.AllLinked t ctx scopes es ∧
      AllSub scopes p.whole
  | decl d => (∃ t, t.Le T ∧ d.Linked t p.ctx p.scopes) ∧ AllSub p.scopes p.whole ∧
      p.clauseOf = none

namespace Code.Fits

variable {T : Table} {p : Point}

/-- Code of a linked program is linked in scopes that are whole later. -/
theorem allSub {ss : List Stmt} (h : (Code.stmts ss).Fits T p) : AllSub p.scopes p.whole :=
  (extends_stmts p.ctx p.scopes ss).allSub h.2.1

theorem allSub_of_stmt {s : Stmt} (h : (Code.stmt s).Fits T p) : AllSub p.scopes p.whole := by
  obtain ⟨⟨t, -, hl⟩, hw, -⟩ := h
  rw [← hl.fst_stmt] at hw
  exact (extends_stmt p.ctx p.scopes s).allSub hw

/-- A statement that declares nothing leaves the point as it is. -/
theorem after_eq {s : Stmt} (h : (Code.stmt s).Fits T p) (hs : s.isStatement = true) :
    p.after s = p := by
  obtain ⟨⟨t, -, hl⟩, -, -⟩ := h
  unfold Point.after
  rw [hl.fst_stmt, Stmt.after_of_isStatement hs]

theorem method {name : Token} {superclass : Option Expr} {ms : List FunctionDecl}
    (h : (Code.stmt (.cls name superclass ms)).Fits T p) {d : FunctionDecl} (hd : d ∈ ms) :
    (Code.decl d).Fits T (p.method name superclass d) := by
  obtain ⟨⟨t, ht, hl⟩, hw, hc⟩ := h
  cases superclass with
  | none => exact ⟨⟨t, ht, hl.2.of_mem hd⟩, .cons (.refl _) hw, hc⟩
  | some e => exact ⟨⟨t, ht, hl.2.2.of_mem hd⟩, .cons (.refl _) (.cons (.refl _) hw), hc⟩

theorem inner_expr {e : Expr} {c' : Code} (h : (Code.expr e).Fits T p)
    (hc : c' ∈ (Code.expr e).inner) : c'.Fits T p := by
  obtain ⟨t, ctx, scopes, ht, hl, hs⟩ := h
  cases e with
  | grouping | get =>
    obtain rfl := List.mem_singleton.1 hc
    exact ⟨t, ctx, scopes, ht, hl, hs⟩
  | unary =>
    obtain rfl := List.mem_singleton.1 hc
    exact ⟨t, ctx, scopes, ht, hl.2, hs⟩
  | assign =>
    obtain rfl := List.mem_singleton.1 hc
    exact ⟨t, ctx, scopes, ht, hl.2.2, hs⟩
  | binary =>
    obtain rfl | rfl := List.mem_pair.1 hc
    · exact ⟨t, ctx, scopes, ht, hl.2.1, hs⟩
    · exact ⟨t, ctx, scopes, ht, hl.2.2, hs⟩
  | logical | set | call =>
    obtain rfl | rfl := List.mem_pair.1 hc
    · exact ⟨t, ctx, scopes, ht, hl.1, hs⟩
    · exact ⟨t, ctx, scopes, ht, hl.2, hs⟩
  | _ => cases hc

theorem inner_stmt {s : Stmt} {c' : Code} (h : (Code.stmt s).Fits T p)
    (hc : c' ∈ (Code.stmt s).inner) : c'.Fits T p := by
  have hs := h.allSub_of_stmt
  obtain ⟨⟨t, ht, hl⟩, -, hp⟩ := h
  cases s with
  | expression =>
    obtain rfl := List.mem_singleton.1 hc
    exact ⟨t, _, _, ht, hl, hs⟩
  | ret keyword value =>
    cases value with
    | none => cases hc
    | some e =>
      obtain rfl := List.mem_singleton.1 hc
      exact ⟨t, _, _, ht, hl.2, hs⟩
  | ifThen | loop =>
    obtain rfl | rfl := List.mem_pair.1 hc
    · exact ⟨t, _, _, ht, hl.1, hs⟩
    · refine ⟨⟨t, ht, hl.2.2⟩, ?_, hp⟩
      rwa [Stmt.after_of_isStatement hl.2.1]
  | ifElse =>
    obtain rfl | rfl := List.mem_pair.1 hc
    · exact ⟨t, _, _, ht, hl.1, hs⟩
    · refine ⟨⟨t, ht, hl.2.1.2⟩, ?_, hp⟩
      rwa [Stmt.after_of_isStatement hl.2.1.1]
  | _ => cases hc

theorem inner {c c' : Code} (h : c.Fits T p) (hc : c' ∈ c.inner) : c'.Fits T p := by
  cases c with
  | expr e => exact h.inner_expr hc
  | stmt s => exact h.inner_stmt hc
  | exprs es =>
    obtain ⟨t, ctx, scopes, ht, hl, hs⟩ := h
    cases es with
    | nil => cases hc
    | cons =>
      obtain rfl | rfl := List.mem_pair.1 hc
      · exact ⟨t, ctx, scopes, ht, hl.1, hs⟩
      · exact ⟨t, ctx, scopes, ht, hl.2, hs⟩
  | stmts ss =>
    obtain ⟨⟨t, ht, hl⟩, hs, hp⟩ := h
    cases ss with
    | nil => cases hc
    | cons s ss =>
      obtain rfl := List.mem_singleton.1 hc
      refine ⟨⟨t, ht, hl.1⟩, ?_, hp⟩
      rw [← hl.1.fst_stmt]
      exact (extends_stmts _ _ _).allSub hs
  | decl => cases hc

/-- From code of a linked program the walk goes on to such code. -/
theorem walk {c c' : Code} {p' : Point} (h : c.Fits T p) (hw : WalksTo c p c' p') :
    c'.Fits T p' := by
  cases hw with
  | inner hc => exact h.inner hc
  | initializer =>
    obtain ⟨⟨t, ht, hl⟩, hs, -⟩ := h
    exact ⟨t, _, _, ht, hl.2, (Extends.enter _ true _).allSub hs⟩
  | block =>
    have hs := h.allSub_of_stmt
    obtain ⟨⟨t, ht, hl⟩, -, hp⟩ := h
    exact ⟨⟨t, ht, hl⟩, allSub_enter [] _ hs, hp⟩
  | @no e yes no _ =>
    have hyes : (Code.stmt yes).Fits T p := h.inner (.tail _ (.head _))
    obtain ⟨⟨t, ht, hl⟩, hs, hp⟩ := h
    rw [hyes.after_eq hl.2.1.1]
    refine ⟨⟨t, ht, hl.2.2.2⟩, ?_, hp⟩
    rwa [Stmt.after_of_isStatement hl.2.2.1]
  | function =>
    obtain ⟨⟨t, ht, hl⟩, hs, hp⟩ := h
    exact ⟨⟨t, ht, hl.2⟩, hs, hp⟩
  | superclass =>
    have hs := h.allSub_of_stmt
    obtain ⟨⟨t, ht, hl⟩, -, -⟩ := h
    exact ⟨t, _, _, ht, hl.2.1, hs⟩
  | method hd => exact h.method hd
  | more =>
    obtain ⟨⟨t, ht, hl⟩, hs, hp⟩ := h
    refine ⟨⟨t, ht, ?_⟩, hs, hp⟩
    show Stmt.AllLinked t p.ctx (Resolve.stmt p.ctx p.scopes _).1 _
    rw [hl.1.fst_stmt]
    exact hl.2
  | @body d =>
    obtain ⟨⟨t, ht, hl⟩, hs, hp⟩ := h
    obtain ⟨name, params, body⟩ := d
    exact ⟨⟨t, ht, hl.2⟩, allSub_enter params body hs, hp⟩

end Code.Fits

/-- The programs are linked by distances that the table has. -/
def Known (ps : List (List Stmt)) (T : Table) : Prop :=
  ∀ program ∈ ps, (Code.stmts program).Fits T {}

theorem Visits.fits {ps : List (List Stmt)} {T : Table} (h : Known ps T) {c : Code} {p : Point}
    (hv : Visits ps c p) : c.Fits T p := by
  induction hv with
  | program hp => exact h _ hp
  | part _ hw ih => exact ih.walk hw

end Resolve
end Lox
