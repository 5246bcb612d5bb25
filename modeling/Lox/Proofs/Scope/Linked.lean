import Lox.Proofs.Scope.Formed
import Lox.Scope.Resolve

/-!
# Lox.Proofs.Scope.Linked

Trees that are ready to run. In a linked tree each reference has, in the table of the machine, the
distance of its name in the scopes around it, and the static rules are kept: a name is declared once
in a scope and not read before its declaration is complete, `this` and `super` stand where they mean
something, and a `return` leaves a function, an initializer without a value.

A formed tree whose findings hold no violation is linked in any table that has its distances
(`Stmt.linked`). The findings of a subtree are a stretch of the findings of the tree, and as no two
references share a number, looking one up among all of them is looking it up in that stretch
(`Covers.split`).
-/

namespace Lox

/-- The distances that a machine knows. A reference from `next` on is of a program still to come. -/
structure Table where
  locals : Locals
  next : RefId
  fresh : ∀ id, next ≤ id → locals.find? id = none

namespace Table

def empty : Table := ⟨.empty, 0, fun _ _ => rfl⟩

/-- The table has this distance for a reference, and will not get another. -/
def Says (t : Table) (id : RefId) (distance : Option Nat) : Prop :=
  id < t.next ∧ t.locals.find? id = distance

/-- One table is another at a later time. -/
def Le (t t' : Table) : Prop :=
  t.next ≤ t'.next ∧ ∀ id, id < t.next → t'.locals.find? id = t.locals.find? id

theorem Le.refl (t : Table) : t.Le t := ⟨Nat.le_refl _, fun _ _ => rfl⟩

theorem Le.trans {t t' t'' : Table} (h : t.Le t') (h' : t'.Le t'') : t.Le t'' := by
  refine ⟨Nat.le_trans h.1 h'.1, fun id hid => ?_⟩
  rw [h'.2 id (Nat.lt_of_lt_of_le hid h.1), h.2 id hid]

theorem Says.mono {t t' : Table} {id : RefId} {d : Option Nat} (h : t.Says id d) (hle : t.Le t') :
    t'.Says id d :=
  ⟨Nat.lt_of_lt_of_le h.1 hle.1, by rw [hle.2 id h.1]; exact h.2⟩

end Table

open Resolve

/-! ## Linked trees -/

/-- The name is new in its scope. -/
def Token.Declarable (scopes : List Scope) (name : Token) : Prop :=
  name.IsName ∧ Scope.declares name.lexeme scopes = false

mutual

def Expr.Linked (t : Table) (ctx : ResolveContext) (scopes : List Scope) : Expr → Prop
  | .constant _ => True
  | .grouping e | .get e _ => e.Linked t ctx scopes
  | .unary operator e => operator.kind ∈ Operator.unaryKinds ∧ e.Linked t ctx scopes
  | .binary l operator r =>
    operator.kind ∈ Operator.binaryKinds ∧ l.Linked t ctx scopes ∧ r.Linked t ctx scopes
  | .logical l _ r => l.Linked t ctx scopes ∧ r.Linked t ctx scopes
  | .var id name =>
    t.Says id (Scope.distance? name.lexeme scopes) ∧ Scope.isPending name.lexeme scopes = false
  | .assign id name value =>
    name.IsName ∧ t.Says id (Scope.distance? name.lexeme scopes) ∧ value.Linked t ctx scopes
  | .call callee _ args => callee.Linked t ctx scopes ∧ Expr.AllLinked t ctx scopes args
  | .set object _ value => object.Linked t ctx scopes ∧ value.Linked t ctx scopes
  | .thisRef id keyword =>
    keyword.lexeme = "this" ∧ ctx.cls ≠ .outside ∧ t.Says id (Scope.distance? "this" scopes)
  | .superRef id _ _ => ctx.cls = .subclass ∧ t.Says id (Scope.distance? "super" scopes)
  | .unparsed => False

def Expr.AllLinked (t : Table) (ctx : ResolveContext) (scopes : List Scope) : List Expr → Prop
  | [] => True
  | e :: es => e.Linked t ctx scopes ∧ Expr.AllLinked t ctx scopes es

end

def Expr.OptionLinked (t : Table) (ctx : ResolveContext) (scopes : List Scope) :
    Option Expr → Prop
  | none => True
  | some e => e.Linked t ctx scopes

/-- The scopes after a name has been declared. -/
def Scope.declare (scopes : List Scope) (name : Token) : List Scope := (declareWhole scopes name).1

/-- The scopes after a statement. -/
def Stmt.after (scopes : List Scope) : Stmt → List Scope
  | .var name _ | .cls name _ _ => Scope.declare scopes name
  | .function decl => Scope.declare scopes decl.name
  | _ => scopes

/-- Parameters are declared one after the other. -/
def Token.AllDeclarable (scopes : List Scope) : List Token → Prop
  | [] => True
  | p :: ps => p.Declarable scopes ∧ Token.AllDeclarable (Scope.declare scopes p) ps

mutual

def Stmt.Linked (t : Table) (ctx : ResolveContext) (scopes : List Scope) : Stmt → Prop
  | .expression e => e.Linked t ctx scopes
  | .var name init =>
    name.Declarable scopes ∧ Expr.OptionLinked t ctx (declare scopes name).1 init
  | .block body => Stmt.AllLinked t ctx (.empty :: scopes) body
  | .ifThen condition yes =>
    condition.Linked t ctx scopes ∧ yes.isStatement = true ∧ yes.Linked t ctx scopes
  | .ifElse condition yes no =>
    condition.Linked t ctx scopes ∧ (yes.isStatement = true ∧ yes.Linked t ctx scopes) ∧
      no.isStatement = true ∧ no.Linked t ctx scopes
  | .loop condition body =>
    condition.Linked t ctx scopes ∧ body.isStatement = true ∧ body.Linked t ctx scopes
  | .function decl =>
    decl.name.Declarable scopes ∧
      decl.Linked t { ctx with function := .function } (Scope.declare scopes decl.name)
  | .ret _ value =>
    (ctx.function ≠ .outside ∧ (ctx.function = .initializer → value = none)) ∧
      Expr.OptionLinked t ctx scopes value
  | .cls name none methods =>
    name.Declarable scopes ∧ FunctionDecl.AllLinked t { ctx with cls := .plain }
      (thisScope :: Scope.declare scopes name) methods
  | .cls name (some superclass) methods =>
    name.Declarable scopes ∧ superclass.Linked t ctx scopes ∧
      FunctionDecl.AllLinked t { ctx with cls := .subclass }
        (thisScope :: superScope :: Scope.declare scopes name) methods

def Stmt.AllLinked (t : Table) (ctx : ResolveContext) (scopes : List Scope) : List Stmt → Prop
  | [] => True
  | s :: ss => s.Linked t ctx scopes ∧ Stmt.AllLinked t ctx (s.after scopes) ss

def FunctionDecl.Linked (t : Table) (ctx : ResolveContext) (scopes : List Scope) :
    FunctionDecl → Prop
  | ⟨_, params, body⟩ =>
    Token.AllDeclarable (.empty :: scopes) params ∧
      Stmt.AllLinked t ctx (declareAll (.empty :: scopes) params).1 body

/-- Each method is an initializer or not by its own name. -/
def FunctionDecl.AllLinked (t : Table) (ctx : ResolveContext) (scopes : List Scope) :
    List FunctionDecl → Prop
  | [] => True
  | d :: ds =>
    d.Linked t { ctx with function := methodContext d } scopes ∧
      FunctionDecl.AllLinked t ctx scopes ds

end

theorem Token.AllDeclarable.isName {params : List Token} : ∀ {scopes : List Scope},
    Token.AllDeclarable scopes params → ∀ p ∈ params, p.IsName := by
  induction params with
  | nil => exact fun _ p hp => nomatch hp
  | cons q ps ih =>
    intro scopes h p hp
    obtain rfl | hp := List.mem_cons.1 hp
    · exact h.1.1
    · exact ih h.2 p hp

/-! ## Findings -/

namespace Resolve

/-- The distance that findings have for a reference. -/
def distanceIn? (id : RefId) (fs : List Finding) : Option Nat :=
  Locals.findAmong? id (fs.filterMap entryOf?)

@[simp] theorem distanceIn?_nil (id : RefId) : distanceIn? id [] = none := rfl

theorem distanceIn?_append (id : RefId) (fs gs : List Finding) :
    distanceIn? id (fs ++ gs) = (distanceIn? id fs).or (distanceIn? id gs) := by
  rw [distanceIn?, List.filterMap_append]
  exact Locals.findAmong?_append id _ _

@[simp] theorem distanceIn?_violationIf (id : RefId) (wrong : Bool) (token : Token)
    (problem : ResolveProblem) : distanceIn? id (violationIf wrong token problem) = none := by
  cases wrong <;> rfl

theorem distanceIn?_bind (id : RefId) (scopes : List Scope) (name : String) :
    distanceIn? id (bind scopes id name) = Scope.distance? name scopes := by
  unfold bind
  cases Scope.distance? name scopes with
  | none => rfl
  | some d => simp [distanceIn?, entryOf?, Locals.findAmong?]

/-- Findings that have distances for none but these references. -/
def Within (refs : List (RefId × Token)) (fs : List Finding) : Prop :=
  ∀ id, timesIn id refs = 0 → distanceIn? id fs = none

namespace Within

variable {refs left right : List (RefId × Token)} {fs gs : List Finding}

theorem nil : Within refs [] := fun _ _ => rfl

/-- No reference of the whole is missing from the parts. -/
theorem append (hl : Within left fs) (hr : Within right gs)
    (h : ∀ i, timesIn i refs = timesIn i left + timesIn i right) : Within refs (fs ++ gs) := by
  intro id hid
  have hsum := h id
  rw [distanceIn?_append, hl id (by omega), hr id (by omega)]
  rfl

theorem violationIf {wrong : Bool} {token : Token} {problem : ResolveProblem} :
    Within refs (violationIf wrong token problem) :=
  fun id _ => distanceIn?_violationIf id wrong token problem

/-- Findings about no reference come first. -/
theorem after (hf : Within [] fs) (h : Within refs gs) : Within refs (fs ++ gs) :=
  hf.append h fun i => by simp

/-- A violation is about no reference. -/
theorem afterViolation {wrong : Bool} {token : Token} {problem : ResolveProblem}
    (h : Within refs fs) : Within refs (Resolve.violationIf wrong token problem ++ fs) :=
  violationIf.after h

theorem bind (scopes : List Scope) (id : RefId) (name : Token) (lexeme : String) :
    Within [(id, name)] (bind scopes id lexeme) := by
  intro i hi
  simp only [timesIn_cons, timesIn_nil, Nat.zero_add] at hi
  have hne : id ≠ i := by
    intro heq
    simp [heq] at hi
  unfold Resolve.bind
  cases Scope.distance? lexeme scopes with
  | none => rfl
  | some d => simp [distanceIn?, entryOf?, Locals.findAmong?, hne]

theorem declareWhole (scopes : List Scope) (name : Token) :
    Within refs (declareWhole scopes name).2 := violationIf

theorem declareAll (scopes : List Scope) (names : List Token) :
    Within refs (declareAll scopes names).2 := by
  induction names generalizing scopes with
  | nil => exact nil
  | cons p ps ih =>
    intro id hid
    rw [Resolve.declareAll, distanceIn?_append, declareWhole scopes p id hid,
      ih (Resolve.declareWhole scopes p).1 id hid]
    rfl

end Within

mutual

theorem within_expr (ctx : ResolveContext) (scopes : List Scope) :
    ∀ e : Expr, Within e.refs (expr ctx scopes e)
  | .constant _ | .unparsed => .nil
  | .grouping e | .unary _ e | .get e _ => within_expr ctx scopes e
  | .binary l _ r | .logical l _ r =>
    (within_expr ctx scopes l).append (within_expr ctx scopes r) fun i => timesIn_append i _ _
  | .var id name => (Within.bind scopes id name _).afterViolation
  | .assign id name value =>
    (within_expr ctx scopes value).append (Within.bind scopes id name _) fun i => by
      simp [Expr.refs]
  | .call callee _ args =>
    (within_expr ctx scopes callee).append (within_exprs ctx scopes args) fun i =>
      timesIn_append i _ _
  | .set object _ value =>
    (within_expr ctx scopes value).append (within_expr ctx scopes object) fun i => by
      rw [Expr.refs, timesIn_append, Nat.add_comm]
  | .thisRef id keyword => by
    unfold expr
    split
    · exact fun _ _ => rfl
    · exact Within.bind scopes id keyword _
  | .superRef id keyword _ => by
    rw [expr, List.append_assoc]
    exact (Within.bind scopes id keyword _).afterViolation.afterViolation

theorem within_exprs (ctx : ResolveContext) (scopes : List Scope) :
    ∀ es : List Expr, Within (Expr.refsOfList es) (exprs ctx scopes es)
  | [] => .nil
  | e :: es =>
    (within_expr ctx scopes e).append (within_exprs ctx scopes es) fun i => timesIn_append i _ _

end

theorem within_optionalExpr (ctx : ResolveContext) (scopes : List Scope) :
    ∀ e : Option Expr, Within (Expr.refsOfOption e) (optionalExpr ctx scopes e)
  | none => .nil
  | some e => within_expr ctx scopes e

theorem Within.selfInheritance {refs : List (RefId × Token)} (name : Token) (superclass : Expr) :
    Within refs (selfInheritance name superclass) := by
  unfold Resolve.selfInheritance
  split
  · exact violationIf
  · exact nil

mutual

theorem within_stmt (ctx : ResolveContext) (scopes : List Scope) :
    ∀ s : Stmt, Within s.refs (stmt ctx scopes s).2
  | .expression e => within_expr ctx scopes e
  | .var _ init => (within_optionalExpr ctx _ init).afterViolation
  | .block body => within_stmts ctx _ body
  | .ifThen condition yes =>
    (within_expr ctx scopes condition).append (within_stmt ctx scopes yes) fun i =>
      timesIn_append i _ _
  | .ifElse condition yes no =>
    ((within_expr ctx scopes condition).append (within_stmt ctx scopes yes) fun i =>
      timesIn_append i _ _).append (within_stmt ctx _ no) fun i => timesIn_append i _ _
  | .loop condition body =>
    (within_expr ctx scopes condition).append (within_stmt ctx scopes body) fun i =>
      timesIn_append i _ _
  | .function decl => (within_functionBody _ _ decl).afterViolation
  | .ret _ value => by
    rw [stmt, returnRules, List.append_assoc]
    exact (within_optionalExpr ctx scopes value).afterViolation.afterViolation
  | .cls _ none ms => (within_methods _ _ ms).afterViolation
  | .cls name (some superclass) ms => by
    rw [stmt, List.append_assoc, List.append_assoc]
    refine Within.afterViolation ((Within.selfInheritance name superclass).after ?_)
    exact (within_expr _ _ superclass).append (within_methods _ _ ms) fun i => timesIn_append i _ _

theorem within_stmts (ctx : ResolveContext) (scopes : List Scope) :
    ∀ ss : List Stmt, Within (Stmt.refsOfList ss) (stmts ctx scopes ss).2
  | [] => .nil
  | s :: ss =>
    (within_stmt ctx scopes s).append (within_stmts ctx _ ss) fun i => timesIn_append i _ _

theorem within_functionBody (ctx : ResolveContext) (scopes : List Scope) :
    ∀ d : FunctionDecl, Within d.refs (functionBody ctx scopes d)
  | ⟨_, params, body⟩ =>
    (Within.declareAll _ params).after (within_stmts ctx _ body)

theorem within_methods (ctx : ResolveContext) (scopes : List Scope) :
    ∀ ds : List FunctionDecl, Within (FunctionDecl.refsOfList ds) (methods ctx scopes ds)
  | [] => .nil
  | d :: ds =>
    (within_functionBody _ scopes d).append (within_methods ctx scopes ds) fun i =>
      timesIn_append i _ _

end

end Resolve

/-! ## From findings to linked trees -/

/-- The findings hold no violation, and the table has their distances for these references, of which
no two share a number. -/
structure Covers (t : Table) (refs : List (RefId × Token)) (fs : List Finding) : Prop where
  once : ∀ i, timesIn i refs ≤ 1
  known : ∀ i, 0 < timesIn i refs → t.Says i (distanceIn? i fs)
  clean : fs.filterMap errorOf? = []

namespace Covers

variable {t : Table} {refs left right : List (RefId × Token)} {fs gs : List Finding}

theorem append (h : Covers t refs (fs ++ gs)) (hl : Within left fs) (hr : Within right gs)
    (hrefs : ∀ i, timesIn i refs = timesIn i left + timesIn i right) :
    Covers t left fs ∧ Covers t right gs := by
  have hclean : fs.filterMap errorOf? = [] ∧ gs.filterMap errorOf? = [] := by
    simpa [List.filterMap_append] using h.clean
  constructor
  · refine ⟨fun i => ?_, fun i hi => ?_, hclean.1⟩
    · have := h.once i
      have := hrefs i
      omega
    · have hone := h.once i
      have hsum := hrefs i
      have hknown := h.known i (by omega)
      rw [distanceIn?_append, hr i (by omega), Option.or_none] at hknown
      exact hknown
  · refine ⟨fun i => ?_, fun i hi => ?_, hclean.2⟩
    · have := h.once i
      have := hrefs i
      omega
    · have hone := h.once i
      have hsum := hrefs i
      have hknown := h.known i (by omega)
      rw [distanceIn?_append, hl i (by omega), Option.none_or] at hknown
      exact hknown

/-- Findings about no reference come first. -/
theorem skip (h : Covers t refs (fs ++ gs)) (hf : Within [] fs) (hg : Within refs gs) :
    Covers t refs gs :=
  (h.append hf hg fun i => by simp).2

theorem violation {wrong : Bool} {token : Token} {problem : ResolveProblem}
    (h : Covers t refs (violationIf wrong token problem ++ fs)) (hf : Within refs fs) :
    wrong = false ∧ Covers t refs fs := by
  refine ⟨?_, h.skip .violationIf hf⟩
  cases wrong with
  | false => rfl
  | true =>
    have := h.clean
    simp [violationIf, errorOf?] at this

theorem bind {scopes : List Scope} {id : RefId} {name : Token} {lexeme : String}
    (h : Covers t [(id, name)] (Resolve.bind scopes id lexeme)) :
    t.Says id (Scope.distance? lexeme scopes) := by
  have := h.known id (by simp)
  rwa [distanceIn?_bind] at this

end Covers

section Trees

variable {t : Table} {ctx : ResolveContext} {scopes : List Scope}

theorem Token.declarable {refs : List (RefId × Token)} {fs : List Finding} {name : Token}
    (h : Covers t refs ((declareWhole scopes name).2 ++ fs)) (hf : Within refs fs)
    (hn : name.IsName) : name.Declarable scopes ∧ Covers t refs fs := by
  obtain ⟨hnew, h⟩ := h.violation hf
  exact ⟨⟨hn, hnew⟩, h⟩

mutual

theorem Expr.linked : ∀ {e : Expr}, e.Formed → Covers t e.refs (expr ctx scopes e) →
    e.Linked t ctx scopes
  | .constant _, _, _ => trivial
  | .unparsed, he, _ => he
  | .grouping e, he, h | .get e _, he, h => Expr.linked (e := e) he h
  | .unary _ e, he, h => ⟨he.1, Expr.linked (e := e) he.2 h⟩
  | .binary l _ r, he, h => by
    obtain ⟨hl, hr⟩ := h.append (within_expr ctx scopes l) (within_expr ctx scopes r)
      fun i => timesIn_append i _ _
    exact ⟨he.1, Expr.linked he.2.1 hl, Expr.linked he.2.2 hr⟩
  | .logical l _ r, he, h => by
    obtain ⟨hl, hr⟩ := h.append (within_expr ctx scopes l) (within_expr ctx scopes r)
      fun i => timesIn_append i _ _
    exact ⟨Expr.linked he.1 hl, Expr.linked he.2 hr⟩
  | .var id name, _, h => by
    obtain ⟨hready, h⟩ := h.violation (Within.bind scopes id name _)
    exact ⟨h.bind, hready⟩
  | .assign id name value, he, h => by
    obtain ⟨hv, hn⟩ := h.append (within_expr ctx scopes value) (Within.bind scopes id name _)
      fun i => by simp [Expr.refs]
    exact ⟨he.1, hn.bind, Expr.linked he.2 hv⟩
  | .call callee _ args, he, h => by
    obtain ⟨hc, ha⟩ := h.append (within_expr ctx scopes callee) (within_exprs ctx scopes args)
      fun i => timesIn_append i _ _
    exact ⟨Expr.linked he.1 hc, Expr.allLinked he.2 ha⟩
  | .set object _ value, he, h => by
    obtain ⟨hv, ho⟩ := h.append (within_expr ctx scopes value) (within_expr ctx scopes object)
      fun i => by rw [Expr.refs, timesIn_append, Nat.add_comm]
    exact ⟨Expr.linked he.1 ho, Expr.linked he.2 hv⟩
  | .thisRef id keyword, he, h => by
    have hkeyword : keyword.lexeme = "this" := he
    by_cases hout : ctx.cls = .outside
    · have := h.clean
      simp [expr, hout, errorOf?] at this
    · rw [expr, if_neg hout, hkeyword] at h
      exact ⟨hkeyword, hout, h.bind⟩
  | .superRef id keyword _, he, h => by
    have hkeyword : keyword.lexeme = "super" := he
    rw [expr, List.append_assoc, hkeyword] at h
    obtain ⟨hinside, h⟩ := h.violation (Within.bind scopes id keyword _).afterViolation
    obtain ⟨hderived, h⟩ := h.violation (Within.bind scopes id keyword _)
    refine ⟨?_, h.bind⟩
    cases hc : ctx.cls with
    | outside =>
      rw [hc] at hinside
      cases hinside
    | plain =>
      rw [hc] at hderived
      cases hderived
    | subclass => rfl

theorem Expr.allLinked : ∀ {es : List Expr}, Expr.AllFormed es →
    Covers t (Expr.refsOfList es) (exprs ctx scopes es) → Expr.AllLinked t ctx scopes es
  | [], _, _ => trivial
  | e :: es, he, h => by
    obtain ⟨hfirst, hmore⟩ := h.append (within_expr ctx scopes e) (within_exprs ctx scopes es)
      fun i => timesIn_append i _ _
    exact ⟨Expr.linked he.1 hfirst, Expr.allLinked he.2 hmore⟩

end

theorem Expr.optionLinked : ∀ {e : Option Expr}, Expr.OptionFormed e →
    Covers t (Expr.refsOfOption e) (optionalExpr ctx scopes e) → Expr.OptionLinked t ctx scopes e
  | none, _, _ => trivial
  | some _, he, h => Expr.linked he h

/-- A superclass is resolved after its class is declared, but the name of the class is not its own. -/
theorem Expr.linked_superclass {name : Token} {superclass : Expr} {inner : ResolveContext}
    {fs : List Finding} {refs : List (RefId × Token)} (he : Expr.SuperclassFormed (some superclass))
    (h : Covers t (superclass.refs ++ refs) (selfInheritance name superclass ++
      (expr inner (declareWhole scopes name).1 superclass ++ fs)))
    (hf : Within refs fs) : superclass.Linked t ctx scopes ∧ Covers t refs fs := by
  cases superclass with
  | var id superName =>
    obtain ⟨hother, h⟩ := h.violation ((within_expr inner _ _).append hf fun i => timesIn_append i _ _)
    obtain ⟨hs, h⟩ := h.append (within_expr inner _ _) hf fun i => timesIn_append i _ _
    obtain ⟨hready, hs⟩ := hs.violation (Within.bind _ id superName _)
    have hne : name.lexeme ≠ superName.lexeme := by
      intro heq
      simp [heq] at hother
    have hknown := hs.bind
    simp only [declareWhole, declare, define, Scope.isPending_enter_of_ne hne] at hready
    simp only [declareWhole, declare, define, Scope.distance?_enter_of_ne hne] at hknown
    exact ⟨⟨hknown, hready⟩, h⟩
  | _ => exact he.elim

theorem Stmt.after_of_isStatement {s : Stmt} (h : s.isStatement = true) (scopes : List Scope) :
    s.after scopes = scopes := by
  cases s with
  | var | function | cls => cases h
  | _ => rfl

/-- The walk over a statement leaves the scopes after it. -/
theorem Stmt.fst_stmt : ∀ {s : Stmt}, s.Formed → (stmt ctx scopes s).1 = s.after scopes
  | .expression _, _ | .var _ _, _ | .block _, _ | .function _, _ | .ret _ _, _
  | .cls _ none _, _ | .cls _ (some _) _, _ => rfl
  | .ifThen condition yes, h => by
    have hyes : (stmt ctx scopes yes).1 = yes.after scopes := Stmt.fst_stmt h.2.2
    rwa [after_of_isStatement h.2.1] at hyes
  | .ifElse condition yes no, h => by
    obtain ⟨-, hys, hy, hns, hn⟩ := h
    have hyes : (stmt ctx scopes yes).1 = yes.after scopes := Stmt.fst_stmt hy
    have hno : (stmt ctx scopes no).1 = no.after scopes := Stmt.fst_stmt hn
    rw [after_of_isStatement hys] at hyes
    rw [after_of_isStatement hns] at hno
    simp only [stmt, hyes]
    exact hno
  | .loop condition body, h => by
    have hbody : (stmt ctx scopes body).1 = body.after scopes := Stmt.fst_stmt h.2.2
    rwa [after_of_isStatement h.2.1] at hbody

theorem Token.allDeclarable {refs : List (RefId × Token)} {fs : List Finding} :
    ∀ {names : List Token} {scopes : List Scope}, (∀ p ∈ names, p.IsName) →
      Covers t refs ((declareAll scopes names).2 ++ fs) → Within refs fs →
      Token.AllDeclarable scopes names ∧ Covers t refs fs
  | [], _, _, h, _ => ⟨trivial, h⟩
  | p :: ps, scopes, hn, h, hf => by
    rw [List.forall_mem_cons] at hn
    rw [declareAll, List.append_assoc] at h
    obtain ⟨hfirst, h⟩ := Token.declarable h
      ((Within.declareAll _ ps).after hf) hn.1
    obtain ⟨hmore, h⟩ := Token.allDeclarable hn.2 h hf
    exact ⟨⟨hfirst, hmore⟩, h⟩

mutual

theorem Stmt.linked : ∀ {s : Stmt} {ctx : ResolveContext} {scopes : List Scope}, s.Formed →
    Covers t s.refs (stmt ctx scopes s).2 → s.Linked t ctx scopes
  | .expression _, _, _, hs, h => Expr.linked hs h
  | .var name init, ctx, scopes, hs, h => by
    obtain ⟨hname, h⟩ := Token.declarable h (within_optionalExpr ctx _ init) hs.1
    exact ⟨hname, Expr.optionLinked hs.2 h⟩
  | .block body, ctx, scopes, hs, h => by
    have hbody : Stmt.AllLinked t ctx (.empty :: scopes) body := Stmt.allLinked hs h
    exact hbody
  | .ifThen condition yes, ctx, scopes, hs, h => by
    obtain ⟨hc, hy⟩ := h.append (within_expr ctx scopes condition) (within_stmt ctx scopes yes)
      fun i => timesIn_append i _ _
    exact ⟨Expr.linked hs.1 hc, hs.2.1, Stmt.linked hs.2.2 hy⟩
  | .ifElse condition yes no, ctx, scopes, hs, h => by
    obtain ⟨hcond, hys, hyes, hns, hno⟩ := hs
    obtain ⟨h, hn⟩ := h.append
      ((within_expr ctx scopes condition).append (within_stmt ctx scopes yes)
        fun i => timesIn_append i _ _) (within_stmt ctx _ no) fun i => timesIn_append i _ _
    obtain ⟨hc, hy⟩ := h.append (within_expr ctx scopes condition) (within_stmt ctx scopes yes)
      fun i => timesIn_append i _ _
    rw [Stmt.fst_stmt hyes, Stmt.after_of_isStatement hys] at hn
    exact ⟨Expr.linked hcond hc, ⟨hys, Stmt.linked hyes hy⟩, hns, Stmt.linked hno hn⟩
  | .loop condition body, ctx, scopes, hs, h => by
    obtain ⟨hc, hb⟩ := h.append (within_expr ctx scopes condition) (within_stmt ctx scopes body)
      fun i => timesIn_append i _ _
    exact ⟨Expr.linked hs.1 hc, hs.2.1, Stmt.linked hs.2.2 hb⟩
  | .function decl, ctx, scopes, hs, h => by
    obtain ⟨hname, h⟩ := Token.declarable h (within_functionBody _ _ decl) hs.1
    exact ⟨hname, FunctionDecl.linked hs.2 h⟩
  | .ret keyword value, ctx, scopes, hs, h => by
    rw [stmt, returnRules, List.append_assoc] at h
    obtain ⟨hinside, h⟩ := h.violation (within_optionalExpr ctx scopes value).afterViolation
    obtain ⟨hvalue, h⟩ := h.violation (within_optionalExpr ctx scopes value)
    refine ⟨⟨by simpa using hinside, fun hinit => ?_⟩, Expr.optionLinked hs h⟩
    simpa [hinit] using hvalue
  | .cls name none ms, ctx, scopes, hs, h => by
    obtain ⟨hname, h⟩ := Token.declarable h (within_methods _ _ ms) hs.1
    exact ⟨hname, FunctionDecl.allLinked hs.2.2 h⟩
  | .cls name (some superclass) ms, ctx, scopes, hs, h => by
    have hms := within_methods { ctx with cls := .subclass }
      (thisScope :: superScope :: (declareWhole scopes name).1) ms
    rw [stmt, List.append_assoc, List.append_assoc] at h
    obtain ⟨hname, h⟩ := Token.declarable h
      ((Within.selfInheritance name superclass).after
        ((within_expr _ _ superclass).append hms fun i => timesIn_append i _ _)) hs.1
    obtain ⟨hsuper, h⟩ := Expr.linked_superclass hs.2.1 h hms
    exact ⟨hname, hsuper, FunctionDecl.allLinked hs.2.2 h⟩

theorem Stmt.allLinked : ∀ {ss : List Stmt} {ctx : ResolveContext} {scopes : List Scope},
    Stmt.AllFormed ss → Covers t (Stmt.refsOfList ss) (stmts ctx scopes ss).2 →
    Stmt.AllLinked t ctx scopes ss
  | [], _, _, _, _ => trivial
  | s :: ss, ctx, scopes, hs, h => by
    obtain ⟨hfirst, hmore⟩ := h.append (within_stmt ctx scopes s) (within_stmts ctx _ ss)
      fun i => timesIn_append i _ _
    rw [Stmt.fst_stmt hs.1] at hmore
    exact ⟨Stmt.linked hs.1 hfirst, Stmt.allLinked hs.2 hmore⟩

theorem FunctionDecl.linked : ∀ {d : FunctionDecl} {ctx : ResolveContext} {scopes : List Scope},
    d.Formed → Covers t d.refs (functionBody ctx scopes d) → d.Linked t ctx scopes
  | ⟨_, params, body⟩, ctx, scopes, hd, h => by
    obtain ⟨hparams, h⟩ := Token.allDeclarable hd.1 h (within_stmts ctx _ body)
    exact ⟨hparams, Stmt.allLinked hd.2 h⟩

theorem FunctionDecl.allLinked : ∀ {ds : List FunctionDecl} {ctx : ResolveContext}
    {scopes : List Scope}, FunctionDecl.AllFormed ds →
    Covers t (FunctionDecl.refsOfList ds) (methods ctx scopes ds) →
    FunctionDecl.AllLinked t ctx scopes ds
  | [], _, _, _, _ => trivial
  | d :: ds, ctx, scopes, hd, h => by
    obtain ⟨hfirst, hmore⟩ := h.append (within_functionBody _ scopes d)
      (within_methods ctx scopes ds) fun i => timesIn_append i _ _
    exact ⟨FunctionDecl.linked hd.1 hfirst, FunctionDecl.allLinked hd.2 hmore⟩

end

end Trees

end Lox
