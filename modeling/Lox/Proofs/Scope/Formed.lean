import Lox.Program.Written
import Lox.Proofs.Parse.Phrase
import Mathlib

/-!
# Lox.Proofs.Scope.Formed

What the grammar makes sure of in a tree (`Phrase.forms`): operators are operators, branches and loop
bodies declare nothing, a superclass is a name, and nothing is left unparsed. No identifier is
`this` or `super`, so those names stand for nothing but the receiver and the superclass. And a
reference has its number from a token of its own, so no number occurs in a tree more often than
among its tokens.
-/

namespace Lox

/-- Keywords for the receiver and the superclass are spelled their way, and identifiers otherwise. -/
def Token.Worded (t : Token) : Prop :=
  (t.kind = .identifier → t.lexeme ≠ "this" ∧ t.lexeme ≠ "super") ∧
    (t.kind = .kwThis → t.lexeme = "this") ∧ (t.kind = .kwSuper → t.lexeme = "super")

/-- A name that a declaration may give. -/
def Token.IsName (t : Token) : Prop := t.lexeme ≠ "this" ∧ t.lexeme ≠ "super"

def Operator.unaryKinds : List TokenKind := [.bang, .minus]

def Operator.binaryKinds : List TokenKind :=
  [.bangEqual, .equalEqual, .greater, .greaterEqual, .less, .lessEqual, .minus, .plus, .slash,
   .star]

mutual

def Expr.Formed : Expr → Prop
  | .constant _ => True
  | .grouping e | .get e _ => e.Formed
  | .unary operator e => operator.kind ∈ Operator.unaryKinds ∧ e.Formed
  | .binary l operator r => operator.kind ∈ Operator.binaryKinds ∧ l.Formed ∧ r.Formed
  | .logical l _ r => l.Formed ∧ r.Formed
  | .var _ name => name.IsName
  | .assign _ name value => name.IsName ∧ value.Formed
  | .call callee _ args => callee.Formed ∧ Expr.AllFormed args
  | .set object _ value => object.Formed ∧ value.Formed
  | .thisRef _ keyword => keyword.lexeme = "this"
  | .superRef _ keyword _ => keyword.lexeme = "super"
  | .unparsed => False

def Expr.AllFormed : List Expr → Prop
  | [] => True
  | e :: es => e.Formed ∧ Expr.AllFormed es

end

def Expr.OptionFormed : Option Expr → Prop
  | none => True
  | some e => e.Formed

/-- A superclass is a variable. -/
def Expr.SuperclassFormed : Option Expr → Prop
  | none => True
  | some (.var _ name) => name.IsName
  | some _ => False

mutual

def Stmt.Formed : Stmt → Prop
  | .expression e => e.Formed
  | .var name init => name.IsName ∧ Expr.OptionFormed init
  | .block body => Stmt.AllFormed body
  | .ifThen condition yes => condition.Formed ∧ yes.isStatement = true ∧ yes.Formed
  | .ifElse condition yes no =>
    condition.Formed ∧ yes.isStatement = true ∧ yes.Formed ∧ no.isStatement = true ∧ no.Formed
  | .loop condition body => condition.Formed ∧ body.isStatement = true ∧ body.Formed
  | .function decl => decl.name.IsName ∧ decl.Formed
  | .ret _ value => Expr.OptionFormed value
  | .cls name superclass methods =>
    name.IsName ∧ Expr.SuperclassFormed superclass ∧ FunctionDecl.AllFormed methods

def Stmt.AllFormed : List Stmt → Prop
  | [] => True
  | s :: ss => s.Formed ∧ Stmt.AllFormed ss

def FunctionDecl.Formed : FunctionDecl → Prop
  | ⟨_, params, body⟩ => (∀ p ∈ params, p.IsName) ∧ Stmt.AllFormed body

def FunctionDecl.AllFormed : List FunctionDecl → Prop
  | [] => True
  | d :: ds => d.Formed ∧ FunctionDecl.AllFormed ds

end

/-- How often a number is the identity of a reference. -/
def timesIn (i : RefId) (refs : List (RefId × Token)) : Nat := (refs.map Prod.fst).count i

@[simp] theorem timesIn_nil (i : RefId) : timesIn i [] = 0 := rfl

@[simp] theorem timesIn_append (i : RefId) (xs ys : List (RefId × Token)) :
    timesIn i (xs ++ ys) = timesIn i xs + timesIn i ys := by
  simp [timesIn]

@[simp] theorem timesIn_cons (i : RefId) (x : RefId × Token) (xs : List (RefId × Token)) :
    timesIn i (x :: xs) = timesIn i xs + if x.1 = i then 1 else 0 := by
  simp [timesIn, List.count_cons]

/-- How often a number is the stamp of a token. -/
def timesStamped (i : RefId) (u : List Stamped) : Nat := (u.map (·.id)).count i

@[simp] theorem timesStamped_nil (i : RefId) : timesStamped i [] = 0 := rfl

@[simp] theorem timesStamped_append (i : RefId) (u v : List Stamped) :
    timesStamped i (u ++ v) = timesStamped i u + timesStamped i v := by
  simp [timesStamped]

@[simp] theorem timesStamped_cons (i : RefId) (t : Stamped) (u : List Stamped) :
    timesStamped i (t :: u) = timesStamped i u + if t.id = i then 1 else 0 := by
  simp [timesStamped, List.count_cons]

/-- Each reference has its number from a token of its own. -/
def RefsWithin (refs : List (RefId × Token)) (u : List Stamped) : Prop :=
  ∀ i, timesIn i refs ≤ timesStamped i u

namespace RefsWithin

variable {refs refs' : List (RefId × Token)} {u v : List Stamped}

theorem nil (u : List Stamped) : RefsWithin [] u := fun _ => Nat.zero_le _

theorem append (h : RefsWithin refs u) (h' : RefsWithin refs' v) :
    RefsWithin (refs ++ refs') (u ++ v) := by
  intro i
  rw [timesIn_append, timesStamped_append]
  exact Nat.add_le_add (h i) (h' i)

/-- A token that is not a reference. -/
theorem skip (t : Stamped) (h : RefsWithin refs u) : RefsWithin refs (t :: u) := by
  intro i
  rw [timesStamped_cons]
  exact Nat.le_add_right_of_le (h i)

/-- A token that is a reference. -/
theorem own (t : Stamped) (h : RefsWithin refs u) :
    RefsWithin ((t.id, t.token) :: refs) (t :: u) := by
  intro i
  rw [timesIn_cons, timesStamped_cons]
  exact Nat.add_le_add_right (h i) _

theorem before (v : List Stamped) (h : RefsWithin refs u) : RefsWithin refs (u ++ v) := by
  intro i
  rw [timesStamped_append]
  exact Nat.le_add_right_of_le (h i)

/-- What goes on from other references, after the tokens of those. -/
theorem continued (h : RefsWithin refs u)
    (h' : ∀ i, timesIn i refs' ≤ timesIn i refs + timesStamped i v) :
    RefsWithin refs' (u ++ v) := by
  intro i
  rw [timesStamped_append]
  exact (h' i).trans (Nat.add_le_add_right (h i) _)

end RefsWithin

namespace Phrase

/-- What the grammar makes sure of, place by place. -/
def Forms : Shape → List Stamped → Prop
  | .expression e, u | .level _ e, u | .operand _ e, u | .unary e, u | .call e, u
  | .primary e, u => e.Formed ∧ ∀ i, timesIn i e.refs ≤ timesStamped i u
  | .chain _ left e, u | .suffixes left e, u => left.Formed →
      e.Formed ∧ ∀ i, timesIn i e.refs ≤ timesIn i left.refs + timesStamped i u
  | .arguments args, u | .argumentList _ args, u =>
      Expr.AllFormed args ∧ ∀ i, timesIn i (Expr.refsOfList args) ≤ timesStamped i u
  | .optional e, u => Expr.OptionFormed e ∧ ∀ i, timesIn i (Expr.refsOfOption e) ≤ timesStamped i u
  | .superclass e, u =>
      Expr.SuperclassFormed e ∧ ∀ i, timesIn i (Expr.refsOfOption e) ≤ timesStamped i u
  | .parameters params, _ | .parameterList _ params, _ => ∀ p ∈ params, p.IsName
  | .function decl, u =>
      decl.name.IsName ∧ decl.Formed ∧ ∀ i, timesIn i decl.refs ≤ timesStamped i u
  | .methods decls, u =>
      FunctionDecl.AllFormed decls ∧
        ∀ i, timesIn i (FunctionDecl.refsOfList decls) ≤ timesStamped i u
  | .varRest s, u | .declaration s, u => s.Formed ∧ ∀ i, timesIn i s.refs ≤ timesStamped i u
  | .expressionStatement s, u | .statement _ s, u =>
      s.isStatement = true ∧ s.Formed ∧ ∀ i, timesIn i s.refs ≤ timesStamped i u
  | .initializer none, _ => True
  | .initializer (some s), u => s.Formed ∧ ∀ i, timesIn i s.refs ≤ timesStamped i u
  | .declarations ss, u => Stmt.AllFormed ss ∧ ∀ i, timesIn i (Stmt.refsOfList ss) ≤ timesStamped i u

theorem formed_combine {level : Level} {operator : Token} {l r : Expr}
    (ho : operator.kind ∈ level.operators) (hl : l.Formed) (hr : r.Formed) :
    (level.combine l operator r).Formed := by
  cases level with
  | or | and => exact ⟨hl, hr⟩
  | equality | comparison | term | factor =>
    refine ⟨?_, hl, hr⟩
    simp only [Level.operators, List.mem_cons, List.not_mem_nil, or_false] at ho
    simp only [Operator.binaryKinds, List.mem_cons, List.not_mem_nil, or_false]
    grind

theorem refs_combine (level : Level) (operator : Token) (l r : Expr) :
    (level.combine l operator r).refs = l.refs ++ r.refs := by
  cases level <;> simp [Level.combine, Expr.refs]

/-- The references of an optional statement. -/
def refsOfInitializer : Option Stmt → List (RefId × Token)
  | none => []
  | some s => s.refs

def InitializerFormed : Option Stmt → Prop
  | none => True
  | some s => s.Formed

theorem isStatement_ofFor (init : Option Stmt) (condition increment : Option Expr) (body : Stmt) :
    (Stmt.ofFor init condition increment body).isStatement = true := by
  cases init <;> rfl

theorem formed_ofFor {init : Option Stmt} {condition increment : Option Expr} {body : Stmt}
    (hi : InitializerFormed init) (hc : Expr.OptionFormed condition)
    (hinc : Expr.OptionFormed increment) (hb : body.isStatement = true) (h : body.Formed) :
    (Stmt.ofFor init condition increment body).Formed := by
  have hcond : (condition.getD (.constant (.bool true))).Formed := by
    cases condition with
    | none => trivial
    | some e => exact hc
  have hloop : ∀ body : Stmt, body.isStatement = true → body.Formed →
      (Stmt.loop (condition.getD (.constant (.bool true))) body).Formed :=
    fun body hb h => ⟨hcond, hb, h⟩
  cases increment with
  | none =>
    cases init with
    | none => exact hloop body hb h
    | some s => exact ⟨hi, hloop body hb h, trivial⟩
  | some e =>
    have hblock : (Stmt.block [body, .expression e]).Formed := ⟨h, hinc, trivial⟩
    cases init with
    | none => exact hloop _ rfl hblock
    | some s => exact ⟨hi, hloop _ rfl hblock, trivial⟩

theorem timesIn_ofFor (i : RefId) (init : Option Stmt) (condition increment : Option Expr)
    (body : Stmt) :
    timesIn i (Stmt.ofFor init condition increment body).refs =
      timesIn i (refsOfInitializer init) + timesIn i (Expr.refsOfOption condition) +
        timesIn i (Expr.refsOfOption increment) + timesIn i body.refs := by
  cases init <;> cases condition <;> cases increment <;>
    simp [Stmt.ofFor, Stmt.refs, Stmt.refsOfList, Expr.refs, Expr.refsOfOption,
      refsOfInitializer] <;> omega

open RefsWithin (nil append skip own before continued) in
/-- If its tokens are worded as they are scanned, a phrase is formed. -/
theorem forms {shape : Shape} {u : List Stamped} (h : Phrase shape u)
    (hu : ∀ t ∈ u, t.token.Worded) : Forms shape u := by
  induction h with
  | plain _ ih => exact ih hu
  | assign hn _ _ ih =>
    simp only [List.forall_mem_cons] at hu
    obtain ⟨hv, hrefs⟩ := ih hu.2.2
    exact ⟨⟨hu.1.1 hn, hv⟩, own _ (skip _ hrefs)⟩
  | set _ _ _ _ _ ihObject ihValue =>
    simp only [List.forall_mem_append, List.forall_mem_cons] at hu
    obtain ⟨ho, hrefs⟩ := ihObject hu.1
    obtain ⟨hv, hrefs'⟩ := ihValue hu.2.2.2.2
    exact ⟨⟨ho, hv⟩, append hrefs (skip _ (skip _ (skip _ hrefs')))⟩
  | level _ _ ihFirst ihChain =>
    rw [List.forall_mem_append] at hu
    obtain ⟨hf, hrefs⟩ := ihFirst hu.1
    obtain ⟨he, hrefs'⟩ := ihChain hu.2 hf
    exact ⟨he, continued hrefs hrefs'⟩
  | operandLevel _ _ ih => exact ih hu
  | operandUnary _ _ ih => exact ih hu
  | chainStop => exact fun he => ⟨he, fun i => Nat.le_add_right _ _⟩
  | chainStep ho _ _ ihRight ihChain =>
    intro hl
    simp only [List.forall_mem_cons, List.forall_mem_append] at hu
    obtain ⟨hr, hrefs⟩ := ihRight hu.2.1
    obtain ⟨he, hrefs'⟩ := ihChain hu.2.2 (formed_combine ho hl hr)
    refine ⟨he, fun i => ?_⟩
    have := hrefs i
    have := hrefs' i
    rw [refs_combine, timesIn_append] at this
    simp only [timesStamped_cons, timesStamped_append]
    omega
  | unary ho _ ih =>
    simp only [List.forall_mem_cons] at hu
    obtain ⟨he, hrefs⟩ := ih hu.2
    exact ⟨⟨ho, he⟩, skip _ hrefs⟩
  | unaryCall _ ih => exact ih hu
  | call _ _ ihFirst ihSuffixes =>
    rw [List.forall_mem_append] at hu
    obtain ⟨hf, hrefs⟩ := ihFirst hu.1
    obtain ⟨he, hrefs'⟩ := ihSuffixes hu.2 hf
    exact ⟨he, continued hrefs hrefs'⟩
  | suffixesStop => exact fun he => ⟨he, fun i => Nat.le_add_right _ _⟩
  | suffixesCall _ _ _ _ ihArguments ihSuffixes =>
    intro hcallee
    simp only [List.forall_mem_cons, List.forall_mem_append] at hu
    obtain ⟨ha, hrefs⟩ := ihArguments hu.2.1
    obtain ⟨he, hrefs'⟩ := ihSuffixes hu.2.2.2 ⟨hcallee, ha⟩
    refine ⟨he, fun i => ?_⟩
    have := hrefs i
    have := hrefs' i
    simp only [Expr.refs, timesIn_append] at this
    simp only [timesStamped_cons, timesStamped_append]
    omega
  | suffixesGet _ _ _ ih =>
    intro ho
    simp only [List.forall_mem_cons] at hu
    obtain ⟨he, hrefs⟩ := ih hu.2.2 ho
    refine ⟨he, fun i => ?_⟩
    have := hrefs i
    simp only [Expr.refs] at this
    simp only [timesStamped_cons]
    omega
  | argumentsNone => exact ⟨trivial, nil _⟩
  | argumentsSome _ ih => exact ih hu
  | argumentLast _ _ ih =>
    obtain ⟨he, hrefs⟩ := ih hu
    refine ⟨⟨he, trivial⟩, ?_⟩
    rw [Expr.refsOfList, Expr.refsOfList, List.append_nil]
    exact hrefs
  | argumentMore _ _ _ _ ihFirst ihMore =>
    simp only [List.forall_mem_cons, List.forall_mem_append] at hu
    obtain ⟨he, hrefs⟩ := ihFirst hu.1
    obtain ⟨hes, hrefs'⟩ := ihMore hu.2.2
    exact ⟨⟨he, hes⟩, append hrefs (skip _ hrefs')⟩
  | constant => exact ⟨trivial, nil _⟩
  | superRef hk =>
    simp only [List.forall_mem_cons] at hu
    exact ⟨hu.1.2.2 hk, own _ (nil _)⟩
  | thisRef hk =>
    simp only [List.forall_mem_cons] at hu
    exact ⟨hu.1.2.1 hk, own _ (nil _)⟩
  | var hn =>
    simp only [List.forall_mem_cons] at hu
    exact ⟨hu.1.1 hn, own _ (nil _)⟩
  | grouping _ _ _ ih =>
    simp only [List.forall_mem_cons, List.forall_mem_append] at hu
    obtain ⟨he, hrefs⟩ := ih hu.2.1
    exact ⟨he, skip _ (before _ hrefs)⟩
  | optionalNone => exact ⟨trivial, nil _⟩
  | optionalSome _ ih => exact ih hu
  | superclassNone => exact ⟨trivial, nil _⟩
  | superclassSome _ hn =>
    simp only [List.forall_mem_cons] at hu
    exact ⟨hu.2.1.1 hn, skip _ (own _ (nil _))⟩
  | parametersNone => exact nofun
  | parametersSome _ ih => exact ih hu
  | parameterLast _ hp =>
    simp only [List.forall_mem_cons] at hu
    exact List.forall_mem_singleton.2 (hu.1.1 hp)
  | parameterMore _ hp _ _ ih =>
    simp only [List.forall_mem_cons] at hu
    exact List.forall_mem_cons.2 ⟨hu.1.1 hp, ih hu.2.2⟩
  | function hn _ _ _ _ _ _ ihParams ihBody =>
    simp only [List.forall_mem_cons, List.forall_mem_append] at hu
    obtain ⟨hname, -, hp, -, -, hb, -⟩ := hu
    obtain ⟨hbody, hrefs⟩ := ihBody hb
    refine ⟨hname.1 hn, ⟨ihParams hp, hbody⟩, skip _ (skip _ ?_)⟩
    exact append (nil _) (skip _ (skip _ (before _ hrefs)))
  | methodsNone => exact ⟨trivial, nil _⟩
  | methodsMore _ _ ihFirst ihMore =>
    rw [List.forall_mem_append] at hu
    obtain ⟨-, hd, hrefs⟩ := ihFirst hu.1
    obtain ⟨hds, hrefs'⟩ := ihMore hu.2
    exact ⟨⟨hd, hds⟩, append hrefs hrefs'⟩
  | varPlain hn =>
    simp only [List.forall_mem_cons] at hu
    exact ⟨⟨hu.1.1 hn, trivial⟩, nil _⟩
  | varInit hn _ _ _ ih =>
    simp only [List.forall_mem_cons, List.forall_mem_append] at hu
    obtain ⟨he, hrefs⟩ := ih hu.2.2.1
    exact ⟨⟨hu.1.1 hn, he⟩, skip _ (skip _ (before _ hrefs))⟩
  | expressionStatement _ _ ih =>
    rw [List.forall_mem_append] at hu
    obtain ⟨he, hrefs⟩ := ih hu.1
    exact ⟨rfl, he, before _ hrefs⟩
  | initializerNone => trivial
  | initializerVar _ _ ih =>
    rw [List.forall_mem_cons] at hu
    obtain ⟨hs, hrefs⟩ := ih hu.2
    exact ⟨hs, skip _ hrefs⟩
  | initializerExpression _ ih => exact (ih hu).2
  | expressionForm _ ih => exact ih hu
  | @forLoop _ _ _ _ init _ _ _ _ a _ _ _ _ _ _ _ _ _ _ _ ihInit ihCondition ihIncrement ihBody =>
    simp only [List.forall_mem_cons, List.forall_mem_append] at hu
    obtain ⟨-, -, ha, hb, -, hc, -, hd⟩ := hu
    obtain ⟨hcond, hrefsCondition⟩ := ihCondition hb
    obtain ⟨hinc, hrefsIncrement⟩ := ihIncrement hc
    obtain ⟨hstmt, hbody, hrefsBody⟩ := ihBody hd
    have hinit : InitializerFormed init ∧ RefsWithin (refsOfInitializer init) a := by
      cases init with
      | none => exact ⟨trivial, nil _⟩
      | some s => exact ihInit ha
    refine ⟨isStatement_ofFor .., formed_ofFor hinit.1 hcond hinc hstmt hbody, fun i => ?_⟩
    have := hinit.2 i
    have := hrefsCondition i
    have := hrefsIncrement i
    have := hrefsBody i
    simp only [timesIn_ofFor, timesStamped_cons, timesStamped_append]
    omega
  | ifThen _ _ _ _ _ ihCondition ihYes =>
    simp only [List.forall_mem_cons, List.forall_mem_append] at hu
    obtain ⟨hcond, hrefs⟩ := ihCondition hu.2.2.1
    obtain ⟨hstmt, hyes, hrefs'⟩ := ihYes hu.2.2.2.2
    exact ⟨rfl, ⟨hcond, hstmt, hyes⟩, skip _ (skip _ (append hrefs (skip _ hrefs')))⟩
  | ifElse _ _ _ _ _ _ _ ihCondition ihYes ihNo =>
    simp only [List.forall_mem_cons, List.forall_mem_append] at hu
    obtain ⟨-, -, hc, -, hy, -, hn⟩ := hu
    obtain ⟨hcond, hrefs⟩ := ihCondition hc
    obtain ⟨hstmt, hyes, hrefs'⟩ := ihYes hy
    obtain ⟨hstmt', hno, hrefs''⟩ := ihNo hn
    refine ⟨rfl, ⟨hcond, hstmt, hyes, hstmt', hno⟩, ?_⟩
    rw [Stmt.refs, List.append_assoc]
    exact skip _ (skip _ (append hrefs (skip _ (append hrefs' (skip _ hrefs'')))))
  | whileLoop _ _ _ _ _ ihCondition ihBody =>
    simp only [List.forall_mem_cons, List.forall_mem_append] at hu
    obtain ⟨hcond, hrefs⟩ := ihCondition hu.2.2.1
    obtain ⟨hstmt, hbody, hrefs'⟩ := ihBody hu.2.2.2.2
    exact ⟨rfl, ⟨hcond, hstmt, hbody⟩, skip _ (skip _ (append hrefs (skip _ hrefs')))⟩
  | ret _ _ _ ih =>
    simp only [List.forall_mem_cons, List.forall_mem_append] at hu
    obtain ⟨hv, hrefs⟩ := ih hu.2.1
    exact ⟨rfl, hv, skip _ (before _ hrefs)⟩
  | block _ _ _ ih =>
    simp only [List.forall_mem_cons, List.forall_mem_append] at hu
    obtain ⟨hb, hrefs⟩ := ih hu.2.1
    exact ⟨rfl, hb, skip _ (before _ hrefs)⟩
  | classDeclaration _ hn _ _ _ _ ihSuper ihMethods =>
    simp only [List.forall_mem_cons, List.forall_mem_append] at hu
    obtain ⟨-, hname, hs, -, hm, -⟩ := hu
    obtain ⟨hsuper, hrefs⟩ := ihSuper hs
    obtain ⟨hmethods, hrefs'⟩ := ihMethods hm
    refine ⟨⟨hname.1 hn, hsuper, hmethods⟩, skip _ (skip _ ?_)⟩
    exact append hrefs (skip _ (before _ hrefs'))
  | functionDeclaration _ _ ih =>
    rw [List.forall_mem_cons] at hu
    obtain ⟨hname, hd, hrefs⟩ := ih hu.2
    exact ⟨⟨hname, hd⟩, skip _ hrefs⟩
  | varDeclaration _ _ ih =>
    rw [List.forall_mem_cons] at hu
    obtain ⟨hs, hrefs⟩ := ih hu.2
    exact ⟨hs, skip _ hrefs⟩
  | statement _ ih => exact (ih hu).2
  | declarationsNone => exact ⟨trivial, nil _⟩
  | declarationsMore _ _ ihFirst ihMore =>
    rw [List.forall_mem_append] at hu
    obtain ⟨hs, hrefs⟩ := ihFirst hu.1
    obtain ⟨hss, hrefs'⟩ := ihMore hu.2
    exact ⟨⟨hs, hss⟩, append hrefs hrefs'⟩

end Phrase

end Lox
