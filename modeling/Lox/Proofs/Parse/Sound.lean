import Lox.Proofs.Parse.Accepting
import Lox.Proofs.Parse.Phrase

/-!
# Lox.Proofs.Parse.Sound

What a production accepts is a phrase: the tokens it takes off the input stand, by the grammar, for
the tree it yields (`Reads`). By induction on the bound, one production at a time.

An assignment is read as an expression first and turned around afterwards, so its case needs to know
that an expression which is a variable or a property was written as one (`phrase_var`,
`phrase_get`).
-/

namespace Lox

/-- An operator at the top. -/
def Expr.isOperation : Expr → Bool
  | .unary .. | .binary .. | .logical .. => true
  | _ => false

theorem Level.isOperation_combine (level : Level) (left : Expr) (operator : Token) (right : Expr) :
    (level.combine left operator right).isOperation = true := by
  cases level <;> rfl

namespace Phrase

/-- What a shape says of a tree without an operator at the top: it is written at the level of
calls. -/
def Falls : Shape → List Stamped → Prop
  | .level _ e, u | .operand _ e, u | .unary e, u => e.isOperation = false → Phrase (.call e) u
  | .chain _ left e, u => e.isOperation = false → u = [] ∧ e = left
  | _, _ => True

theorem falls {shape : Shape} {u : List Stamped} (h : Phrase shape u) : Falls shape u := by
  induction h with
  | level _ _ ihFirst ihChain =>
    intro he
    obtain ⟨rfl, rfl⟩ := ihChain he
    simpa using ihFirst he
  | operandLevel _ _ ih => exact ih
  | operandUnary _ _ ih => exact ih
  | chainStop => exact fun _ => ⟨rfl, rfl⟩
  | chainStep _ _ _ _ ihChain =>
    intro he
    obtain ⟨-, rfl⟩ := ihChain he
    simp [Level.isOperation_combine] at he
  | unary => exact nofun
  | unaryCall h => exact fun _ => h
  | _ => trivial

/-- Suffixes either change nothing, or end in a call or a property. -/
theorem suffixes_cases {callee e : Expr} {u : List Stamped} (h : Phrase (.suffixes callee e) u) :
    (u = [] ∧ e = callee) ∨
      (∃ object dot name v, e = .get object name.token ∧ dot.token.kind = .dot ∧
        name.token.kind = .identifier ∧ u = v ++ [dot, name] ∧
        Phrase (.suffixes callee object) v) ∨
      ∃ f paren args, e = .call f paren args := by
  generalize hs : Shape.suffixes callee e = shape at h
  induction h generalizing callee e with
  | suffixesStop => cases hs; exact .inl ⟨rfl, rfl⟩
  | @suffixesCall f e' opening paren args a b ho ha hp hb _ ih =>
    cases hs
    obtain ⟨rfl, rfl⟩ | ⟨object, dot, name, v, rfl, hd, hn, rfl, hv⟩ | h := ih rfl
    · exact .inr (.inr ⟨_, _, _, rfl⟩)
    · refine .inr (.inl ⟨object, dot, name, opening :: (a ++ paren :: v), rfl, hd, hn, ?_, ?_⟩)
      · simp
      · exact .suffixesCall ho ha hp hv
    · exact .inr (.inr h)
  | @suffixesGet object e' dot name a hd hn ha ih =>
    cases hs
    obtain ⟨rfl, rfl⟩ | ⟨object', dot', name', v, rfl, hd', hn', rfl, hv⟩ | h := ih rfl
    · exact .inr (.inl ⟨object, dot, name, [], rfl, hd, hn, rfl, .suffixesStop⟩)
    · exact .inr (.inl ⟨object', dot', name', dot :: name :: v, rfl, hd', hn', rfl,
        .suffixesGet hd hn hv⟩)
    · exact .inr (.inr h)
  | _ => cases hs

/-- A variable is written as one token. -/
theorem phrase_var {level : Level} {id : RefId} {name : Token} {u : List Stamped}
    (h : Phrase (.level level (.var id name)) u) :
    ∃ t, u = [t] ∧ t.id = id ∧ t.token = name ∧ t.token.kind = .identifier := by
  cases h.falls rfl with
  | call hp hs =>
    obtain ⟨rfl, rfl⟩ | ⟨_, _, _, _, he, _⟩ | ⟨_, _, _, he⟩ := suffixes_cases hs
    · cases hp with
      | var hk => exact ⟨_, rfl, rfl, rfl, hk⟩
    · cases he
    · cases he

/-- A property is written as its object, a dot and a name. -/
theorem phrase_get {level : Level} {object : Expr} {name : Token} {u : List Stamped}
    (h : Phrase (.level level (.get object name)) u) :
    ∃ v dot t, u = v ++ [dot, t] ∧ dot.token.kind = .dot ∧ t.token = name ∧
      t.token.kind = .identifier ∧ Phrase (.call object) v := by
  cases h.falls rfl with
  | call hp hs =>
    obtain ⟨rfl, rfl⟩ | ⟨object', dot, t, v, he, hd, hn, rfl, hv⟩ | ⟨_, _, _, he⟩ :=
      suffixes_cases hs
    · cases hp
    · cases he
      exact ⟨_, dot, t, by simp, hd, rfl, hn, .call hp hv⟩
    · cases he

end Phrase

namespace Parser

/-- What `p` accepts are phrases of the shapes of its values. -/
def Reads {α : Type} (p : Parser α) (shape : α → Shape) : Prop :=
  ∀ ⦃input : List Stamped⦄ ⦃a : α⦄ ⦃rest : List Stamped⦄, Accepts p input a rest →
    ∃ u, input = u ++ rest ∧ Phrase (shape a) u

/-- The productions of expressions, each within a bound. -/
structure ExpressionsSound (n : Nat) : Prop where
  expression : Reads (expressionIn n) .expression
  level : ∀ level, Reads (levelIn n level) (.level level)
  operand : ∀ level, Reads (operandIn n level) (.operand level)
  chain : ∀ level left, Reads (chainIn n level left) (.chain level left)
  unary : Reads (unaryIn n) .unary
  suffixes : ∀ e, Reads (suffixesIn n e) (.suffixes e)
  arguments : Reads (argumentsIn n) .arguments
  argumentList : ∀ index, Reads (argumentListIn n index) (.argumentList index)
  primary : Reads (primaryIn n) .primary

section Step

variable {n : Nat} (ih : ExpressionsSound n)
include ih

theorem reads_expressionIn : Reads (expressionIn (n + 1)) .expression := by
  intro input e rest h
  simp only [Production.expressionIn, liftM_eq, accepts_bind, accepts_remaining] at h
  obtain ⟨target, mid, ht, _, _, ⟨rfl, rfl⟩, r, mid', hr, h⟩ := h
  obtain ⟨u, rfl, hu⟩ := ih.level .or ht
  cases r with
  | none =>
    rw [accepts_accept_none] at hr
    obtain ⟨rfl, -⟩ := hr
    simp only [accepts_pure] at h
    obtain ⟨rfl, rfl⟩ := h
    exact ⟨u, rfl, .plain hu⟩
  | some equal =>
    rw [accepts_accept_some] at hr
    obtain ⟨rfl, hequal⟩ := hr
    simp only [accepts_bind] at h
    obtain ⟨value, mid, hvalue, h⟩ := h
    obtain ⟨v, rfl, hv⟩ := ih.expression hvalue
    cases target with
    | var id name =>
      simp only [reference_eq, accepts_pure] at h
      obtain ⟨rfl, rfl⟩ := h
      obtain ⟨t, rfl, rfl, rfl, hk⟩ := Phrase.phrase_var hu
      exact ⟨t :: equal :: v, rfl, .assign hk hequal hv⟩
    | get object name =>
      simp only [accepts_pure] at h
      obtain ⟨rfl, rfl⟩ := h
      obtain ⟨w, dot, t, rfl, hd, rfl, hk, ho⟩ := Phrase.phrase_get hu
      exact ⟨w ++ dot :: t :: equal :: v, by simp, .set ho hd hk hequal hv⟩
    | _ => simp [accepts_bind] at h

theorem reads_levelIn (level : Level) : Reads (levelIn (n + 1) level) (.level level) := by
  intro input e rest h
  simp only [Production.levelIn, accepts_bind] at h
  obtain ⟨left, mid, hl, h⟩ := h
  obtain ⟨u, rfl, hu⟩ := ih.operand level hl
  obtain ⟨v, rfl, hv⟩ := ih.chain level left h
  exact ⟨u ++ v, by simp, .level hu hv⟩

theorem reads_operandIn (level : Level) : Reads (operandIn (n + 1) level) (.operand level) := by
  intro input e rest h
  simp only [Production.operandIn] at h
  cases ht : level.tighter with
  | some tighter =>
    rw [ht] at h
    obtain ⟨u, rfl, hu⟩ := ih.level tighter h
    exact ⟨u, rfl, .operandLevel ht hu⟩
  | none =>
    rw [ht] at h
    obtain ⟨u, rfl, hu⟩ := ih.unary h
    exact ⟨u, rfl, .operandUnary ht hu⟩

theorem reads_chainIn (level : Level) (left : Expr) :
    Reads (chainIn (n + 1) level left) (.chain level left) := by
  intro input e rest h
  simp only [Production.chainIn, liftM_eq, accepts_bind] at h
  obtain ⟨r, mid, hr, h⟩ := h
  cases r with
  | none =>
    rw [accepts_acceptAny_none] at hr
    obtain ⟨rfl, -⟩ := hr
    simp only [accepts_pure] at h
    obtain ⟨rfl, rfl⟩ := h
    exact ⟨[], rfl, .chainStop⟩
  | some operator =>
    rw [accepts_acceptAny_some] at hr
    obtain ⟨rfl, hop⟩ := hr
    simp only [accepts_bind] at h
    obtain ⟨right, mid, hright, h⟩ := h
    obtain ⟨u, rfl, hu⟩ := ih.operand level hright
    obtain ⟨v, rfl, hv⟩ := ih.chain level _ h
    exact ⟨operator :: (u ++ v), by simp, .chainStep hop hu hv⟩

theorem reads_unaryIn : Reads (unaryIn (n + 1)) .unary := by
  intro input e rest h
  simp only [Production.unaryIn, liftM_eq, accepts_bind] at h
  obtain ⟨r, mid, hr, h⟩ := h
  cases r with
  | some operator =>
    rw [accepts_acceptAny_some] at hr
    obtain ⟨rfl, hop⟩ := hr
    simp only [accepts_bind] at h
    obtain ⟨operand, mid, ho, h⟩ := h
    simp only [accepts_pure] at h
    obtain ⟨rfl, rfl⟩ := h
    obtain ⟨u, rfl, hu⟩ := ih.unary ho
    exact ⟨operator :: u, rfl, .unary hop hu⟩
  | none =>
    rw [accepts_acceptAny_none] at hr
    obtain ⟨rfl, -⟩ := hr
    simp only [accepts_bind] at h
    obtain ⟨first, mid, hf, h⟩ := h
    obtain ⟨u, rfl, hu⟩ := ih.primary hf
    obtain ⟨v, rfl, hv⟩ := ih.suffixes first h
    exact ⟨u ++ v, by simp, .unaryCall (.call hu hv)⟩

theorem reads_suffixesIn (callee : Expr) : Reads (suffixesIn (n + 1) callee) (.suffixes callee) := by
  intro input e rest h
  simp only [Production.suffixesIn, liftM_eq, accepts_bind] at h
  obtain ⟨r, mid, hr, h⟩ := h
  cases r with
  | some opening =>
    rw [accepts_accept_some] at hr
    obtain ⟨rfl, ho⟩ := hr
    simp only [accepts_bind, accepts_expect] at h
    obtain ⟨args, mid, ha, paren, mid', ⟨rfl, hp⟩, h⟩ := h
    obtain ⟨u, rfl, hu⟩ := ih.arguments ha
    obtain ⟨v, rfl, hv⟩ := ih.suffixes _ h
    exact ⟨opening :: (u ++ paren :: v), by simp, .suffixesCall ho hu hp hv⟩
  | none =>
    rw [accepts_accept_none] at hr
    obtain ⟨rfl, -⟩ := hr
    simp only [accepts_bind] at h
    obtain ⟨r, mid, hr, h⟩ := h
    cases r with
    | some dot =>
      rw [accepts_accept_some] at hr
      obtain ⟨rfl, hd⟩ := hr
      simp only [accepts_bind, accepts_expect] at h
      obtain ⟨name, mid, ⟨rfl, hn⟩, h⟩ := h
      obtain ⟨u, rfl, hu⟩ := ih.suffixes _ h
      exact ⟨dot :: name :: u, rfl, .suffixesGet hd hn hu⟩
    | none =>
      rw [accepts_accept_none] at hr
      obtain ⟨rfl, -⟩ := hr
      simp only [accepts_pure] at h
      obtain ⟨rfl, rfl⟩ := h
      exact ⟨[], rfl, .suffixesStop⟩

theorem reads_argumentsIn : Reads (argumentsIn (n + 1)) .arguments := by
  intro input args rest h
  simp only [Production.argumentsIn, liftM_eq, accepts_bind, accepts_ahead] at h
  obtain ⟨closed, mid, ⟨-, rfl⟩, h⟩ := h
  cases closed with
  | true =>
    obtain ⟨rfl, rfl⟩ := accepts_pure.1 h
    exact ⟨[], rfl, .argumentsNone⟩
  | false =>
    obtain ⟨u, rfl, hu⟩ := ih.argumentList 0 h
    exact ⟨u, rfl, .argumentsSome hu⟩

theorem reads_argumentListIn (index : Nat) :
    Reads (argumentListIn (n + 1) index) (.argumentList index) := by
  intro input args rest h
  simp only [Production.argumentListIn, liftM_eq, accepts_bind, accepts_complainIf, decide_eq_false_iff_not,
    Nat.not_le] at h
  obtain ⟨_, _, ⟨hindex, rfl⟩, arg, mid, ha, r, mid', hr, h⟩ := h
  obtain ⟨u, rfl, hu⟩ := ih.expression ha
  cases r with
  | none =>
    rw [accepts_accept_none] at hr
    obtain ⟨rfl, -⟩ := hr
    simp only [accepts_pure] at h
    obtain ⟨rfl, rfl⟩ := h
    exact ⟨u, rfl, .argumentLast hindex hu⟩
  | some comma =>
    rw [accepts_accept_some] at hr
    obtain ⟨rfl, hc⟩ := hr
    simp only [accepts_bind] at h
    obtain ⟨more, mid, hm, h⟩ := h
    simp only [accepts_pure] at h
    obtain ⟨rfl, rfl⟩ := h
    obtain ⟨v, rfl, hv⟩ := ih.argumentList (index + 1) hm
    exact ⟨u ++ comma :: v, by simp, .argumentMore hindex hu hc hv⟩

theorem reads_primaryIn : Reads (primaryIn (n + 1)) .primary := by
  intro input e rest h
  simp only [Production.primaryIn, liftM_eq, accepts_bind] at h
  obtain ⟨r, mid, hr, h⟩ := h
  cases r with
  | none => simp at h
  | some t =>
    rw [accepts_acceptAny_some] at hr
    obtain ⟨rfl, ht⟩ := hr
    have hcases : t.token.kind ∈ Constant.kinds ∨ t.token.kind = .kwSuper ∨
        t.token.kind = .kwThis ∨ t.token.kind = .identifier ∨ t.token.kind = .leftParen := by
      simpa [Constant.kinds, or_assoc] using ht
    obtain hk | hk | hk | hk | hk := hcases
    · have hc : e = .constant (.ofConstantToken t.token) ∧ rest = mid := by
        simp only [Constant.kinds, List.mem_cons, List.not_mem_nil, or_false] at hk
        obtain hk | hk | hk | hk | hk := hk <;> simpa [hk, Constant.ofConstantToken] using h
      obtain ⟨rfl, rfl⟩ := hc
      exact ⟨[t], rfl, .constant hk⟩
    · simp only [hk, accepts_bind, accepts_expect, reference_eq, accepts_pure] at h
      obtain ⟨dot, mid', ⟨rfl, hd⟩, method, mid, ⟨rfl, hm⟩, rfl, rfl⟩ := h
      exact ⟨[t, dot, method], rfl, .superRef hk hd hm⟩
    · simp only [hk, reference_eq, accepts_pure] at h
      obtain ⟨rfl, rfl⟩ := h
      exact ⟨[t], rfl, .thisRef hk⟩
    · simp only [hk, reference_eq, accepts_pure] at h
      obtain ⟨rfl, rfl⟩ := h
      exact ⟨[t], rfl, .var hk⟩
    · simp only [hk, accepts_bind, accepts_expect, accepts_pure] at h
      obtain ⟨inner, mid', hi, closing, mid, ⟨rfl, hc⟩, rfl, rfl⟩ := h
      obtain ⟨u, rfl, hu⟩ := ih.expression hi
      exact ⟨t :: (u ++ [closing]), by simp, .grouping hk hu hc⟩

end Step

theorem expressionsSound (n : Nat) : ExpressionsSound n := by
  induction n with
  | zero => constructor <;> intros <;> intro _ _ _ h <;> cases h
  | succ n ih =>
    exact
      { expression := reads_expressionIn ih
        level := reads_levelIn ih
        operand := reads_operandIn ih
        chain := reads_chainIn ih
        unary := reads_unaryIn ih
        suffixes := reads_suffixesIn ih
        arguments := reads_argumentsIn ih
        argumentList := reads_argumentListIn ih
        primary := reads_primaryIn ih }

/-! ## Productions without recursion of their own -/

theorem reads_expression : Reads expression .expression := by
  intro input e rest h
  rw [accepts_expression] at h
  exact (expressionsSound _).expression h

theorem reads_optionalExpression (stop : TokenKind) :
    Reads (optionalExpression stop) .optional := by
  intro input e rest h
  simp only [Production.optionalExpression, liftM_eq, accepts_bind, accepts_ahead] at h
  obtain ⟨stopped, mid, ⟨-, rfl⟩, h⟩ := h
  cases stopped with
  | true =>
    obtain ⟨rfl, rfl⟩ := accepts_pure.1 h
    exact ⟨[], rfl, .optionalNone⟩
  | false =>
    obtain ⟨e, mid, he, h⟩ := accepts_bind.1 h
    obtain ⟨rfl, rfl⟩ := accepts_pure.1 h
    obtain ⟨u, rfl, hu⟩ := reads_expression he
    exact ⟨u, rfl, .optionalSome hu⟩

theorem reads_superclassClause : Reads superclassClause .superclass := by
  intro input e rest h
  simp only [Production.superclassClause, liftM_eq, accepts_bind] at h
  obtain ⟨r, mid, hr, h⟩ := h
  cases r with
  | none =>
    rw [accepts_accept_none] at hr
    obtain ⟨rfl, -⟩ := hr
    obtain ⟨rfl, rfl⟩ := accepts_pure.1 h
    exact ⟨[], rfl, .superclassNone⟩
  | some less =>
    simp only [accepts_accept_some, accepts_bind, accepts_expect, reference_eq, accepts_pure] at hr h
    obtain ⟨rfl, hl⟩ := hr
    obtain ⟨name, mid, ⟨rfl, hn⟩, rfl, rfl⟩ := h
    exact ⟨[less, name], rfl, .superclassSome hl hn⟩

theorem reads_parameterListIn (n index : Nat) :
    Reads (parameterListIn n index) (.parameterList index) := by
  induction n generalizing index with
  | zero => intro _ _ _ h; cases h
  | succ n ih =>
    intro input params rest h
    simp only [parameterListIn, accepts_bind, accepts_complainIf, decide_eq_false_iff_not,
      Nat.not_le, accepts_expect] at h
    obtain ⟨_, _, ⟨hindex, rfl⟩, param, mid, ⟨rfl, hp⟩, r, mid', hr, h⟩ := h
    cases r with
    | none =>
      rw [accepts_accept_none] at hr
      obtain ⟨rfl, -⟩ := hr
      obtain ⟨rfl, rfl⟩ := accepts_pure.1 h
      exact ⟨[param], rfl, .parameterLast hindex hp⟩
    | some comma =>
      simp only [accepts_accept_some, accepts_bind, accepts_pure] at hr h
      obtain ⟨rfl, hc⟩ := hr
      obtain ⟨more, mid, hm, rfl, rfl⟩ := h
      obtain ⟨u, rfl, hu⟩ := ih (index + 1) hm
      exact ⟨param :: comma :: u, rfl, .parameterMore hindex hp hc hu⟩

theorem reads_parameters : Reads parameters .parameters := by
  intro input params rest h
  obtain ⟨closed, mid, hclosed, h⟩ := accepts_bind.1 h
  obtain ⟨-, rfl⟩ := accepts_ahead.1 hclosed
  cases closed with
  | true =>
    obtain ⟨rfl, rfl⟩ := accepts_pure.1 h
    exact ⟨[], rfl, .parametersNone⟩
  | false =>
    obtain ⟨u, rfl, hu⟩ := reads_parameterListIn _ 0 h
    exact ⟨u, rfl, .parametersSome hu⟩

theorem reads_varDeclaration : Reads varDeclaration .varRest := by
  intro input s rest h
  simp only [Production.varDeclaration, liftM_eq, accepts_bind, accepts_expect] at h
  obtain ⟨name, mid, ⟨rfl, hn⟩, r, mid', hr, h⟩ := h
  cases r with
  | none =>
    simp only [accepts_accept_none, accepts_bind, accepts_expect, accepts_pure] at hr h
    obtain ⟨rfl, -⟩ := hr
    obtain ⟨semicolon, mid, ⟨rfl, hs⟩, rfl, rfl⟩ := h
    exact ⟨[name, semicolon], rfl, .varPlain hn hs⟩
  | some equal =>
    simp only [accepts_accept_some, accepts_bind, accepts_expect, accepts_pure] at hr h
    obtain ⟨rfl, he⟩ := hr
    obtain ⟨init, mid, hi, semicolon, mid', ⟨rfl, hs⟩, rfl, rfl⟩ := h
    obtain ⟨u, rfl, hu⟩ := reads_expression hi
    exact ⟨name :: equal :: (u ++ [semicolon]), by simp, .varInit hn he hu hs⟩

theorem reads_expressionStatement : Reads expressionStatement .expressionStatement := by
  intro input s rest h
  simp only [Production.expressionStatement, liftM_eq, accepts_bind, accepts_expect, accepts_pure] at h
  obtain ⟨e, mid, he, semicolon, mid', ⟨rfl, hs⟩, rfl, rfl⟩ := h
  obtain ⟨u, rfl, hu⟩ := reads_expression he
  exact ⟨u ++ [semicolon], by simp, .expressionStatement hu hs⟩

theorem reads_forInitializer : Reads forInitializer .initializer := by
  intro input s rest h
  simp only [Production.forInitializer, liftM_eq, accepts_bind] at h
  obtain ⟨r, mid, hr, h⟩ := h
  cases r with
  | some semicolon =>
    rw [accepts_accept_some] at hr
    obtain ⟨rfl, hs⟩ := hr
    obtain ⟨rfl, rfl⟩ := accepts_pure.1 h
    exact ⟨[semicolon], rfl, .initializerNone hs⟩
  | none =>
    simp only [accepts_accept_none, accepts_bind] at hr h
    obtain ⟨rfl, -⟩ := hr
    obtain ⟨r, mid, hr, h⟩ := h
    cases r with
    | some keyword =>
      simp only [accepts_accept_some, accepts_bind, accepts_pure] at hr h
      obtain ⟨rfl, hk⟩ := hr
      obtain ⟨s, mid, hs, rfl, rfl⟩ := h
      obtain ⟨u, rfl, hu⟩ := reads_varDeclaration hs
      exact ⟨keyword :: u, rfl, .initializerVar hk hu⟩
    | none =>
      simp only [accepts_accept_none, accepts_bind, accepts_pure] at hr h
      obtain ⟨rfl, -⟩ := hr
      obtain ⟨s, mid, hs, rfl, rfl⟩ := h
      obtain ⟨u, rfl, hu⟩ := reads_expressionStatement hs
      exact ⟨u, rfl, .initializerExpression hu⟩

theorem reads_returnStatement {keyword : Stamped} (hk : keyword.token.kind = .kwReturn)
    {input rest : List Stamped} {s : Stmt}
    (h : Accepts (returnStatement keyword.token) input s rest) :
    ∃ u, keyword :: input = u ++ rest ∧ Phrase (.statement false s) u := by
  simp only [Production.returnStatement, liftM_eq, accepts_bind, accepts_ahead] at h
  obtain ⟨bare, mid, ⟨-, rfl⟩, h⟩ := h
  cases bare with
  | true =>
    simp only [if_true, accepts_bind, accepts_expect, accepts_pure] at h
    obtain ⟨semicolon, mid, ⟨rfl, hs⟩, rfl, rfl⟩ := h
    exact ⟨[keyword, semicolon], rfl, .ret (u := []) hk .optionalNone hs⟩
  | false =>
    simp only [Bool.false_eq_true, if_false, accepts_bind, accepts_expect, accepts_pure] at h
    obtain ⟨value, mid, hv, semicolon, mid', ⟨rfl, hs⟩, rfl, rfl⟩ := h
    obtain ⟨u, rfl, hu⟩ := reads_expression hv
    exact ⟨keyword :: (u ++ [semicolon]), by simp, .ret hk (.optionalSome hu) hs⟩

/-! ## Statements and declarations -/

/-- A statement is read with some mark of whether it is open. -/
def ReadsStatement (p : Parser Stmt) : Prop :=
  ∀ ⦃input : List Stamped⦄ ⦃s : Stmt⦄ ⦃rest : List Stamped⦄, Accepts p input s rest →
    ∃ u isOpen, input = u ++ rest ∧ Phrase (.statement isOpen s) u ∧
      (isOpen = true → ¬ Ahead [.kwElse] rest)

/-- The same after a keyword. -/
def ReadsAfter (kind : TokenKind) (p : Parser Stmt) : Prop :=
  ∀ ⦃keyword : Stamped⦄ ⦃input : List Stamped⦄ ⦃s : Stmt⦄ ⦃rest : List Stamped⦄,
    keyword.token.kind = kind → Accepts p input s rest →
    ∃ u isOpen, keyword :: input = u ++ rest ∧ Phrase (.statement isOpen s) u ∧
      (isOpen = true → ¬ Ahead [.kwElse] rest)

/-- The productions of statements and declarations, each within a bound. -/
structure StatementsSound (n : Nat) : Prop where
  declaration : Reads (declarationIn n) .declaration
  bareDeclaration : Reads (bareDeclarationIn n) .declaration
  cls : ∀ ⦃keyword input s rest⦄, keyword.token.kind = .kwClass → Accepts (classIn n) input s rest →
    ∃ u, keyword :: input = u ++ rest ∧ Phrase (.declaration s) u
  methods : Reads (methodsIn n) .methods
  function : ∀ kind, Reads (functionIn n kind) .function
  block : ∀ ⦃input body rest⦄, Accepts (blockIn n) input body rest →
    ∃ u right, input = u ++ right :: rest ∧ Phrase (.declarations body) u ∧
      right.token.kind = .rightBrace
  declarations : Reads (declarationsIn n) .declarations
  statement : ReadsStatement (statementIn n)
  forLoop : ReadsAfter .kwFor (forIn n)
  ifBranch : ReadsAfter .kwIf (ifIn n)
  whileLoop : ReadsAfter .kwWhile (whileIn n)

section Step

variable {n : Nat} (ih : StatementsSound n)
include ih

theorem reads_bareDeclarationIn : Reads (bareDeclarationIn (n + 1)) .declaration := by
  intro input s rest h
  simp only [Production.bareDeclarationIn, liftM_eq, accepts_bind] at h
  obtain ⟨r, mid, hr, h⟩ := h
  cases r with
  | none =>
    rw [accepts_acceptAny_none] at hr
    obtain ⟨rfl, -⟩ := hr
    obtain ⟨u, _, rfl, hu, -⟩ := ih.statement h
    exact ⟨u, rfl, .statement hu⟩
  | some keyword =>
    rw [accepts_acceptAny_some] at hr
    obtain ⟨rfl, hk⟩ := hr
    simp only [List.mem_cons, List.not_mem_nil, or_false] at hk
    obtain hk | hk | hk := hk
    · simp only [hk] at h
      exact ih.cls hk h
    · simp only [hk, accepts_bind, accepts_pure] at h
      obtain ⟨decl, mid, hd, rfl, rfl⟩ := h
      obtain ⟨u, rfl, hu⟩ := ih.function _ hd
      exact ⟨keyword :: u, rfl, .functionDeclaration hk hu⟩
    · simp only [hk] at h
      obtain ⟨u, rfl, hu⟩ := reads_varDeclaration h
      exact ⟨keyword :: u, rfl, .varDeclaration hk hu⟩

theorem reads_classIn {keyword : Stamped} {input rest : List Stamped} {s : Stmt}
    (hk : keyword.token.kind = .kwClass) (h : Accepts (classIn (n + 1)) input s rest) :
    ∃ u, keyword :: input = u ++ rest ∧ Phrase (.declaration s) u := by
  simp only [Production.classIn, liftM_eq, accepts_bind, accepts_expect, accepts_pure] at h
  obtain ⟨name, mid, ⟨rfl, hn⟩, superclass, mid', hs, left, mid, ⟨rfl, hl⟩, methods, mid', hm,
    right, mid, ⟨rfl, hr⟩, rfl, rfl⟩ := h
  obtain ⟨u, rfl, hu⟩ := reads_superclassClause hs
  obtain ⟨v, rfl, hv⟩ := ih.methods hm
  exact ⟨keyword :: name :: (u ++ left :: (v ++ [right])), by simp,
    .classDeclaration hk hn hu hl hv hr⟩

theorem reads_methodsIn : Reads (methodsIn (n + 1)) .methods := by
  intro input decls rest h
  simp only [Production.methodsIn, liftM_eq, accepts_bind, accepts_atBodyEnd] at h
  obtain ⟨ended, mid, ⟨-, rfl⟩, h⟩ := h
  cases ended with
  | true =>
    obtain ⟨rfl, rfl⟩ := accepts_pure.1 h
    exact ⟨[], rfl, .methodsNone⟩
  | false =>
    simp only [Bool.false_eq_true, if_false, accepts_bind, accepts_pure] at h
    obtain ⟨decl, mid, hd, more, mid', hm, rfl, rfl⟩ := h
    obtain ⟨u, rfl, hu⟩ := ih.function _ hd
    obtain ⟨v, rfl, hv⟩ := ih.methods hm
    exact ⟨u ++ v, by simp, .methodsMore hu hv⟩

theorem reads_functionIn (kind : FunctionKind) : Reads (functionIn (n + 1) kind) .function := by
  intro input decl rest h
  simp only [Production.functionIn, liftM_eq, accepts_bind, accepts_expect, accepts_pure] at h
  obtain ⟨name, mid, ⟨rfl, hn⟩, opening, mid', ⟨rfl, ho⟩, params, mid, hp, closing, mid',
    ⟨rfl, hc⟩, left, mid, ⟨rfl, hl⟩, body, mid', hb, rfl, rfl⟩ := h
  obtain ⟨u, rfl, hu⟩ := reads_parameters hp
  obtain ⟨v, right, rfl, hv, hr⟩ := ih.block hb
  exact ⟨name :: opening :: (u ++ closing :: left :: (v ++ [right])), by simp,
    .function hn ho hu hc hl hv hr⟩

theorem reads_blockIn {input rest : List Stamped} {body : List Stmt}
    (h : Accepts (blockIn (n + 1)) input body rest) :
    ∃ u right, input = u ++ right :: rest ∧ Phrase (.declarations body) u ∧
      right.token.kind = .rightBrace := by
  simp only [Production.blockIn, liftM_eq, accepts_bind, accepts_expect, accepts_pure] at h
  obtain ⟨body, mid, hb, right, mid', ⟨rfl, hr⟩, rfl, rfl⟩ := h
  obtain ⟨u, rfl, hu⟩ := ih.declarations hb
  exact ⟨u, right, rfl, hu, hr⟩

theorem reads_declarationsIn : Reads (declarationsIn (n + 1)) .declarations := by
  intro input ss rest h
  simp only [Production.declarationsIn, liftM_eq, accepts_bind, accepts_atBodyEnd] at h
  obtain ⟨ended, mid, ⟨-, rfl⟩, h⟩ := h
  cases ended with
  | true =>
    obtain ⟨rfl, rfl⟩ := accepts_pure.1 h
    exact ⟨[], rfl, .declarationsNone⟩
  | false =>
    simp only [Bool.false_eq_true, if_false, accepts_bind, accepts_pure] at h
    obtain ⟨first, mid, hf, more, mid', hm, rfl, rfl⟩ := h
    obtain ⟨u, rfl, hu⟩ := ih.declaration hf
    obtain ⟨v, rfl, hv⟩ := ih.declarations hm
    exact ⟨u ++ v, by simp, .declarationsMore hu hv⟩

theorem reads_statementIn : ReadsStatement (statementIn (n + 1)) := by
  intro input s rest h
  simp only [Production.statementIn, liftM_eq, accepts_bind] at h
  obtain ⟨r, mid, hr, h⟩ := h
  cases r with
  | none =>
    rw [accepts_acceptAny_none] at hr
    obtain ⟨rfl, -⟩ := hr
    obtain ⟨u, rfl, hu⟩ := reads_expressionStatement h
    exact ⟨u, false, rfl, .expressionForm hu, nofun⟩
  | some t =>
    rw [accepts_acceptAny_some] at hr
    obtain ⟨rfl, hk⟩ := hr
    simp only [List.mem_cons, List.not_mem_nil, or_false] at hk
    obtain hk | hk | hk | hk | hk := hk
    · simp only [hk] at h
      exact ih.forLoop hk h
    · simp only [hk] at h
      exact ih.ifBranch hk h
    · simp only [hk] at h
      exact ih.whileLoop hk h
    · simp only [hk] at h
      obtain ⟨u, hu, hs⟩ := reads_returnStatement hk h
      exact ⟨u, false, hu, hs, nofun⟩
    · simp only [hk, accepts_bind, accepts_pure] at h
      obtain ⟨body, mid, hb, rfl, rfl⟩ := h
      obtain ⟨u, right, rfl, hu, hr⟩ := ih.block hb
      exact ⟨t :: (u ++ [right]), false, by simp, .block hk hu hr, nofun⟩

theorem reads_forIn : ReadsAfter .kwFor (forIn (n + 1)) := by
  intro keyword input s rest hk h
  simp only [Production.forIn, liftM_eq, accepts_bind, accepts_expect, accepts_pure] at h
  obtain ⟨opening, mid, ⟨rfl, ho⟩, init, mid', hi, condition, mid, hc, semicolon, mid',
    ⟨rfl, hs⟩, increment, mid, hincr, closing, mid', ⟨rfl, hclose⟩, body, mid, hb, rfl, rfl⟩ := h
  obtain ⟨u, rfl, hu⟩ := reads_forInitializer hi
  obtain ⟨v, rfl, hv⟩ := reads_optionalExpression _ hc
  obtain ⟨w, rfl, hw⟩ := reads_optionalExpression _ hincr
  obtain ⟨x, isOpen, rfl, hx, helse⟩ := ih.statement hb
  exact ⟨keyword :: opening :: (u ++ (v ++ semicolon :: (w ++ closing :: x))), isOpen, by simp,
    .forLoop hk ho hu hv hs hw hclose hx, helse⟩

theorem reads_ifIn : ReadsAfter .kwIf (ifIn (n + 1)) := by
  intro keyword input s rest hk h
  simp only [Production.ifIn, liftM_eq, accepts_bind, accepts_expect] at h
  obtain ⟨opening, mid, ⟨rfl, ho⟩, condition, mid', hc, closing, mid, ⟨rfl, hclose⟩, yes, mid',
    hy, r, mid, hr, h⟩ := h
  obtain ⟨u, rfl, hu⟩ := reads_expression hc
  obtain ⟨v, isOpen, rfl, hv, helse⟩ := ih.statement hy
  cases r with
  | none =>
    simp only [accepts_accept_none, accepts_pure] at hr h
    obtain ⟨rfl, hnone⟩ := hr
    obtain ⟨rfl, rfl⟩ := h
    exact ⟨keyword :: opening :: (u ++ closing :: v), true, by simp, .ifThen hk ho hu hclose hv,
      fun _ => hnone⟩
  | some other =>
    simp only [accepts_accept_some, accepts_bind, accepts_pure] at hr h
    obtain ⟨rfl, hother⟩ := hr
    obtain ⟨no, mid, hn, rfl, rfl⟩ := h
    obtain ⟨w, noOpen, rfl, hw, hrest⟩ := ih.statement hn
    -- An open branch would have taken the `else` itself.
    have hclosed : isOpen = false := by
      cases isOpen with
      | false => rfl
      | true => exact absurd (by simp [hother]) (helse rfl)
    subst hclosed
    exact ⟨keyword :: opening :: (u ++ closing :: (v ++ other :: w)), noOpen, by simp,
      .ifElse hk ho hu hclose hv hother hw, hrest⟩

theorem reads_whileIn : ReadsAfter .kwWhile (whileIn (n + 1)) := by
  intro keyword input s rest hk h
  simp only [Production.whileIn, liftM_eq, accepts_bind, accepts_expect, accepts_pure] at h
  obtain ⟨opening, mid, ⟨rfl, ho⟩, condition, mid', hc, closing, mid, ⟨rfl, hclose⟩, body, mid',
    hb, rfl, rfl⟩ := h
  obtain ⟨u, rfl, hu⟩ := reads_expression hc
  obtain ⟨v, isOpen, rfl, hv, helse⟩ := ih.statement hb
  exact ⟨keyword :: opening :: (u ++ closing :: v), isOpen, by simp,
    .whileLoop hk ho hu hclose hv, helse⟩

end Step

theorem statementsSound (n : Nat) : StatementsSound n := by
  induction n with
  | zero => constructor <;> intros <;> first | contradiction | (intro; intros; contradiction)
  | succ n ih =>
    exact
      { declaration := fun _ _ _ h => ih.bareDeclaration (accepts_recover.1 h)
        bareDeclaration := reads_bareDeclarationIn ih
        cls := fun _ _ _ _ => reads_classIn ih
        methods := reads_methodsIn ih
        function := reads_functionIn ih
        block := fun _ _ _ => reads_blockIn ih
        declarations := reads_declarationsIn ih
        statement := reads_statementIn ih
        forLoop := reads_forIn ih
        ifBranch := reads_ifIn ih
        whileLoop := reads_whileIn ih }

/-- An accepted program is a list of declarations to its end. -/
theorem phrase_of_accepts_program {input rest : List Stamped} {ss : List Stmt}
    (h : Accepts program input ss rest) : rest = [] ∧ Phrase (.declarations ss) input := by
  have hreads (n : Nat) : ∀ {input rest ss}, Accepts (programIn n) input ss rest →
      rest = [] ∧ Phrase (.declarations ss) input := by
    induction n with
    | zero => exact nofun
    | succ n ih =>
      intro input rest ss h
      simp only [Production.programIn, liftM_eq, accepts_bind, accepts_atEnd] at h
      obtain ⟨ended, mid, ⟨hended, rfl⟩, h⟩ := h
      cases ended with
      | true =>
        obtain ⟨rfl, rfl⟩ := accepts_pure.1 h
        have := hended.1 rfl
        subst this
        exact ⟨rfl, .declarationsNone⟩
      | false =>
        simp only [Bool.false_eq_true, if_false, accepts_bind, accepts_pure] at h
        obtain ⟨first, mid, hf, more, mid', hm, rfl, rfl⟩ := h
        obtain ⟨rfl, hv⟩ := ih hm
        rw [accepts_declaration] at hf
        obtain ⟨u, rfl, hu⟩ := (statementsSound _).declaration hf
        exact ⟨rfl, .declarationsMore hu hv⟩
  exact hreads (input.length + 1) h

end Parser
end Lox
