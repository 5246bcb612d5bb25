import Lox.Proofs.Parse.Complete
import Lox.Proofs.Parse.InStep

/-!
# Lox.Proofs.Parse.Productions

Each production goes in step with itself, with the same fuel or more: the one place that says how
the productions are built. Expressions take tokens of a few kinds only, and no failure is recovered
from in them; so they stop before a semicolon or a brace, whatever goes wrong.
-/

namespace Lox

/-- The kinds of tokens that there are in expressions. -/
def expressionKinds : List TokenKind := [.rightParen, .comma] ++ expressionStart ++ expressionFollow

namespace Parser

variable {r : Relabel} {tail : List Stamped} {kinds : List TokenKind}

/-! ## Expressions -/

structure ExpressionsInStep (r : Relabel) (tail : List Stamped) (n k : Nat) : Prop where
  expression : InStep r tail expressionKinds (Expr.relabel r) (expressionIn n) (expressionIn k)
  level : ∀ level,
    InStep r tail expressionKinds (Expr.relabel r) (levelIn n level) (levelIn k level)
  operand : ∀ level,
    InStep r tail expressionKinds (Expr.relabel r) (operandIn n level) (operandIn k level)
  chain : ∀ level left, InStep r tail expressionKinds (Expr.relabel r) (chainIn n level left)
    (chainIn k level (left.relabel r))
  unary : InStep r tail expressionKinds (Expr.relabel r) (unaryIn n) (unaryIn k)
  suffixes : ∀ e,
    InStep r tail expressionKinds (Expr.relabel r) (suffixesIn n e) (suffixesIn k (e.relabel r))
  arguments : InStep r tail expressionKinds (Expr.relabelList r) (argumentsIn n) (argumentsIn k)
  argumentList : ∀ index, InStep r tail expressionKinds (Expr.relabelList r)
    (argumentListIn n index) (argumentListIn k index)
  primary : InStep r tail expressionKinds (Expr.relabel r) (primaryIn n) (primaryIn k)

section Expressions

variable {n k : Nat} (ih : ExpressionsInStep r tail n k)
include ih

theorem inStep_expressionIn : InStep r tail expressionKinds (Expr.relabel r) (expressionIn (n + 1))
    (expressionIn (k + 1)) := by
  refine .bind (ih.level .or) fun target => ?_
  refine .mark (by decide) (fun _ => .ret target) fun t rest => ?_
  refine .bind ih.expression fun value => ?_
  cases target with
  | var id name => exact .ret (Expr.assign id name value)
  | get object name => exact .ret (Expr.set object name value)
  | _ => exact .bind (.complainAt t rest nofun) fun _ => .ret _

theorem inStep_levelIn (level : Level) : InStep r tail expressionKinds (Expr.relabel r)
    (levelIn (n + 1) level) (levelIn (k + 1) level) :=
  .bind (ih.operand level) (ih.chain level)

theorem inStep_operandIn (level : Level) : InStep r tail expressionKinds (Expr.relabel r)
    (operandIn (n + 1) level) (operandIn (k + 1) level) := by
  simp only [Production.operandIn]
  cases level.tighter with
  | some tighter => exact ih.level tighter
  | none => exact ih.unary

theorem inStep_chainIn (level : Level) (left : Expr) :
    InStep r tail expressionKinds (Expr.relabel r) (chainIn (n + 1) level left)
      (chainIn (k + 1) level (left.relabel r)) := by
  refine .accept (by cases level <;> decide) (.ret left) fun operator => ?_
  refine .bind (ih.operand level) fun right => ?_
  have hchain := ih.chain level (level.combine left operator.token right)
  rwa [Level.relabel_combine] at hchain

theorem inStep_unaryIn : InStep r tail expressionKinds (Expr.relabel r) (unaryIn (n + 1))
    (unaryIn (k + 1)) := by
  refine .accept (by decide) (.bind ih.primary ih.suffixes) fun operator => ?_
  exact .bind ih.unary fun operand => .ret (Expr.unary operator.token operand)

theorem inStep_suffixesIn (e : Expr) : InStep r tail expressionKinds (Expr.relabel r)
    (suffixesIn (n + 1) e) (suffixesIn (k + 1) (e.relabel r)) := by
  refine .accept (by decide) (.accept (by decide) (.ret e) fun _ => ?_) fun _ => ?_
  · refine .bind (.expect _ (by decide)) fun name => ?_
    exact ih.suffixes (.get e name.token)
  · refine .bind ih.arguments fun args => ?_
    refine .bind (.expect _ (by decide)) fun paren => ?_
    exact ih.suffixes (.call e paren.token args)

theorem inStep_argumentsIn :
    InStep r tail expressionKinds (Expr.relabelList r) (argumentsIn (n + 1))
      (argumentsIn (k + 1)) := by
  refine .bind (.ahead _) fun stop => ?_
  cases stop with
  | true => exact .ret []
  | false => exact ih.argumentList 0

theorem inStep_argumentListIn (index : Nat) : InStep r tail expressionKinds (Expr.relabelList r)
    (argumentListIn (n + 1) index) (argumentListIn (k + 1) index) := by
  refine .bind (.complainIf _ nofun) fun _ => ?_
  refine .bind ih.expression fun arg => ?_
  refine .accept (by decide) (.ret [arg]) fun _ => ?_
  exact .bind (ih.argumentList (index + 1)) fun more => .ret (arg :: more)

theorem inStep_primaryIn : InStep r tail expressionKinds (Expr.relabel r) (primaryIn (n + 1))
    (primaryIn (k + 1)) := by
  refine .accept (by decide) (.fail _) fun t => ?_
  have hconstant (c : Constant) : InStep r tail expressionKinds (Expr.relabel r)
      (pure (.constant c)) (pure (.constant c)) := .ret (Expr.constant c)
  have hkind : (t.relabel r).token.kind = t.token.kind := rfl
  dsimp only
  rw [hkind]
  cases t.token.kind with
  | kwSuper =>
    refine .bind (.expect _ (by decide)) fun _ => ?_
    exact .bind (.expect _ (by decide)) fun method => .ret (Expr.superRef t.id t.token method.token)
  | kwThis => exact .ret (Expr.thisRef t.id t.token)
  | identifier => exact .ret (Expr.var t.id t.token)
  | leftParen =>
    refine .bind ih.expression fun inner => ?_
    exact .bind (.expect _ (by decide)) fun _ => .ret (Expr.grouping inner)
  | _ => exact hconstant _

end Expressions

theorem expressionsInStep {n k : Nat} (h : n ≤ k) : ExpressionsInStep r tail n k := by
  induction n generalizing k with
  | zero => exact ⟨.exhausted, fun _ => .exhausted, fun _ => .exhausted, fun _ _ => .exhausted,
      .exhausted, fun _ => .exhausted, .exhausted, fun _ => .exhausted, .exhausted⟩
  | succ n ih =>
    obtain ⟨k, rfl⟩ := Nat.exists_eq_add_of_le' (Nat.le_trans (Nat.le_add_left 1 n) h)
    have ih := ih (Nat.le_of_succ_le_succ h)
    exact {
      expression := inStep_expressionIn ih
      level := inStep_levelIn ih
      operand := inStep_operandIn ih
      chain := inStep_chainIn ih
      unary := inStep_unaryIn ih
      suffixes := inStep_suffixesIn ih
      arguments := inStep_argumentsIn ih
      argumentList := inStep_argumentListIn ih
      primary := inStep_primaryIn ih }

theorem inStep_expression : InStep r tail expressionKinds (Expr.relabel r) expression expression :=
  .sized fun _ _ h => (expressionsInStep (Nat.mul_le_mul_left 20 (Nat.succ_le_succ h))).expression

/-! ## Parts of statements -/

theorem inStep_parameterListIn (index : Nat) : ∀ {n k : Nat}, n ≤ k →
    InStep r tail expressionKinds (List.map (Token.relabel r)) (parameterListIn n index)
      (parameterListIn k index)
  | 0, _, _ => .exhausted
  | n + 1, k + 1, h => by
    refine .bind (.complainIf _ nofun) fun _ => ?_
    refine .bind (.expect _ (by decide)) fun param => ?_
    refine .accept (by decide) (.ret [param.token]) fun _ => ?_
    exact .bind (inStep_parameterListIn (index + 1) (Nat.le_of_succ_le_succ h)) fun more =>
      .ret (param.token :: more)

theorem inStep_parameters :
    InStep r tail expressionKinds (List.map (Token.relabel r)) parameters parameters := by
  let p (n : Nat) : Parser (List Token) := do
    if ← ahead .rightParen then pure []
    else parameterListIn (n + 1) 0
  refine .sized (p := p) (q := p) fun n m h => .bind (.ahead _) fun stop => ?_
  cases stop with
  | true => exact .ret []
  | false => exact inStep_parameterListIn 0 (Nat.succ_le_succ h)

theorem inStep_superclassClause :
    InStep r tail expressionKinds (Option.map (Expr.relabel r)) superclassClause
      superclassClause := by
  refine .accept (by decide) (.ret none) fun _ => ?_
  exact .bind (.expect _ (by decide)) fun name => .ret (some (Expr.var name.id name.token))

theorem inStep_optionalExpression (stop : TokenKind) :
    InStep r tail expressionKinds (Option.map (Expr.relabel r)) (optionalExpression stop)
      (optionalExpression stop) := by
  refine .bind (.ahead _) fun stopped => ?_
  cases stopped with
  | true => exact .ret none
  | false => exact .bind inStep_expression fun e => .ret (some e)

/-- Steps within expressions are steps within statements. -/
theorem InStep.within {α β : Type} {f : α → β} {p : Parser α} {q : Parser β}
    (h : InStep r tail expressionKinds f p q) : InStep r tail TokenKind.all f p q :=
  h.mono fun kind _ => kind.mem_all

theorem inStep_varDeclaration :
    InStep r tail TokenKind.all (Stmt.relabel r) varDeclaration varDeclaration := by
  refine .bind (.expect _ (by decide)) fun name => ?_
  refine .accept (by decide) ?_ fun _ => ?_
  · exact .bind (.expect _ (by decide)) fun _ => .ret (Stmt.var name.token none)
  · refine .bind inStep_expression.within fun init => ?_
    exact .bind (.expect _ (by decide)) fun _ => .ret (Stmt.var name.token (some init))

theorem inStep_expressionStatement :
    InStep r tail TokenKind.all (Stmt.relabel r) expressionStatement expressionStatement := by
  refine .bind inStep_expression.within fun e => ?_
  exact .bind (.expect _ (by decide)) fun _ => .ret (Stmt.expression e)

theorem inStep_returnStatement (keyword : Token) :
    InStep r tail TokenKind.all (Stmt.relabel r) (returnStatement keyword)
      (returnStatement (keyword.relabel r)) := by
  refine .bind (.ahead _) fun stopped => ?_
  cases stopped with
  | true => exact .bind (.expect _ (by decide)) fun _ => .ret (Stmt.ret keyword none)
  | false =>
    refine .bind inStep_expression.within fun value => ?_
    exact .bind (.expect _ (by decide)) fun _ => .ret (Stmt.ret keyword (some value))

theorem inStep_forInitializer :
    InStep r tail TokenKind.all (Option.map (Stmt.relabel r)) forInitializer forInitializer := by
  refine .accept (by decide) (.accept (by decide) ?_ fun _ => ?_) fun _ => .ret none
  · exact .bind inStep_expressionStatement fun s => .ret (some s)
  · exact .bind inStep_varDeclaration fun s => .ret (some s)

/-! ## Statements -/

structure StatementsInStep (r : Relabel) (tail : List Stamped) (n k : Nat) : Prop where
  declaration : InStep r tail TokenKind.all (Stmt.relabel r) (declarationIn n) (declarationIn k)
  bareDeclaration :
    InStep r tail TokenKind.all (Stmt.relabel r) (bareDeclarationIn n) (bareDeclarationIn k)
  cls : InStep r tail TokenKind.all (Stmt.relabel r) (classIn n) (classIn k)
  methods : InStep r tail TokenKind.all (FunctionDecl.relabelList r) (methodsIn n) (methodsIn k)
  function : ∀ kind,
    InStep r tail TokenKind.all (FunctionDecl.relabel r) (functionIn n kind) (functionIn k kind)
  block : InStep r tail TokenKind.all (Stmt.relabelList r) (blockIn n) (blockIn k)
  declarations :
    InStep r tail TokenKind.all (Stmt.relabelList r) (declarationsIn n) (declarationsIn k)
  statement : InStep r tail TokenKind.all (Stmt.relabel r) (statementIn n) (statementIn k)
  forLoop : InStep r tail TokenKind.all (Stmt.relabel r) (forIn n) (forIn k)
  branch : InStep r tail TokenKind.all (Stmt.relabel r) (ifIn n) (ifIn k)
  whileLoop : InStep r tail TokenKind.all (Stmt.relabel r) (whileIn n) (whileIn k)

section Statements

variable {n k : Nat} (ih : StatementsInStep r tail n k)
include ih

theorem inStep_declarationIn :
    InStep r tail TokenKind.all (Stmt.relabel r) (declarationIn (n + 1)) (declarationIn (k + 1)) :=
  .recover TokenKind.mem_all ih.bareDeclaration

theorem inStep_bareDeclarationIn :
    InStep r tail TokenKind.all (Stmt.relabel r) (bareDeclarationIn (n + 1))
      (bareDeclarationIn (k + 1)) := by
  refine .accept (by decide) ih.statement fun t => ?_
  have hkind : (t.relabel r).token.kind = t.token.kind := rfl
  dsimp only
  rw [hkind]
  cases t.token.kind with
  | kwClass => exact ih.cls
  | kwFun => exact .bind (ih.function .function) fun decl => .ret (Stmt.function decl)
  | _ => exact inStep_varDeclaration

theorem inStep_classIn :
    InStep r tail TokenKind.all (Stmt.relabel r) (classIn (n + 1)) (classIn (k + 1)) := by
  refine .bind (.expect _ (by decide)) fun name => ?_
  refine .bind inStep_superclassClause.within fun superclass => ?_
  refine .bind (.expect _ (by decide)) fun _ => ?_
  refine .bind ih.methods fun methods => ?_
  exact .bind (.expect _ (by decide)) fun _ => .ret (Stmt.cls name.token superclass methods)

theorem inStep_methodsIn :
    InStep r tail TokenKind.all (FunctionDecl.relabelList r) (methodsIn (n + 1))
      (methodsIn (k + 1)) := by
  refine .bind .atBodyEnd fun stop => ?_
  cases stop with
  | true => exact .ret []
  | false =>
    refine .bind (ih.function .method) fun method => ?_
    exact .bind ih.methods fun more => .ret (method :: more)

theorem inStep_functionIn (kind : FunctionKind) :
    InStep r tail TokenKind.all (FunctionDecl.relabel r) (functionIn (n + 1) kind)
      (functionIn (k + 1) kind) := by
  refine .bind (.expect _ (by decide)) fun name => ?_
  refine .bind (.expect _ (by decide)) fun _ => ?_
  refine .bind inStep_parameters.within fun params => ?_
  refine .bind (.expect _ (by decide)) fun _ => ?_
  refine .bind (.expect _ (by decide)) fun _ => ?_
  exact .bind ih.block fun body => .ret (FunctionDecl.mk name.token params body)

theorem inStep_blockIn :
    InStep r tail TokenKind.all (Stmt.relabelList r) (blockIn (n + 1)) (blockIn (k + 1)) := by
  refine .bind ih.declarations fun body => ?_
  exact .bind (.expect _ (by decide)) fun _ => .ret body

theorem inStep_declarationsIn :
    InStep r tail TokenKind.all (Stmt.relabelList r) (declarationsIn (n + 1))
      (declarationsIn (k + 1)) := by
  refine .bind .atBodyEnd fun stop => ?_
  cases stop with
  | true => exact .ret []
  | false =>
    refine .bind ih.declaration fun first => ?_
    exact .bind ih.declarations fun more => .ret (first :: more)

theorem inStep_statementIn :
    InStep r tail TokenKind.all (Stmt.relabel r) (statementIn (n + 1)) (statementIn (k + 1)) := by
  refine .accept (by decide) inStep_expressionStatement fun t => ?_
  have hkind : (t.relabel r).token.kind = t.token.kind := rfl
  dsimp only
  rw [hkind]
  cases t.token.kind with
  | kwFor => exact ih.forLoop
  | kwIf => exact ih.branch
  | kwWhile => exact ih.whileLoop
  | kwReturn => exact inStep_returnStatement t.token
  | _ => exact .bind ih.block fun body => .ret (Stmt.block body)

theorem inStep_forIn :
    InStep r tail TokenKind.all (Stmt.relabel r) (forIn (n + 1)) (forIn (k + 1)) := by
  refine .bind (.expect _ (by decide)) fun _ => ?_
  refine .bind inStep_forInitializer fun init => ?_
  refine .bind (inStep_optionalExpression _).within fun condition => ?_
  refine .bind (.expect _ (by decide)) fun _ => ?_
  refine .bind (inStep_optionalExpression _).within fun increment => ?_
  refine .bind (.expect _ (by decide)) fun _ => ?_
  refine .bind ih.statement fun body => ?_
  rw [← Stmt.relabel_ofFor]
  exact .ret (Stmt.ofFor init condition increment body)

theorem inStep_ifIn :
    InStep r tail TokenKind.all (Stmt.relabel r) (ifIn (n + 1)) (ifIn (k + 1)) := by
  refine .bind (.expect _ (by decide)) fun _ => ?_
  refine .bind inStep_expression.within fun condition => ?_
  refine .bind (.expect _ (by decide)) fun _ => ?_
  refine .bind ih.statement fun yes => ?_
  refine .accept (by decide) (.ret (Stmt.ifThen condition yes)) fun _ => ?_
  exact .bind ih.statement fun no => .ret (Stmt.ifElse condition yes no)

theorem inStep_whileIn :
    InStep r tail TokenKind.all (Stmt.relabel r) (whileIn (n + 1)) (whileIn (k + 1)) := by
  refine .bind (.expect _ (by decide)) fun _ => ?_
  refine .bind inStep_expression.within fun condition => ?_
  refine .bind (.expect _ (by decide)) fun _ => ?_
  exact .bind ih.statement fun body => .ret (Stmt.loop condition body)

end Statements

theorem statementsInStep {n k : Nat} (h : n ≤ k) : StatementsInStep r tail n k := by
  induction n generalizing k with
  | zero => exact ⟨.exhausted, .exhausted, .exhausted, .exhausted, fun _ => .exhausted, .exhausted,
      .exhausted, .exhausted, .exhausted, .exhausted, .exhausted⟩
  | succ n ih =>
    obtain ⟨k, rfl⟩ := Nat.exists_eq_add_of_le' (Nat.le_trans (Nat.le_add_left 1 n) h)
    have ih := ih (Nat.le_of_succ_le_succ h)
    exact {
      declaration := inStep_declarationIn ih
      bareDeclaration := inStep_bareDeclarationIn ih
      cls := inStep_classIn ih
      methods := inStep_methodsIn ih
      function := inStep_functionIn ih
      block := inStep_blockIn ih
      declarations := inStep_declarationsIn ih
      statement := inStep_statementIn ih
      forLoop := inStep_forIn ih
      branch := inStep_ifIn ih
      whileLoop := inStep_whileIn ih }

theorem inStep_declaration : InStep r tail TokenKind.all (Stmt.relabel r) declaration declaration :=
  .sized fun _ _ h => (statementsInStep (Nat.mul_le_mul_left 10 (Nat.succ_le_succ h))).declaration

theorem inStep_programIn : ∀ {n k : Nat}, n ≤ k →
    InStep r tail TokenKind.all (Stmt.relabelList r) (programIn n) (programIn k)
  | 0, _, _ => .exhausted
  | n + 1, k + 1, h => by
    refine .bind .atEnd fun stop => ?_
    cases stop with
    | true => exact .ret []
    | false =>
      refine .bind inStep_declaration fun first => ?_
      exact .bind (inStep_programIn (Nat.le_of_succ_le_succ h)) fun more => .ret (first :: more)

theorem inStep_program : InStep r tail TokenKind.all (Stmt.relabelList r) program program :=
  .sized (p := fun n => programIn (n + 1)) fun _ _ h => inStep_programIn (Nat.succ_le_succ h)

end Parser
end Lox
