import Lox.Program.Relabel
import Lox.Proofs.Parse.Phrase

/-!
# Lox.Proofs.Rename.Relabelled

Nothing that is found out about a program before it runs depends on where it is read. A relabelled
text stands for the relabelled tree (`Phrase.relabel`), and the walk over a relabelled tree makes the
relabelled findings (`Resolve.stmts_relabel`).
-/

namespace Lox

variable (r : Relabel)

/-! ## Reading -/

theorem Level.relabel_combine (level : Level) (left : Expr) (operator : Token) (right : Expr) :
    (level.combine left operator right).relabel r =
      level.combine (left.relabel r) (operator.relabel r) (right.relabel r) := by
  cases level <;> rfl

theorem Stmt.relabel_ofFor (init : Option Stmt) (condition increment : Option Expr) (body : Stmt) :
    (Stmt.ofFor init condition increment body).relabel r =
      .ofFor (init.map (Stmt.relabel r)) (condition.map (Expr.relabel r))
        (increment.map (Expr.relabel r)) (body.relabel r) := by
  cases init <;> cases condition <;> cases increment <;> rfl

def Shape.relabel : Shape → Shape
  | .expression e => .expression (e.relabel r)
  | .level l e => .level l (e.relabel r)
  | .operand l e => .operand l (e.relabel r)
  | .chain l left e => .chain l (left.relabel r) (e.relabel r)
  | .unary e => .unary (e.relabel r)
  | .call e => .call (e.relabel r)
  | .suffixes callee e => .suffixes (callee.relabel r) (e.relabel r)
  | .arguments args => .arguments (Expr.relabelList r args)
  | .argumentList index args => .argumentList index (Expr.relabelList r args)
  | .primary e => .primary (e.relabel r)
  | .optional e => .optional (e.map (Expr.relabel r))
  | .superclass e => .superclass (e.map (Expr.relabel r))
  | .parameters params => .parameters (params.map (Token.relabel r))
  | .parameterList index params => .parameterList index (params.map (Token.relabel r))
  | .function decl => .function (decl.relabel r)
  | .methods decls => .methods (FunctionDecl.relabelList r decls)
  | .varRest s => .varRest (s.relabel r)
  | .expressionStatement s => .expressionStatement (s.relabel r)
  | .initializer s => .initializer (s.map (Stmt.relabel r))
  | .statement isOpen s => .statement isOpen (s.relabel r)
  | .declaration s => .declaration (s.relabel r)
  | .declarations ss => .declarations (Stmt.relabelList r ss)

theorem Phrase.relabel {shape : Shape} {u : List Stamped} (h : Phrase shape u) :
    Phrase (shape.relabel r) (u.map (Stamped.relabel r)) := by
  induction h with
  | plain _ ih => exact .plain ih
  | assign hn he _ ih => exact @Phrase.assign (.relabel r _) _ _ _ hn he ih
  | set _ hd hn he _ iho ihv =>
    rw [List.map_append]
    exact @Phrase.set _ _ (.relabel r _) (.relabel r _) (.relabel r _) _ _ iho hd hn he ihv
  | level _ _ ihu ihv =>
    rw [List.map_append]
    exact .level ihu ihv
  | operandLevel ht _ ih => exact .operandLevel ht ih
  | operandUnary ht _ ih => exact .operandUnary ht ih
  | chainStop => exact .chainStop
  | chainStep ho _ _ ihu ihv =>
    rw [List.map_cons, List.map_append]
    simp only [Shape.relabel, Level.relabel_combine] at ihu ihv
    exact @Phrase.chainStep _ (.relabel r _) _ _ _ _ _ ho ihu ihv
  | unary ho _ ih => exact @Phrase.unary (.relabel r _) _ _ ho ih
  | unaryCall _ ih => exact .unaryCall ih
  | call _ _ ihu ihv =>
    rw [List.map_append]
    exact .call ihu ihv
  | suffixesStop => exact .suffixesStop
  | suffixesCall ho _ hp _ ihu ihv =>
    rw [List.map_cons, List.map_append]
    exact @Phrase.suffixesCall _ _ (.relabel r _) (.relabel r _) _ _ _ ho ihu hp ihv
  | suffixesGet hd hn _ ih =>
    exact @Phrase.suffixesGet _ _ (.relabel r _) (.relabel r _) _ hd hn ih
  | argumentsNone => exact .argumentsNone
  | argumentsSome _ ih => exact .argumentsSome ih
  | argumentLast hi _ ih => exact .argumentLast hi ih
  | argumentMore hi _ hc _ ihu ihv =>
    rw [List.map_append]
    exact @Phrase.argumentMore _ _ _ (.relabel r _) _ _ hi ihu hc ihv
  | constant hk => exact @Phrase.constant (.relabel r _) hk
  | superRef hk hd hm =>
    exact @Phrase.superRef (.relabel r _) (.relabel r _) (.relabel r _) hk hd hm
  | thisRef hk => exact @Phrase.thisRef (.relabel r _) hk
  | var hk => exact @Phrase.var (.relabel r _) hk
  | grouping ho _ hc ih =>
    rw [List.map_cons, List.map_append]
    exact @Phrase.grouping (.relabel r _) (.relabel r _) _ _ ho ih hc
  | optionalNone => exact .optionalNone
  | optionalSome _ ih => exact .optionalSome ih
  | superclassNone => exact .superclassNone
  | superclassSome hl hn => exact @Phrase.superclassSome (.relabel r _) (.relabel r _) hl hn
  | parametersNone => exact .parametersNone
  | parametersSome _ ih => exact .parametersSome ih
  | parameterLast hi hp => exact @Phrase.parameterLast _ (.relabel r _) hi hp
  | parameterMore hi hp hc _ ih =>
    exact @Phrase.parameterMore _ (.relabel r _) (.relabel r _) _ _ hi hp hc ih
  | function hn ho _ hc hl _ hr ihu ihv =>
    simp only [List.map_cons, List.map_append]
    exact @Phrase.function (.relabel r _) (.relabel r _) (.relabel r _) (.relabel r _)
      (.relabel r _) _ _ _ _ hn ho ihu hc hl ihv hr
  | methodsNone => exact .methodsNone
  | methodsMore _ _ ihu ihv =>
    rw [List.map_append]
    exact .methodsMore ihu ihv
  | varPlain hn hs => exact @Phrase.varPlain (.relabel r _) (.relabel r _) hn hs
  | varInit hn he _ hs ih =>
    simp only [List.map_cons, List.map_append]
    exact @Phrase.varInit (.relabel r _) (.relabel r _) (.relabel r _) _ _ hn he ih hs
  | expressionStatement _ hs ih =>
    rw [List.map_append]
    exact @Phrase.expressionStatement _ (.relabel r _) _ ih hs
  | initializerNone hs => exact @Phrase.initializerNone (.relabel r _) hs
  | initializerVar hk _ ih => exact @Phrase.initializerVar (.relabel r _) _ _ hk ih
  | initializerExpression _ ih => exact .initializerExpression ih
  | expressionForm _ ih => exact .expressionForm ih
  | forLoop hk ho _ _ hs _ hc _ ihu ihv ihw ihx =>
    simp only [List.map_cons, List.map_append, Shape.relabel, Stmt.relabel_ofFor]
    exact @Phrase.forLoop (.relabel r _) (.relabel r _) (.relabel r _) (.relabel r _)
      _ _ _ _ _ _ _ _ _ hk ho ihu ihv hs ihw hc ihx
  | ifThen hk ho _ hc _ ihu ihv =>
    simp only [List.map_cons, List.map_append]
    exact @Phrase.ifThen (.relabel r _) (.relabel r _) (.relabel r _) _ _ _ _ _ hk ho ihu hc ihv
  | ifElse hk ho _ hc _ hother _ ihu ihv ihw =>
    simp only [List.map_cons, List.map_append]
    exact @Phrase.ifElse (.relabel r _) (.relabel r _) (.relabel r _) (.relabel r _)
      _ _ _ _ _ _ _ hk ho ihu hc ihv hother ihw
  | whileLoop hk ho _ hc _ ihu ihv =>
    simp only [List.map_cons, List.map_append]
    exact @Phrase.whileLoop (.relabel r _) (.relabel r _) (.relabel r _) _ _ _ _ _ hk ho ihu hc ihv
  | ret hk _ hs ih =>
    rw [List.map_cons, List.map_append]
    exact @Phrase.ret (.relabel r _) (.relabel r _) _ _ hk ih hs
  | block hl _ hr ih =>
    rw [List.map_cons, List.map_append]
    exact @Phrase.block (.relabel r _) (.relabel r _) _ _ hl ih hr
  | classDeclaration hk hn _ hl _ hr ihu ihv =>
    simp only [List.map_cons, List.map_append]
    exact @Phrase.classDeclaration (.relabel r _) (.relabel r _) (.relabel r _) (.relabel r _)
      _ _ _ _ hk hn ihu hl ihv hr
  | functionDeclaration hk _ ih => exact @Phrase.functionDeclaration (.relabel r _) _ _ hk ih
  | varDeclaration hk _ ih => exact @Phrase.varDeclaration (.relabel r _) _ _ hk ih
  | statement _ ih => exact .statement ih
  | declarationsNone => exact .declarationsNone
  | declarationsMore _ _ ihu ihv =>
    rw [List.map_append]
    exact .declarationsMore ihu ihv

/-! ## The walk -/

theorem FunctionDecl.name_relabel (d : FunctionDecl) : (d.relabel r).name = d.name.relabel r := by
  cases d
  rfl

namespace Resolve

theorem methodContext_relabel (d : FunctionDecl) :
    methodContext (d.relabel r) = methodContext d := by
  simp only [methodContext, FunctionDecl.isInitializer, FunctionDecl.name_relabel]
  rfl

theorem violationIf_relabel (wrong : Bool) (token : Token) (problem : ResolveProblem) :
    violationIf wrong (token.relabel r) problem =
      (violationIf wrong token problem).map (Finding.relabel r) := by
  cases wrong <;> rfl

theorem bind_relabel (scopes : List Scope) (id : RefId) (name : String) :
    bind scopes (r.id id) name = (bind scopes id name).map (Finding.relabel r) := by
  unfold bind
  cases Scope.distance? name scopes <;> rfl

theorem declareWhole_relabel (scopes : List Scope) (name : Token) :
    declareWhole scopes (name.relabel r) =
      ((declareWhole scopes name).1, (declareWhole scopes name).2.map (Finding.relabel r)) :=
  Prod.ext rfl (violationIf_relabel r _ name _)

theorem declareAll_relabel (scopes : List Scope) (names : List Token) :
    declareAll scopes (names.map (Token.relabel r)) =
      ((declareAll scopes names).1, (declareAll scopes names).2.map (Finding.relabel r)) := by
  induction names generalizing scopes with
  | nil => rfl
  | cons p ps ih => simp only [List.map_cons, declareAll, declareWhole_relabel, ih, List.map_append]

mutual

theorem expr_relabel (ctx : ResolveContext) (scopes : List Scope) :
    ∀ e : Expr, expr ctx scopes (e.relabel r) = (expr ctx scopes e).map (Finding.relabel r)
  | .constant _ | .unparsed => rfl
  | .grouping e | .unary _ e | .get e _ => expr_relabel ctx scopes e
  | .binary left _ right | .logical left _ right => by
    simp only [Expr.relabel, expr, List.map_append, expr_relabel ctx scopes left,
      expr_relabel ctx scopes right]
  | .var id name => by
    simp only [Expr.relabel, expr, List.map_append, ← violationIf_relabel, ← bind_relabel]
    rfl
  | .assign id name value => by
    simp only [Expr.relabel, expr, List.map_append, expr_relabel ctx scopes value, ← bind_relabel]
    rfl
  | .call callee _ args => by
    simp only [Expr.relabel, expr, List.map_append, expr_relabel ctx scopes callee,
      exprs_relabel ctx scopes args]
  | .set object _ value => by
    simp only [Expr.relabel, expr, List.map_append, expr_relabel ctx scopes object,
      expr_relabel ctx scopes value]
  | .thisRef id keyword => by
    simp only [Expr.relabel, expr]
    split
    · rfl
    · exact bind_relabel r scopes id _
  | .superRef id keyword _ => by
    simp only [Expr.relabel, expr, List.map_append, ← violationIf_relabel, ← bind_relabel]
    rfl

theorem exprs_relabel (ctx : ResolveContext) (scopes : List Scope) :
    ∀ es : List Expr,
      exprs ctx scopes (Expr.relabelList r es) = (exprs ctx scopes es).map (Finding.relabel r)
  | [] => rfl
  | e :: es => by
    simp only [Expr.relabelList, exprs, List.map_append, expr_relabel ctx scopes e,
      exprs_relabel ctx scopes es]

end

theorem optionalExpr_relabel (ctx : ResolveContext) (scopes : List Scope) (e : Option Expr) :
    optionalExpr ctx scopes (e.map (Expr.relabel r)) =
      (optionalExpr ctx scopes e).map (Finding.relabel r) := by
  cases e with
  | none => rfl
  | some e => exact expr_relabel r ctx scopes e

theorem selfInheritance_relabel (name : Token) (superclass : Expr) :
    selfInheritance (name.relabel r) (superclass.relabel r) =
      (selfInheritance name superclass).map (Finding.relabel r) := by
  cases superclass with
  | var id superName => exact violationIf_relabel r _ superName _
  | _ => rfl

theorem returnRules_relabel (ctx : ResolveContext) (keyword : Token) (hasValue : Bool) :
    returnRules ctx (keyword.relabel r) hasValue =
      (returnRules ctx keyword hasValue).map (Finding.relabel r) := by
  simp only [returnRules, violationIf_relabel, List.map_append]

mutual

/-- Relabelling a statement changes no scope. -/
theorem stmt_relabel : ∀ (ctx : ResolveContext) (scopes : List Scope) (s : Stmt),
    stmt ctx scopes (s.relabel r) =
      ((stmt ctx scopes s).1, (stmt ctx scopes s).2.map (Finding.relabel r))
  | ctx, scopes, .expression e => by simp only [Stmt.relabel, stmt, expr_relabel]
  | ctx, scopes, .var name init => by
    simp only [Stmt.relabel, stmt, optionalExpr_relabel, declare, List.map_append,
      violationIf_relabel]
    rfl
  | ctx, scopes, .block body => by
    simp only [Stmt.relabel, stmt, stmts_relabel ctx _ body]
  | ctx, scopes, .ifThen condition yes => by
    simp only [Stmt.relabel, stmt, expr_relabel, stmt_relabel ctx _ yes, List.map_append]
  | ctx, scopes, .ifElse condition yes no => by
    simp only [Stmt.relabel, stmt, expr_relabel, stmt_relabel ctx _ yes, stmt_relabel ctx _ no,
      List.map_append]
  | ctx, scopes, .loop condition body => by
    simp only [Stmt.relabel, stmt, expr_relabel, stmt_relabel ctx _ body, List.map_append]
  | ctx, scopes, .function decl => by
    simp only [Stmt.relabel, stmt, FunctionDecl.name_relabel, declareWhole_relabel,
      functionBody_relabel _ _ decl, List.map_append]
  | ctx, scopes, .ret keyword value => by
    simp only [Stmt.relabel, stmt, returnRules_relabel, optionalExpr_relabel, List.map_append,
      Option.isSome_map]
  | ctx, scopes, .cls name none ms => by
    simp only [Stmt.relabel, stmt, Option.map_none, declareWhole_relabel, methods_relabel _ _ ms,
      List.map_append]
  | ctx, scopes, .cls name (some superclass) ms => by
    simp only [Stmt.relabel, stmt, Option.map_some, declareWhole_relabel, selfInheritance_relabel,
      expr_relabel, methods_relabel _ _ ms, List.map_append]

theorem stmts_relabel : ∀ (ctx : ResolveContext) (scopes : List Scope) (ss : List Stmt),
    stmts ctx scopes (Stmt.relabelList r ss) =
      ((stmts ctx scopes ss).1, (stmts ctx scopes ss).2.map (Finding.relabel r))
  | _, _, [] => rfl
  | ctx, scopes, s :: ss => by
    simp only [Stmt.relabelList, stmts, stmt_relabel ctx scopes s, stmts_relabel ctx _ ss,
      List.map_append]

theorem functionBody_relabel : ∀ (ctx : ResolveContext) (scopes : List Scope) (d : FunctionDecl),
    functionBody ctx scopes (d.relabel r) = (functionBody ctx scopes d).map (Finding.relabel r)
  | ctx, scopes, ⟨_, params, body⟩ => by
    simp only [FunctionDecl.relabel, functionBody, declareAll_relabel, stmts_relabel ctx _ body,
      List.map_append]

theorem methods_relabel : ∀ (ctx : ResolveContext) (scopes : List Scope) (ds : List FunctionDecl),
    methods ctx scopes (FunctionDecl.relabelList r ds) =
      (methods ctx scopes ds).map (Finding.relabel r)
  | _, _, [] => rfl
  | ctx, scopes, d :: ds => by
    simp only [FunctionDecl.relabelList, methods, methodContext_relabel,
      functionBody_relabel _ scopes d, methods_relabel ctx scopes ds, List.map_append]

end

theorem findings_relabel (program : List Stmt) :
    findings (Stmt.relabelList r program) = (findings program).map (Finding.relabel r) := by
  simp only [findings, stmts_relabel]

/-- Relabelling makes nothing wrong. -/
theorem errors_relabel {program : List Stmt} (h : errors program = []) :
    errors (Stmt.relabelList r program) = [] := by
  simp only [errors, findings_relabel, List.filterMap_map, List.filterMap_eq_nil_iff] at h ⊢
  intro f hf
  have := h f hf
  cases f with
  | bound => rfl
  | violation => cases this

end Resolve

end Lox
