import Lox.Program.Count
import Lox.Proofs.Rename.Relabelled
import Lox.Proofs.Parse.Complete

/-!
# Lox.Proofs.Parse.Counted

Parsing by a counter next to parsing by stamps. Production by production they take the same tokens,
complain of the same and build the same trees but for the numbers of references
(`Counting.Follows`); so a program has one parse in both (`Parse.exists_eq_counted`).
-/

namespace Lox

/-- New numbers for old ones. -/
def Relabel.renumber (f : RefId → RefId) : Relabel := { id := f, line := fun l => l }

/-- All numbers made the same. -/
abbrev Relabel.unnumbered : Relabel := .renumber fun _ => 0

theorem Token.map_relabel_renumber (f : RefId → RefId) (ts : List Token) :
    ts.map (Token.relabel (.renumber f)) = ts :=
  List.map_id ts

/-- Two parses came to the same, but for what `g` forgets of their values. -/
inductive Parsed.Alike {α γ : Type} (g : α → γ) : Parsed α → Parsed α → Prop
  | ok {a a' : α} {rest : List Stamped} {complaints : List Complaint} : g a = g a' →
      Alike g (.ok a rest complaints) (.ok a' rest complaints)
  | fail (what : Expected) (rest : List Stamped) (complaints : List Complaint) :
      Alike g (.fail what rest complaints) (.fail what rest complaints)
  | outOfFuel : Alike g .outOfFuel .outOfFuel

namespace Parsed.Alike

variable {α γ : Type} {g : α → γ}

theorem refl (r : Parsed α) : r.Alike g r := by
  cases r with
  | ok => exact .ok rfl
  | fail => exact .fail _ _ _
  | outOfFuel => exact .outOfFuel

theorem after {r r' : Parsed α} (h : r.Alike g r') (earlier : List Complaint) :
    (Parser.after earlier r).Alike g (Parser.after earlier r') := by
  cases h with
  | ok h => exact .ok h
  | fail => exact .fail _ _ _
  | outOfFuel => exact .outOfFuel

end Parsed.Alike

namespace Counting

/-- Wherever the counter stands, `q` comes to the same as `p`, but for what `g` forgets. -/
def Follows {α γ : Type} (g : α → γ) (p : Parser α) (q : Counting α) : Prop :=
  ∀ next input, (p input).Alike g (q next input).1

namespace Follows

variable {α β γ δ : Type} {g : α → γ} {g' : β → δ}

theorem tokens (p : Parser α) : Follows g (liftM p) (liftM p) := fun _ _ => .refl _

theorem ret {a a' : α} (h : g a = g a') : Follows g (pure a) (pure a') := fun _ _ => .ok h

theorem bind {p : Parser α} {q : Counting α} {f : α → Parser β} {f' : α → Counting β}
    (hp : Follows g p q) (hf : ∀ a a', g a = g a' → Follows g' (f a) (f' a')) :
    Follows g' (p >>= f) (q >>= f') := by
  intro next input
  show Parsed.Alike g' (Parser.bind p f input) (Counting.bind q f' next input).1
  have hrun := hp next input
  rw [Parser.bind, Counting.bind]
  cases hq : q next input with
  | mk r next' =>
  rw [hq] at hrun
  generalize p input = run at hrun
  cases hrun with
  | ok h => exact (hf _ _ h next' _).after _
  | fail => exact .fail _ _ _
  | outOfFuel => exact .outOfFuel

/-- Both take the same tokens first. -/
theorem step {p : Parser α} {f : α → Parser β} {f' : α → Counting β}
    (hf : ∀ a, Follows g' (f a) (f' a)) : Follows g' (liftM p >>= f) (liftM p >>= f') :=
  bind (g := id) (tokens p) fun a _ h => (id h : a = _) ▸ hf a

theorem reference {stamp stamp' : RefId} {make make' : RefId → α}
    (h : ∀ id id', g (make id) = g (make' id')) :
    Follows g (Parsing.reference stamp make) (Parsing.reference stamp' make') :=
  fun _ _ => .ok (h _ _)

theorem sized {f : Nat → Parser α} {f' : Nat → Counting α}
    (h : ∀ size, Follows g (f size) (f' size)) :
    Follows g (Parsing.sized f) (Parsing.sized f') :=
  fun next input => h input.length next input

theorem recover {g : Stmt → γ} {p : Parser Stmt} {q : Counting Stmt} (h : Follows g p q) :
    Follows g (Parsing.recover p) (Parsing.recover q) := by
  intro next input
  show Parsed.Alike g (Parser.recover p input) (Parser.recover (fun input => (q next input).1) input)
  have hrun := h next input
  simp only [Parser.recover]
  generalize p input = run, (q next input).1 = run' at hrun
  cases hrun with
  | ok h => exact .ok h
  | fail => exact .ok rfl
  | outOfFuel => exact .outOfFuel

end Follows

open Production

/-! ## Expressions -/

/-- The expression with all numbers made the same. -/
abbrev bare : Expr → Expr := Expr.relabel .unnumbered

structure ExpressionsFollow (n : Nat) : Prop where
  expression : Follows bare (expressionIn n) (expressionIn n)
  level : ∀ level, Follows bare (levelIn n level) (levelIn n level)
  operand : ∀ level, Follows bare (operandIn n level) (operandIn n level)
  chain : ∀ level left left', bare left = bare left' →
    Follows bare (chainIn n level left) (chainIn n level left')
  unary : Follows bare (unaryIn n) (unaryIn n)
  suffixes : ∀ e e', bare e = bare e' → Follows bare (suffixesIn n e) (suffixesIn n e')
  arguments : Follows (Expr.relabelList .unnumbered) (argumentsIn n) (argumentsIn n)
  argumentList : ∀ index,
    Follows (Expr.relabelList .unnumbered) (argumentListIn n index) (argumentListIn n index)
  primary : Follows bare (primaryIn n) (primaryIn n)

section Expressions

variable {n : Nat} (ih : ExpressionsFollow n)
include ih

theorem follows_expressionIn : Follows bare (expressionIn (n + 1)) (expressionIn (n + 1)) := by
  refine .bind (ih.level .or) fun target target' htarget => .step fun here => .step fun equal => ?_
  cases equal with
  | none => exact .ret htarget
  | some _ =>
    refine .bind ih.expression fun value value' hvalue => ?_
    cases target with
    | var id name =>
      cases target' with
      | var id' name' =>
        obtain rfl : name = name' := (Expr.var.inj htarget).2
        exact .reference fun _ _ => congrArg (Expr.assign 0 name) hvalue
      | _ => cases htarget
    | get object name =>
      cases target' with
      | get object' name' =>
        obtain ⟨hobject, rfl : name = name'⟩ := Expr.get.inj htarget
        exact .ret (congrArg₂ (Expr.set · name ·) hobject hvalue)
      | _ => cases htarget
    | _ =>
      cases target' with
      | var | get => cases htarget
      | _ => exact .step fun _ => .ret htarget

theorem follows_levelIn (level : Level) :
    Follows bare (levelIn (n + 1) level) (levelIn (n + 1) level) :=
  .bind (ih.operand level) (ih.chain level)

theorem follows_operandIn (level : Level) :
    Follows bare (operandIn (n + 1) level) (operandIn (n + 1) level) := by
  simp only [operandIn]
  cases level.tighter with
  | some tighter => exact ih.level tighter
  | none => exact ih.unary

theorem follows_chainIn (level : Level) (left left' : Expr) (hleft : bare left = bare left') :
    Follows bare (chainIn (n + 1) level left) (chainIn (n + 1) level left') := by
  refine .step fun operator => ?_
  cases operator with
  | none => exact .ret hleft
  | some operator =>
    refine .bind (ih.operand level) fun right right' hright => ih.chain level _ _ ?_
    simp only [bare, Level.relabel_combine] at hleft hright ⊢
    rw [hleft, hright]

theorem follows_unaryIn : Follows bare (unaryIn (n + 1)) (unaryIn (n + 1)) := by
  refine .step fun operator => ?_
  cases operator with
  | none => exact .bind ih.primary ih.suffixes
  | some operator =>
    exact .bind ih.unary fun _ _ h => .ret (congrArg (Expr.unary operator.token) h)

theorem follows_suffixesIn (e e' : Expr) (he : bare e = bare e') :
    Follows bare (suffixesIn (n + 1) e) (suffixesIn (n + 1) e') := by
  refine .step fun opening => ?_
  cases opening with
  | some _ =>
    refine .bind ih.arguments fun args args' hargs => .step fun paren => ih.suffixes _ _ ?_
    exact congrArg₂ (Expr.call · paren.token ·) he hargs
  | none =>
    refine .step fun dot => ?_
    cases dot with
    | some _ => exact .step fun name => ih.suffixes _ _ (congrArg (Expr.get · name.token) he)
    | none => exact .ret he

theorem follows_argumentsIn :
    Follows (Expr.relabelList .unnumbered) (argumentsIn (n + 1)) (argumentsIn (n + 1)) := by
  refine .step fun stop => ?_
  cases stop with
  | true => exact .ret rfl
  | false => exact ih.argumentList 0

theorem follows_argumentListIn (index : Nat) : Follows (Expr.relabelList .unnumbered)
    (argumentListIn (n + 1) index) (argumentListIn (n + 1) index) := by
  refine .step fun _ => .bind ih.expression fun arg arg' harg => .step fun comma => ?_
  cases comma with
  | none => exact .ret (congrArg (· :: []) harg)
  | some _ =>
    exact .bind (ih.argumentList (index + 1)) fun more more' hmore =>
      .ret (congrArg₂ List.cons harg hmore)

theorem follows_primaryIn : Follows bare (primaryIn (n + 1)) (primaryIn (n + 1)) := by
  refine .step fun first => ?_
  cases first with
  | none => exact .tokens _
  | some t =>
    dsimp only
    cases t.token.kind with
    | kwSuper => exact .step fun _ => .step fun method => .reference fun _ _ => rfl
    | kwThis => exact .reference fun _ _ => rfl
    | identifier => exact .reference fun _ _ => rfl
    | leftParen =>
      exact .bind ih.expression fun _ _ h => .step fun _ => .ret (congrArg Expr.grouping h)
    | _ => exact .ret rfl

end Expressions

theorem expressionsFollow (n : Nat) : ExpressionsFollow n := by
  induction n with
  | zero => exact ⟨.tokens _, fun _ => .tokens _, fun _ => .tokens _, fun _ _ _ _ => .tokens _,
      .tokens _, fun _ _ _ => .tokens _, .tokens _, fun _ => .tokens _, .tokens _⟩
  | succ n ih =>
    exact {
      expression := follows_expressionIn ih
      level := follows_levelIn ih
      operand := follows_operandIn ih
      chain := follows_chainIn ih
      unary := follows_unaryIn ih
      suffixes := follows_suffixesIn ih
      arguments := follows_argumentsIn ih
      argumentList := follows_argumentListIn ih
      primary := follows_primaryIn ih }

theorem follows_expression : Follows bare expression expression :=
  .sized fun _ => (expressionsFollow _).expression

/-! ## Parts of statements -/

/-- The statement with all numbers made the same. -/
abbrev bareStmt : Stmt → Stmt := Stmt.relabel .unnumbered

theorem follows_varDeclaration : Follows bareStmt varDeclaration varDeclaration := by
  refine .step fun name => .step fun equal => ?_
  cases equal with
  | some _ =>
    refine .bind follows_expression fun _ _ h => .step fun _ => .ret ?_
    exact congrArg (fun init => Stmt.var name.token (some init)) h
  | none => exact .step fun _ => .ret rfl

theorem follows_expressionStatement : Follows bareStmt expressionStatement expressionStatement :=
  .bind follows_expression fun _ _ h => .step fun _ => .ret (congrArg Stmt.expression h)

theorem follows_returnStatement (keyword : Token) :
    Follows bareStmt (returnStatement keyword) (returnStatement keyword) := by
  refine .step fun stopped => ?_
  cases stopped with
  | true => exact .step fun _ => .ret rfl
  | false =>
    refine .bind follows_expression fun _ _ h => .step fun _ => .ret ?_
    exact congrArg (fun value => Stmt.ret keyword (some value)) h

theorem follows_optionalExpression (stop : TokenKind) :
    Follows (Option.map bare) (optionalExpression stop) (optionalExpression stop) := by
  refine .step fun stopped => ?_
  cases stopped with
  | true => exact .ret rfl
  | false => exact .bind follows_expression fun _ _ h => .ret (congrArg some h)

theorem follows_forInitializer : Follows (Option.map bareStmt) forInitializer forInitializer := by
  refine .step fun semicolon => ?_
  cases semicolon with
  | some _ => exact .ret rfl
  | none =>
    refine .step fun keyword => ?_
    cases keyword with
    | some _ => exact .bind follows_varDeclaration fun _ _ h => .ret (congrArg some h)
    | none => exact .bind follows_expressionStatement fun _ _ h => .ret (congrArg some h)

theorem follows_superclassClause :
    Follows (Option.map bare) superclassClause superclassClause := by
  refine .step fun less => ?_
  cases less with
  | none => exact .ret rfl
  | some _ => exact .step fun name => .reference fun _ _ => rfl

/-! ## Statements -/

structure StatementsFollow (n : Nat) : Prop where
  declaration : Follows bareStmt (declarationIn n) (declarationIn n)
  bareDeclaration : Follows bareStmt (bareDeclarationIn n) (bareDeclarationIn n)
  cls : Follows bareStmt (classIn n) (classIn n)
  methods : Follows (FunctionDecl.relabelList .unnumbered) (methodsIn n) (methodsIn n)
  function : ∀ kind,
    Follows (FunctionDecl.relabel .unnumbered) (functionIn n kind) (functionIn n kind)
  block : Follows (Stmt.relabelList .unnumbered) (blockIn n) (blockIn n)
  declarations : Follows (Stmt.relabelList .unnumbered) (declarationsIn n) (declarationsIn n)
  statement : Follows bareStmt (statementIn n) (statementIn n)
  forLoop : Follows bareStmt (forIn n) (forIn n)
  branch : Follows bareStmt (ifIn n) (ifIn n)
  whileLoop : Follows bareStmt (whileIn n) (whileIn n)

section Statements

variable {n : Nat} (ih : StatementsFollow n)
include ih

theorem follows_bareDeclarationIn :
    Follows bareStmt (bareDeclarationIn (n + 1)) (bareDeclarationIn (n + 1)) := by
  refine .step fun keyword => ?_
  cases keyword with
  | none => exact ih.statement
  | some t =>
    dsimp only
    cases t.token.kind with
    | kwClass => exact ih.cls
    | kwFun =>
      exact .bind (ih.function .function) fun _ _ h => .ret (congrArg Stmt.function h)
    | _ => exact follows_varDeclaration

theorem follows_classIn : Follows bareStmt (classIn (n + 1)) (classIn (n + 1)) := by
  refine .step fun name => .bind follows_superclassClause fun _ _ hsuperclass => .step fun _ => ?_
  refine .bind ih.methods fun _ _ hmethods => .step fun _ => .ret ?_
  exact congrArg₂ (Stmt.cls name.token · ·) hsuperclass hmethods

theorem follows_methodsIn :
    Follows (FunctionDecl.relabelList .unnumbered) (methodsIn (n + 1)) (methodsIn (n + 1)) := by
  refine .step fun stop => ?_
  cases stop with
  | true => exact .ret rfl
  | false =>
    refine .bind (ih.function .method) fun _ _ hmethod => .bind ih.methods fun _ _ hmore => .ret ?_
    exact congrArg₂ List.cons hmethod hmore

theorem follows_functionIn (kind : FunctionKind) : Follows (FunctionDecl.relabel .unnumbered)
    (functionIn (n + 1) kind) (functionIn (n + 1) kind) := by
  refine .step fun name => .step fun _ => .step fun params => .step fun _ => .step fun _ => ?_
  exact .bind ih.block fun _ _ h => .ret (congrArg (FunctionDecl.mk name.token _) h)

theorem follows_blockIn :
    Follows (Stmt.relabelList .unnumbered) (blockIn (n + 1)) (blockIn (n + 1)) :=
  .bind ih.declarations fun _ _ h => .step fun _ => .ret h

theorem follows_declarationsIn :
    Follows (Stmt.relabelList .unnumbered) (declarationsIn (n + 1)) (declarationsIn (n + 1)) := by
  refine .step fun stop => ?_
  cases stop with
  | true => exact .ret rfl
  | false =>
    refine .bind ih.declaration fun _ _ hfirst => .bind ih.declarations fun _ _ hmore => .ret ?_
    exact congrArg₂ List.cons hfirst hmore

theorem follows_statementIn : Follows bareStmt (statementIn (n + 1)) (statementIn (n + 1)) := by
  refine .step fun keyword => ?_
  cases keyword with
  | none => exact follows_expressionStatement
  | some t =>
    dsimp only
    cases t.token.kind with
    | kwFor => exact ih.forLoop
    | kwIf => exact ih.branch
    | kwWhile => exact ih.whileLoop
    | kwReturn => exact follows_returnStatement t.token
    | _ => exact .bind ih.block fun _ _ h => .ret (congrArg Stmt.block h)

theorem follows_forIn : Follows bareStmt (forIn (n + 1)) (forIn (n + 1)) := by
  refine .step fun _ => .bind follows_forInitializer fun _ _ hinit => ?_
  refine .bind (follows_optionalExpression _) fun _ _ hcondition => .step fun _ => ?_
  refine .bind (follows_optionalExpression _) fun _ _ hincrement => .step fun _ => ?_
  refine .bind ih.statement fun _ _ hbody => .ret ?_
  simp only [bareStmt, Stmt.relabel_ofFor] at hinit hcondition hincrement hbody ⊢
  rw [hinit, hcondition, hincrement, hbody]

theorem follows_ifIn : Follows bareStmt (ifIn (n + 1)) (ifIn (n + 1)) := by
  refine .step fun _ => .bind follows_expression fun _ _ hcondition => .step fun _ => ?_
  refine .bind ih.statement fun _ _ hyes => .step fun other => ?_
  cases other with
  | none => exact .ret (congrArg₂ Stmt.ifThen hcondition hyes)
  | some _ =>
    refine .bind ih.statement fun _ _ hno => ?_
    have hbranches := congr (congrArg₂ Stmt.ifElse hcondition hyes) hno
    exact .ret hbranches

theorem follows_whileIn : Follows bareStmt (whileIn (n + 1)) (whileIn (n + 1)) := by
  refine .step fun _ => .bind follows_expression fun _ _ hcondition => .step fun _ => ?_
  exact .bind ih.statement fun _ _ hbody => .ret (congrArg₂ Stmt.loop hcondition hbody)

end Statements

theorem statementsFollow (n : Nat) : StatementsFollow n := by
  induction n with
  | zero => exact ⟨.tokens _, .tokens _, .tokens _, .tokens _, fun _ => .tokens _, .tokens _,
      .tokens _, .tokens _, .tokens _, .tokens _, .tokens _⟩
  | succ n ih =>
    exact {
      declaration := .recover ih.bareDeclaration
      bareDeclaration := follows_bareDeclarationIn ih
      cls := follows_classIn ih
      methods := follows_methodsIn ih
      function := follows_functionIn ih
      block := follows_blockIn ih
      declarations := follows_declarationsIn ih
      statement := follows_statementIn ih
      forLoop := follows_forIn ih
      branch := follows_ifIn ih
      whileLoop := follows_whileIn ih }

theorem follows_declaration : Follows bareStmt declaration declaration :=
  .sized fun _ => (statementsFollow _).declaration

/-! ## Programs -/

theorem follows_programIn (n : Nat) :
    Follows (Stmt.relabelList .unnumbered) (programIn n) (programIn n) := by
  induction n with
  | zero => exact .tokens _
  | succ n ih =>
    refine .step fun stop => ?_
    cases stop with
    | true => exact .ret rfl
    | false =>
      refine .bind follows_declaration fun _ _ hfirst => .bind ih fun _ _ hmore => .ret ?_
      exact congrArg₂ List.cons hfirst hmore

theorem follows_program : Follows (Stmt.relabelList .unnumbered) program program :=
  .sized fun _ => follows_programIn _

/-- A program is parsed alike with a counter. -/
theorem program_eq_ok (first : RefId) (input : List Stamped) :
    ∃ ss ss' complaints next, Parser.program input = .ok ss [] complaints ∧
      (program : Counting (List Stmt)) first input = (.ok ss' [] complaints, next) ∧
      Stmt.relabelList .unnumbered ss = Stmt.relabelList .unnumbered ss' := by
  obtain ⟨ss, complaints, hrun⟩ := Parser.program_eq_ok input
  have halike : (Parser.program input).Alike _ _ := follows_program first input
  rw [hrun] at halike
  cases hcounted : (program : Counting (List Stmt)) first input with
  | mk r next =>
  rw [hcounted] at halike
  cases halike with
  | ok h => exact ⟨ss, _, complaints, next, hrun, rfl, h⟩

end Counting

namespace Parse

/-- A parse by a counter is the parse by stamps but for the numbers. -/
theorem exists_eq_counted (first : RefId) (tokens : List Token) :
    ∃ ss ss' complaints next,
      ofTokens first tokens = ⟨ss, complaints, Token.endOf tokens⟩ ∧
      counted first tokens = (⟨ss', complaints, Token.endOf tokens⟩, next) ∧
      Stmt.relabelList .unnumbered ss = Stmt.relabelList .unnumbered ss' := by
  obtain ⟨ss, ss', complaints, next, hrun, hcounted, h⟩ :=
    Counting.program_eq_ok first (Stamped.ofTokens first (Token.body tokens))
  refine ⟨ss, ss', complaints, next, ?_, ?_, h⟩
  · simp only [ofTokens, hrun]
  · simp only [counted, hcounted]

end Parse
end Lox
