import Lox.Proofs.Parse.Counted
import Lox.Proofs.Parse.Productions
import Lox.Proofs.Scope.Checked

/-!
# Lox.Proofs.Parse.Drawn

No number is given to two references, whatever the parse comes upon: failures and skipped tokens
only lose numbers. An account of one number (`Ledger`) says how often it is still to come, be it from
tokens or from a counter, and no production draws it more often (`Ledger.draws_program`). So the
references of a program are numbered apart, by stamps (`Parse.nodup_refs`) and by a counter
(`Parse.nodup_counted`).
-/

namespace Lox

/-- Tokens were taken off the input, and the value weighs nothing. -/
def Parsed.Weightless {α : Type} (weight : α → Nat) (input : List Stamped) : Parsed α → Prop
  | .ok a rest _ => weight a = 0 ∧ rest <:+ input
  | .fail _ rest _ => rest <:+ input
  | .outOfFuel => True

theorem Parsed.Weightless.weight_eq_zero {α : Type} {weight : α → Nat} {input rest : List Stamped}
    {r : Parsed α} {a : α} {complaints : List Complaint} (h : r.Weightless weight input)
    (hrun : r = .ok a rest complaints) : weight a = 0 := by
  subst hrun
  exact h.1

/-- An account of the number `i`. To make a reference at a token is to draw it `own` times, by the
stamp of the token. `Draws k weight p` says that `p`, which starts with what has drawn the number `k`
times, has a value that has drawn it `weight` times: as often as it is more than `k`, it is less often
still to come. -/
structure Ledger (m : Type → Type) [Parsing m] (i : RefId) where
  own : RefId → Nat
  own_le : ∀ stamp, own stamp ≤ if stamp = i then 1 else 0
  Draws {α : Type} : Nat → (α → Nat) → m α → Prop
  mono {α : Type} {k k' : Nat} {weight : α → Nat} {p : m α} :
    Draws k weight p → k ≤ k' → Draws k' weight p
  ret {α : Type} {k : Nat} {weight : α → Nat} {a : α} : weight a ≤ k → Draws k weight (pure a)
  bind {α β : Type} {k : Nat} {weight : α → Nat} {weight' : β → Nat} {p : m α} {f : α → m β} :
    Draws 0 weight p → (∀ a, Draws (k + weight a) weight' (f a)) → Draws k weight' (p >>= f)
  tokens {α : Type} {weight : α → Nat} {p : Parser α} :
    (∀ input, (p input).Weightless weight input) → Draws 0 weight (liftM p : m α)
  expect (kind : TokenKind) (what : Expected) :
    Draws 0 (fun t => own t.id) (liftM (Parser.expect kind what) : m Stamped)
  acceptAny (kinds : List TokenKind) :
    Draws 0 (fun t => t.elim 0 fun t => own t.id) (liftM (Parser.acceptAny kinds) : m _)
  reference {α : Type} {k : Nat} {weight : α → Nat} {stamp : RefId} {make : RefId → α} :
    (∀ id, weight (make id) ≤ k + if id = i then 1 else 0) →
      Draws (k + own stamp) weight (Parsing.reference stamp make)
  sized {α : Type} {weight : α → Nat} {f : Nat → m α} :
    (∀ size, Draws 0 weight (f size)) → Draws 0 weight (Parsing.sized f)
  recover {weight : Stmt → Nat} {p : m Stmt} :
    weight .placeholder = 0 → Draws 0 weight p → Draws 0 weight (Parsing.recover p)

namespace Ledger

variable {m : Type → Type} [Parsing m] {i : RefId} (L : Ledger m i) {α β : Type} {k n : Nat}
  {weight : β → Nat}

/-- The number is in the value no more often than the parser draws it. -/
def DrawsRefs (refs : α → List (RefId × Token)) (p : m α) : Prop :=
  L.Draws 0 (fun a => timesIn i (refs a)) p

/-! ## Single tokens -/

theorem exhausted : L.Draws 0 weight (liftM Parser.exhausted : m β) := L.tokens fun _ => trivial

theorem fail (what : Expected) : L.Draws 0 weight (liftM (Parser.fail what) : m β) :=
  L.tokens fun _ => List.suffix_rfl

/-- A step whose value says nothing about references. -/
theorem after_tokens {p : Parser α} {f : α → m β}
    (hp : ∀ input, (p input).Weightless (fun _ => 0) input) (hf : ∀ a, L.Draws k weight (f a)) :
    L.Draws k weight (liftM p >>= f) :=
  L.bind (L.tokens hp) hf

theorem after_ahead {kind : TokenKind} {f : Bool → m β} (h : ∀ b, L.Draws k weight (f b)) :
    L.Draws k weight (liftM (Parser.ahead kind) >>= f) :=
  L.after_tokens (fun input => by cases input <;> exact ⟨rfl, List.suffix_rfl⟩) h

theorem after_atBodyEnd {f : Bool → m β} (h : ∀ b, L.Draws k weight (f b)) :
    L.Draws k weight (liftM Parser.atBodyEnd >>= f) :=
  L.after_tokens (fun input => by cases input <;> exact ⟨rfl, List.suffix_rfl⟩) h

theorem after_acceptAny {kinds : List TokenKind} {f : Option Stamped → m β}
    (hsome : ∀ t, L.Draws (k + L.own t.id) weight (f (some t)))
    (hnone : L.Draws k weight (f none)) :
    L.Draws k weight (liftM (Parser.acceptAny kinds) >>= f) := by
  refine L.bind (L.acceptAny kinds) fun t => ?_
  cases t with
  | none => exact hnone
  | some t => exact hsome t

theorem after_accept {kind : TokenKind} {f : Option Stamped → m β}
    (hsome : ∀ t, L.Draws k weight (f (some t))) (hnone : L.Draws k weight (f none)) :
    L.Draws k weight (liftM (Parser.accept kind) >>= f) :=
  L.after_acceptAny (fun t => L.mono (hsome t) (Nat.le_add_right _ _)) hnone

/-- A token that must be there, and that no reference is made of. -/
theorem after_expect {kind : TokenKind} {what : Expected} {f : Stamped → m β}
    (h : ∀ t, L.Draws k weight (f t)) : L.Draws k weight (liftM (Parser.expect kind what) >>= f) :=
  L.bind (L.expect kind what) fun t => L.mono (h t) (Nat.le_add_right _ _)

/-! ## Expressions -/

structure ExpressionsDraw (n : Nat) : Prop where
  expression : L.DrawsRefs Expr.refs (Production.expressionIn n : m Expr)
  level : ∀ level, L.DrawsRefs Expr.refs (Production.levelIn n level : m Expr)
  operand : ∀ level, L.DrawsRefs Expr.refs (Production.operandIn n level : m Expr)
  chain : ∀ level left, L.Draws (timesIn i left.refs) (fun e => timesIn i e.refs)
    (Production.chainIn n level left : m Expr)
  unary : L.DrawsRefs Expr.refs (Production.unaryIn n : m Expr)
  suffixes : ∀ e, L.Draws (timesIn i e.refs) (fun e => timesIn i e.refs)
    (Production.suffixesIn n e : m Expr)
  arguments : L.DrawsRefs Expr.refsOfList (Production.argumentsIn n : m (List Expr))
  argumentList : ∀ index,
    L.DrawsRefs Expr.refsOfList (Production.argumentListIn n index : m (List Expr))
  primary : L.DrawsRefs Expr.refs (Production.primaryIn n : m Expr)

section Expressions

variable {L} (ih : L.ExpressionsDraw n)
include ih

theorem draws_expressionIn : L.DrawsRefs Expr.refs (Production.expressionIn (n + 1) : m Expr) := by
  refine L.bind (ih.level .or) fun target => ?_
  refine L.after_tokens (fun _ => ⟨rfl, List.suffix_rfl⟩) fun here => ?_
  refine L.after_accept (fun _ => ?_) (L.ret (Nat.le_add_left _ _))
  refine L.bind ih.expression fun value => ?_
  cases target with
  | var id name =>
    refine L.mono (L.reference (k := timesIn i value.refs) fun id => ?_) ?_
    · simp only [Expr.refs, timesIn_cons]
      omega
    · have hown := L.own_le id
      simp only [Expr.refs, timesIn_cons, timesIn_nil]
      omega
  | get object name =>
    refine L.ret ?_
    simp only [Expr.refs, timesIn_append]
    omega
  | _ => exact L.after_tokens (fun _ => ⟨rfl, List.suffix_rfl⟩) fun _ => L.ret (by omega)

theorem draws_levelIn (level : Level) :
    L.DrawsRefs Expr.refs (Production.levelIn (n + 1) level : m Expr) :=
  L.bind (ih.operand level) fun left => L.mono (ih.chain level left) (Nat.le_add_left _ _)

theorem draws_operandIn (level : Level) :
    L.DrawsRefs Expr.refs (Production.operandIn (n + 1) level : m Expr) := by
  simp only [Production.operandIn]
  cases level.tighter with
  | some tighter => exact ih.level tighter
  | none => exact ih.unary

theorem draws_chainIn (level : Level) (left : Expr) : L.Draws (timesIn i left.refs)
    (fun e => timesIn i e.refs) (Production.chainIn (n + 1) level left : m Expr) := by
  refine L.after_acceptAny (fun operator => ?_) (L.ret (Nat.le_refl _))
  refine L.bind (ih.operand level) fun right => L.mono (ih.chain level _) ?_
  rw [Phrase.refs_combine, timesIn_append]
  omega

theorem draws_unaryIn : L.DrawsRefs Expr.refs (Production.unaryIn (n + 1) : m Expr) := by
  refine L.after_acceptAny (fun operator => ?_) ?_
  · exact L.bind ih.unary fun operand => L.ret (by rw [Expr.refs]; omega)
  · exact L.bind ih.primary fun e => L.mono (ih.suffixes e) (Nat.le_add_left _ _)

theorem draws_suffixesIn (e : Expr) : L.Draws (timesIn i e.refs) (fun e => timesIn i e.refs)
    (Production.suffixesIn (n + 1) e : m Expr) := by
  refine L.after_accept (fun _ => ?_) (L.after_accept (fun _ => ?_) (L.ret (Nat.le_refl _)))
  · refine L.bind ih.arguments fun args => L.after_expect fun paren => ?_
    refine L.mono (ih.suffixes _) ?_
    rw [Expr.refs, timesIn_append]
  · refine L.after_expect fun name => L.mono (ih.suffixes _) ?_
    rw [Expr.refs]

theorem draws_argumentsIn :
    L.DrawsRefs Expr.refsOfList (Production.argumentsIn (n + 1) : m (List Expr)) := by
  refine L.after_ahead fun stop => ?_
  cases stop with
  | true => exact L.ret (Nat.le_refl _)
  | false => exact ih.argumentList 0

theorem draws_argumentListIn (index : Nat) :
    L.DrawsRefs Expr.refsOfList (Production.argumentListIn (n + 1) index : m (List Expr)) := by
  refine L.after_tokens (fun _ => ⟨rfl, List.suffix_rfl⟩) fun _ => ?_
  refine L.bind ih.expression fun arg => L.after_accept (fun _ => ?_) (L.ret ?_)
  · refine L.bind (ih.argumentList (index + 1)) fun more => L.ret ?_
    rw [Expr.refsOfList, timesIn_append]
    omega
  · rw [Expr.refsOfList, Expr.refsOfList, List.append_nil]
    omega

theorem draws_primaryIn : L.DrawsRefs Expr.refs (Production.primaryIn (n + 1) : m Expr) := by
  refine L.after_acceptAny (fun t => ?_) (L.fail _)
  have hconstant (c : Constant) :
      L.Draws (0 + L.own t.id) (fun e => timesIn i e.refs) (pure (.constant c) : m Expr) :=
    L.ret (Nat.zero_le _)
  dsimp only
  cases t.token.kind with
  | kwSuper =>
    refine L.after_expect fun _ => L.after_expect fun method => L.reference fun id => ?_
    rw [Expr.refs, timesIn_cons, timesIn_nil]
  | kwThis => exact L.reference fun id => by rw [Expr.refs, timesIn_cons, timesIn_nil]
  | identifier => exact L.reference fun id => by rw [Expr.refs, timesIn_cons, timesIn_nil]
  | leftParen =>
    refine L.bind ih.expression fun inner => L.after_expect fun _ => L.ret ?_
    rw [Expr.refs]
    omega
  | _ => exact hconstant _

end Expressions

theorem expressionsDraw (n : Nat) : L.ExpressionsDraw n := by
  induction n with
  | zero => exact ⟨L.exhausted, fun _ => L.exhausted, fun _ => L.exhausted,
      fun _ _ => L.mono L.exhausted (Nat.zero_le _), L.exhausted,
      fun _ => L.mono L.exhausted (Nat.zero_le _), L.exhausted, fun _ => L.exhausted, L.exhausted⟩
  | succ n ih =>
    exact {
      expression := draws_expressionIn ih
      level := draws_levelIn ih
      operand := draws_operandIn ih
      chain := draws_chainIn ih
      unary := draws_unaryIn ih
      suffixes := draws_suffixesIn ih
      arguments := draws_argumentsIn ih
      argumentList := draws_argumentListIn ih
      primary := draws_primaryIn ih }

theorem draws_expression : L.DrawsRefs Expr.refs (Production.expression : m Expr) :=
  L.sized fun _ => (L.expressionsDraw _).expression

/-! ## Parts of statements -/

/-- Names of parameters are no references. -/
theorem weightless_parameters (input : List Stamped) :
    (Parser.parameters input).Weightless (fun _ => 0) input := by
  have htakes := (@Parser.inStep_parameters ⟨id, id⟩ []).takes input
  cases h : Parser.parameters input with
  | ok params rest complaints =>
    rw [h] at htakes
    obtain ⟨taken, rfl, -⟩ := htakes.taken
    exact ⟨rfl, List.suffix_append taken rest⟩
  | fail what rest complaints =>
    rw [h] at htakes
    obtain ⟨taken, rfl, -⟩ := htakes.taken
    exact List.suffix_append taken rest
  | outOfFuel => trivial

theorem draws_varDeclaration : L.DrawsRefs Stmt.refs (Production.varDeclaration : m Stmt) := by
  refine L.after_expect fun name => L.after_accept (fun _ => ?_) ?_
  · refine L.bind L.draws_expression fun init => L.after_expect fun _ => L.ret ?_
    rw [Stmt.refs, Expr.refsOfOption]
    omega
  · exact L.after_expect fun _ => L.ret (Nat.le_refl _)

theorem draws_expressionStatement :
    L.DrawsRefs Stmt.refs (Production.expressionStatement : m Stmt) := by
  refine L.bind L.draws_expression fun e => L.after_expect fun _ => L.ret ?_
  rw [Stmt.refs]
  omega

theorem draws_returnStatement (keyword : Token) :
    L.DrawsRefs Stmt.refs (Production.returnStatement keyword : m Stmt) := by
  refine L.after_ahead fun stopped => ?_
  cases stopped with
  | true => exact L.after_expect fun _ => L.ret (Nat.le_refl _)
  | false =>
    refine L.bind L.draws_expression fun value => L.after_expect fun _ => L.ret ?_
    rw [Stmt.refs, Expr.refsOfOption]
    omega

theorem draws_optionalExpression (stop : TokenKind) :
    L.DrawsRefs Expr.refsOfOption (Production.optionalExpression stop : m (Option Expr)) := by
  refine L.after_ahead fun stopped => ?_
  cases stopped with
  | true => exact L.ret (Nat.le_refl _)
  | false => exact L.bind L.draws_expression fun e => L.ret (Nat.le_add_left _ _)

theorem draws_forInitializer :
    L.DrawsRefs Phrase.refsOfInitializer (Production.forInitializer : m (Option Stmt)) := by
  refine L.after_accept (fun _ => L.ret (Nat.le_refl _)) (L.after_accept (fun _ => ?_) ?_)
  · exact L.bind L.draws_varDeclaration fun s => L.ret (Nat.le_add_left _ _)
  · exact L.bind L.draws_expressionStatement fun s => L.ret (Nat.le_add_left _ _)

theorem draws_superclassClause :
    L.DrawsRefs Expr.refsOfOption (Production.superclassClause : m (Option Expr)) := by
  refine L.after_accept (fun _ => ?_) (L.ret (Nat.le_refl _))
  refine L.bind (L.expect _ _) fun name => L.reference fun id => ?_
  rw [Expr.refsOfOption, Expr.refs, timesIn_cons, timesIn_nil]

/-! ## Statements -/

structure StatementsDraw (n : Nat) : Prop where
  declaration : L.DrawsRefs Stmt.refs (Production.declarationIn n : m Stmt)
  bareDeclaration : L.DrawsRefs Stmt.refs (Production.bareDeclarationIn n : m Stmt)
  cls : L.DrawsRefs Stmt.refs (Production.classIn n : m Stmt)
  methods : L.DrawsRefs FunctionDecl.refsOfList (Production.methodsIn n : m (List FunctionDecl))
  function : ∀ kind, L.DrawsRefs FunctionDecl.refs (Production.functionIn n kind : m FunctionDecl)
  block : L.DrawsRefs Stmt.refsOfList (Production.blockIn n : m (List Stmt))
  declarations : L.DrawsRefs Stmt.refsOfList (Production.declarationsIn n : m (List Stmt))
  statement : L.DrawsRefs Stmt.refs (Production.statementIn n : m Stmt)
  forLoop : L.DrawsRefs Stmt.refs (Production.forIn n : m Stmt)
  branch : L.DrawsRefs Stmt.refs (Production.ifIn n : m Stmt)
  whileLoop : L.DrawsRefs Stmt.refs (Production.whileIn n : m Stmt)

section Statements

variable {L} (ih : L.StatementsDraw n)
include ih

theorem draws_bareDeclarationIn :
    L.DrawsRefs Stmt.refs (Production.bareDeclarationIn (n + 1) : m Stmt) := by
  refine L.after_acceptAny (fun t => L.mono ?_ (Nat.le_add_right _ _)) ih.statement
  dsimp only
  cases t.token.kind with
  | kwClass => exact ih.cls
  | kwFun =>
    refine L.bind (ih.function .function) fun decl => L.ret ?_
    rw [Stmt.refs]
    omega
  | _ => exact L.draws_varDeclaration

theorem draws_classIn : L.DrawsRefs Stmt.refs (Production.classIn (n + 1) : m Stmt) := by
  refine L.after_expect fun name => L.bind L.draws_superclassClause fun superclass => ?_
  refine L.after_expect fun _ => L.bind ih.methods fun methods => L.after_expect fun _ => L.ret ?_
  rw [Stmt.refs, timesIn_append]
  omega

theorem draws_methodsIn :
    L.DrawsRefs FunctionDecl.refsOfList (Production.methodsIn (n + 1) : m (List FunctionDecl)) := by
  refine L.after_atBodyEnd fun ended => ?_
  cases ended with
  | true => exact L.ret (Nat.le_refl _)
  | false =>
    refine L.bind (ih.function .method) fun method => L.bind ih.methods fun more => L.ret ?_
    rw [FunctionDecl.refsOfList, timesIn_append]
    omega

theorem draws_functionIn (kind : FunctionKind) :
    L.DrawsRefs FunctionDecl.refs (Production.functionIn (n + 1) kind : m FunctionDecl) := by
  refine L.after_expect fun name => L.after_expect fun _ => ?_
  refine L.after_tokens weightless_parameters fun params => ?_
  refine L.after_expect fun _ => L.after_expect fun _ => L.bind ih.block fun body => L.ret ?_
  rw [FunctionDecl.refs]
  omega

theorem draws_blockIn :
    L.DrawsRefs Stmt.refsOfList (Production.blockIn (n + 1) : m (List Stmt)) :=
  L.bind ih.declarations fun _ => L.after_expect fun _ => L.ret (Nat.le_add_left _ _)

theorem draws_declarationsIn :
    L.DrawsRefs Stmt.refsOfList (Production.declarationsIn (n + 1) : m (List Stmt)) := by
  refine L.after_atBodyEnd fun ended => ?_
  cases ended with
  | true => exact L.ret (Nat.le_refl _)
  | false =>
    refine L.bind ih.declaration fun first => L.bind ih.declarations fun more => L.ret ?_
    rw [Stmt.refsOfList, timesIn_append]
    omega

theorem draws_statementIn : L.DrawsRefs Stmt.refs (Production.statementIn (n + 1) : m Stmt) := by
  refine L.after_acceptAny (fun t => L.mono ?_ (Nat.le_add_right _ _)) L.draws_expressionStatement
  have hblock : L.DrawsRefs Stmt.refs
      (Production.blockIn n >>= fun body => pure (Stmt.block body) : m Stmt) := by
    refine L.bind ih.block fun body => L.ret ?_
    rw [Stmt.refs]
    omega
  dsimp only
  cases t.token.kind with
  | kwFor => exact ih.forLoop
  | kwIf => exact ih.branch
  | kwWhile => exact ih.whileLoop
  | kwReturn => exact L.draws_returnStatement t.token
  | _ => exact hblock

theorem draws_forIn : L.DrawsRefs Stmt.refs (Production.forIn (n + 1) : m Stmt) := by
  refine L.after_expect fun _ => L.bind L.draws_forInitializer fun init => ?_
  refine L.bind (L.draws_optionalExpression _) fun condition => L.after_expect fun _ => ?_
  refine L.bind (L.draws_optionalExpression _) fun increment => L.after_expect fun _ => ?_
  refine L.bind ih.statement fun body => L.ret ?_
  rw [Phrase.timesIn_ofFor]
  omega

theorem draws_ifIn : L.DrawsRefs Stmt.refs (Production.ifIn (n + 1) : m Stmt) := by
  refine L.after_expect fun _ => L.bind L.draws_expression fun condition => ?_
  refine L.after_expect fun _ => L.bind ih.statement fun yes => L.after_accept (fun _ => ?_) ?_
  · refine L.bind ih.statement fun no => L.ret ?_
    rw [Stmt.refs, timesIn_append, timesIn_append]
    omega
  · refine L.ret ?_
    rw [Stmt.refs, timesIn_append]
    omega

theorem draws_whileIn : L.DrawsRefs Stmt.refs (Production.whileIn (n + 1) : m Stmt) := by
  refine L.after_expect fun _ => L.bind L.draws_expression fun condition => ?_
  refine L.after_expect fun _ => L.bind ih.statement fun body => L.ret ?_
  rw [Stmt.refs, timesIn_append]
  omega

end Statements

theorem statementsDraw (n : Nat) : L.StatementsDraw n := by
  induction n with
  | zero => exact ⟨L.exhausted, L.exhausted, L.exhausted, L.exhausted, fun _ => L.exhausted,
      L.exhausted, L.exhausted, L.exhausted, L.exhausted, L.exhausted, L.exhausted⟩
  | succ n ih =>
    exact {
      declaration := L.recover rfl ih.bareDeclaration
      bareDeclaration := draws_bareDeclarationIn ih
      cls := draws_classIn ih
      methods := draws_methodsIn ih
      function := draws_functionIn ih
      block := draws_blockIn ih
      declarations := draws_declarationsIn ih
      statement := draws_statementIn ih
      forLoop := draws_forIn ih
      branch := draws_ifIn ih
      whileLoop := draws_whileIn ih }

theorem draws_declaration : L.DrawsRefs Stmt.refs (Production.declaration : m Stmt) :=
  L.sized fun _ => (L.statementsDraw _).declaration

/-! ## Programs -/

theorem draws_programIn (n : Nat) :
    L.DrawsRefs Stmt.refsOfList (Production.programIn n : m (List Stmt)) := by
  induction n with
  | zero => exact L.exhausted
  | succ n ih =>
    refine L.after_tokens (fun _ => ⟨rfl, List.suffix_rfl⟩) fun ended => ?_
    cases ended with
    | true => exact L.ret (Nat.le_refl _)
    | false =>
      refine L.bind L.draws_declaration fun first => L.bind ih fun more => L.ret ?_
      rw [Stmt.refsOfList, timesIn_append]
      omega

theorem draws_program : L.DrawsRefs Stmt.refsOfList (Production.program : m (List Stmt)) :=
  L.sized fun _ => L.draws_programIn _

end Ledger

/-! ## Stamps -/

/-- The number `i` is in the value and in what is left at most `k` times, all in all. -/
def Parsed.Draws {α : Type} (i : RefId) (weight : α → Nat) (k : Nat) : Parsed α → Prop
  | .ok a rest _ => weight a + timesStamped i rest ≤ k
  | .fail _ rest _ => timesStamped i rest ≤ k
  | .outOfFuel => True

theorem Parsed.Draws.mono {α : Type} {i : RefId} {weight : α → Nat} {k k' : Nat} {r : Parsed α}
    (h : r.Draws i weight k) (hk : k ≤ k') : r.Draws i weight k' := by
  cases r with
  | ok => exact Nat.le_trans h hk
  | fail => exact Nat.le_trans h hk
  | outOfFuel => trivial

theorem timesStamped_le_of_suffix {i : RefId} {rest input : List Stamped} (h : rest <:+ input) :
    timesStamped i rest ≤ timesStamped i input := by
  obtain ⟨taken, rfl⟩ := h
  rw [timesStamped_append]
  exact Nat.le_add_left _ _

theorem Parsed.Weightless.draws {α : Type} {i : RefId} {weight : α → Nat} {input : List Stamped}
    {r : Parsed α} (h : r.Weightless weight input) : r.Draws i weight (timesStamped i input) := by
  cases r with
  | ok a rest complaints =>
    show weight a + timesStamped i rest ≤ _
    rw [h.1, Nat.zero_add]
    exact timesStamped_le_of_suffix h.2
  | fail what rest complaints => exact timesStamped_le_of_suffix h
  | outOfFuel => trivial

namespace Parser

variable {α β : Type} {i : RefId} {k : Nat} {input : List Stamped} {weight : α → Nat}

theorem draws_after {r : Parsed α} (earlier : List Complaint) :
    (after earlier r).Draws i weight k ↔ r.Draws i weight k := by
  cases r <;> rfl

theorem draws_bind {weight' : β → Nat} {p : Parser α} {f : α → Parser β}
    (hp : (p input).Draws i weight (timesStamped i input))
    (hf : ∀ a rest, (f a rest).Draws i weight' (k + weight a + timesStamped i rest)) :
    ((p >>= f) input).Draws i weight' (k + timesStamped i input) := by
  rw [bind_apply]
  cases hrun : p input with
  | ok a rest complaints =>
    rw [hrun] at hp
    have hrest : weight a + timesStamped i rest ≤ timesStamped i input := hp
    exact (draws_after complaints).2 ((hf a rest).mono (by omega))
  | fail what rest complaints =>
    rw [hrun] at hp
    exact Nat.le_trans hp (Nat.le_add_left _ _)
  | outOfFuel => trivial

theorem draws_expect (kind : TokenKind) (what : Expected) (input : List Stamped) :
    (expect kind what input).Draws i (fun t => if t.id = i then 1 else 0)
      (timesStamped i input) := by
  cases input with
  | nil => exact Nat.le_refl 0
  | cons t rest =>
    simp only [expect]
    split
    · show (if t.id = i then 1 else 0) + timesStamped i rest ≤ _
      rw [timesStamped_cons, Nat.add_comm]
    · exact Nat.le_refl _

theorem draws_acceptAny (kinds : List TokenKind) (input : List Stamped) :
    (acceptAny kinds input).Draws i (fun t => t.elim 0 fun t => if t.id = i then 1 else 0)
      (timesStamped i input) := by
  cases input with
  | nil => exact Nat.le_refl 0
  | cons t rest =>
    simp only [acceptAny]
    split
    · show (if t.id = i then 1 else 0) + timesStamped i rest ≤ _
      rw [timesStamped_cons, Nat.add_comm]
    · exact Nat.le_of_eq (Nat.zero_add _)

theorem suffix_synchronize (input : List Stamped) : synchronize input <:+ input := by
  cases input with
  | nil => exact List.suffix_rfl
  | cons t rest =>
    obtain ⟨skipped, hskipped⟩ := synchronize_suffix t rest
    exact ⟨t :: skipped, congrArg (t :: ·) hskipped⟩

/-- Skipped tokens are lost, and their numbers with them. -/
theorem draws_recover {weight : Stmt → Nat} {p : Parser Stmt} (hweight : weight .placeholder = 0)
    (hp : (p input).Draws i weight k) : (recover p input).Draws i weight k := by
  simp only [recover]
  cases hrun : p input with
  | ok s rest complaints =>
    rw [hrun] at hp
    exact hp
  | fail what rest complaints =>
    rw [hrun] at hp
    show weight .placeholder + timesStamped i (synchronize rest) ≤ k
    rw [hweight, Nat.zero_add]
    exact Nat.le_trans (timesStamped_le_of_suffix (suffix_synchronize rest)) hp
  | outOfFuel => trivial

end Parser

namespace Ledger

/-- The account of a number that tokens are stamped with: it is to come as often as it is on tokens
that are left. -/
def ofStamps (i : RefId) : Ledger Parser i where
  own stamp := if stamp = i then 1 else 0
  own_le _ := Nat.le_refl _
  Draws k weight p := ∀ input, (p input).Draws i weight (k + timesStamped i input)
  mono h hk input := (h input).mono (Nat.add_le_add_right hk _)
  ret h input := Nat.add_le_add_right h (timesStamped i input)
  bind hp hf input :=
    Parser.draws_bind (by simpa only [Nat.zero_add] using hp input) hf
  tokens h input := (h input).draws.mono (Nat.le_add_left _ _)
  expect kind what input := (Parser.draws_expect kind what input).mono (Nat.le_add_left _ _)
  acceptAny kinds input := (Parser.draws_acceptAny kinds input).mono (Nat.le_add_left _ _)
  reference h input := Nat.add_le_add_right (h _) (timesStamped i input)
  sized h input := h input.length input
  recover hweight hp input := Parser.draws_recover hweight (hp input)

end Ledger

/-! ## Numbers from a counter -/

namespace Counting

variable {α β : Type} {i next : RefId} {k : Nat} {input : List Stamped} {weight : α → Nat}

/-- How often a number is still to come, where the counter stands at `next`. -/
def toCome (i next : Nat) : Nat := if next ≤ i then 1 else 0

theorem toCome_of_le {i next : Nat} (h : next ≤ i) : toCome i next = 1 := if_pos h

theorem toCome_of_lt {i next : Nat} (h : i < next) : toCome i next = 0 := if_neg (Nat.not_le.mpr h)

theorem toCome_le_one (i next : Nat) : toCome i next ≤ 1 := by
  unfold toCome
  split <;> decide

theorem toCome_eq_succ (i next : Nat) :
    toCome i next = (if next = i then 1 else 0) + toCome i (next + 1) := by
  unfold toCome
  split <;> split <;> split <;> omega

/-- The number `i` is in the value and still to come at most `k` times, all in all. -/
def Draws (i : RefId) (weight : α → Nat) (k : Nat) : Parsed α × RefId → Prop
  | (.ok a _ _, next) => weight a + toCome i next ≤ k
  | (.fail _ _ _, next) | (.outOfFuel, next) => toCome i next ≤ k

theorem Draws.mono {k' : Nat} {r : Parsed α × RefId} (h : Draws i weight k r) (hk : k ≤ k') :
    Draws i weight k' r := by
  obtain ⟨r, next⟩ := r
  cases r <;> exact Nat.le_trans h hk

theorem draws_after {r : Parsed α} (earlier : List Complaint) :
    Draws i weight k (Parser.after earlier r, next) ↔ Draws i weight k (r, next) := by
  cases r <;> rfl

theorem draws_bind {weight' : β → Nat} {p : Counting α} {f : α → Counting β}
    (hp : Draws i weight (toCome i next) (p next input))
    (hf : ∀ a next' rest, Draws i weight' (k + weight a + toCome i next') (f a next' rest)) :
    Draws i weight' (k + toCome i next) ((p >>= f) next input) := by
  show Draws i weight' _ (bind p f next input)
  rw [bind]
  cases hrun : p next input with
  | mk r next' =>
  rw [hrun] at hp
  cases r with
  | ok a rest complaints =>
    have hrest : weight a + toCome i next' ≤ toCome i next := hp
    exact (draws_after complaints).2 ((hf a next' rest).mono (by omega))
  | fail what rest complaints => exact Nat.le_trans hp (Nat.le_add_left _ _)
  | outOfFuel => exact Nat.le_trans hp (Nat.le_add_left _ _)

/-- Tokens do not move the counter. -/
theorem draws_tokens {r : Parsed α}
    (h : ∀ a rest complaints, r = .ok a rest complaints → weight a = 0) :
    Draws i weight (k + toCome i next) (r, next) := by
  cases r with
  | ok a rest complaints =>
    show weight a + toCome i next ≤ k + toCome i next
    rw [h a rest complaints rfl]
    exact Nat.add_le_add_right (Nat.zero_le k) _
  | fail => exact Nat.le_add_left _ _
  | outOfFuel => exact Nat.le_add_left _ _

theorem draws_reference {stamp : RefId} {make : RefId → α}
    (h : ∀ id, weight (make id) ≤ k + if id = i then 1 else 0) :
    Draws i weight (k + toCome i next)
      ((Parsing.reference stamp make : Counting α) next input) := by
  show weight (make next) + toCome i (next + 1) ≤ k + toCome i next
  rw [toCome_eq_succ i next, ← Nat.add_assoc]
  exact Nat.add_le_add_right (h next) _

theorem draws_recover {weight : Stmt → Nat} {p : Counting Stmt} (hweight : weight .placeholder = 0)
    (hp : Draws i weight k (p next input)) : Draws i weight k (recover p next input) := by
  simp only [recover, Parser.recover]
  cases hrun : p next input with
  | mk r next' =>
  rw [hrun] at hp
  cases r with
  | ok s rest complaints => exact hp
  | fail what rest complaints =>
    show weight .placeholder + toCome i next' ≤ k
    rw [hweight, Nat.zero_add]
    exact hp
  | outOfFuel => exact hp

end Counting

/-- The account of a number that a counter draws: it is to come once, if the counter has not passed
it. -/
def Ledger.ofCounter (i : RefId) : Ledger Counting i where
  own _ := 0
  own_le _ := Nat.zero_le _
  Draws k weight p := ∀ next input,
    Counting.Draws i weight (k + Counting.toCome i next) (p next input)
  mono h hk next input := (h next input).mono (Nat.add_le_add_right hk _)
  ret h next input := Nat.add_le_add_right h (Counting.toCome i next)
  bind hp hf next input :=
    Counting.draws_bind (by simpa only [Nat.zero_add] using hp next input) hf
  tokens h next input := Counting.draws_tokens fun _ _ _ hrun => (h input).weight_eq_zero hrun
  expect kind what next input := Counting.draws_tokens fun _ _ _ _ => rfl
  acceptAny kinds next input := Counting.draws_tokens fun t _ _ _ => by cases t <;> rfl
  reference h next input := Counting.draws_reference h
  sized h next input := h input.length next input
  recover hweight hp next input := Counting.draws_recover hweight (hp next input)

namespace Parse

/-- The references of a program, parsed with or without complaints, are numbered apart. -/
theorem nodup_refs (first : RefId) (tokens : List Token) :
    ((Stmt.refsOfList (ofTokens first tokens).statements).map Prod.fst).Nodup := by
  rw [List.nodup_iff_count_le_one]
  intro i
  obtain ⟨ss, complaints, hrun⟩ :=
    Parser.program_eq_ok (Stamped.ofTokens first (Token.body tokens))
  have hdraws : (Parser.program _).Draws i _ _ :=
    (Ledger.ofStamps i).draws_program (Stamped.ofTokens first (Token.body tokens))
  rw [hrun, Nat.zero_add] at hdraws
  have htimes : timesIn i (Stmt.refsOfList ss) ≤
      timesStamped i (Stamped.ofTokens first (Token.body tokens)) := hdraws
  have hstatements : (ofTokens first tokens).statements = ss := by
    simp only [ofTokens, hrun]
  rw [hstatements]
  show timesIn i (Stmt.refsOfList ss) ≤ 1
  rw [timesStamped_ofTokens] at htimes
  split at htimes <;> omega

section Counted

variable (first : RefId) (tokens : List Token)

/-- A number is in a parse and still to come after it no more often than before. -/
theorem timesIn_counted_add_le (i : RefId) :
    timesIn i (Stmt.refsOfList (counted first tokens).1.statements) +
      Counting.toCome i (counted first tokens).2 ≤ Counting.toCome i first := by
  have hdraws : Counting.Draws i _ (0 + _) _ :=
    (Ledger.ofCounter i).draws_program first (Stamped.ofTokens first (Token.body tokens))
  rw [Nat.zero_add] at hdraws
  obtain ⟨-, ss, complaints, next, -, hrun, -⟩ := Counting.program_eq_ok first
    (Stamped.ofTokens first (Token.body tokens))
  rw [hrun] at hdraws
  simp only [counted, hrun]
  exact hdraws

/-- The counter is not set back. -/
theorem le_next_counted : first ≤ (counted first tokens).2 := by
  have htimes := timesIn_counted_add_le first tokens (counted first tokens).2
  rw [Counting.toCome_of_le (Nat.le_refl _)] at htimes
  by_contra hlt
  rw [Counting.toCome_of_lt (Nat.lt_of_not_le hlt)] at htimes
  omega

/-- A parse has its numbers from between where the counter stood before and where it stands then. -/
theorem range_of_mem_counted {id : Nat}
    (h : id ∈ (Stmt.refsOfList (counted first tokens).1.statements).map Prod.fst) :
    first ≤ id ∧ id < (counted first tokens).2 := by
  have hcount : 0 < timesIn id (Stmt.refsOfList (counted first tokens).1.statements) :=
    List.count_pos_iff.mpr h
  have htimes := timesIn_counted_add_le first tokens id
  have hfirst : first ≤ id := by
    by_contra hlt
    rw [Counting.toCome_of_lt (Nat.lt_of_not_le hlt)] at htimes
    omega
  refine ⟨hfirst, Nat.lt_of_not_le fun hnext => ?_⟩
  rw [Counting.toCome_of_le hfirst, Counting.toCome_of_le hnext] at htimes
  omega

theorem nodup_counted :
    ((Stmt.refsOfList (counted first tokens).1.statements).map Prod.fst).Nodup := by
  rw [List.nodup_iff_count_le_one]
  intro i
  have htimes := timesIn_counted_add_le first tokens i
  show timesIn i _ ≤ 1
  have honce := Counting.toCome_le_one i first
  omega

end Counted

end Parse
end Lox
