import Lox.Proofs.Parse.Recovery

/-!
# Lox.Proofs.Parse.Bound

The bounds on the depth are never reached: whatever the tokens, each production ends within the
bound that their number gives it, and a program is parsed to the end of its input
(`program_eq_ok`).

A production is given twenty steps (a statement ten) for each token in front of it and a few more,
according to its place in the grammar. A step down takes one of those few; a token taken off the
input pays for the next round. So what has to be known of a production is that it ends and that it
leaves a shorter input behind (`Within`).
-/

namespace Lox

namespace Level

/-- The steps down from a level to its first token. -/
def depth : Level → Nat
  | factor => 4
  | term => 6
  | comparison => 8
  | equality => 10
  | and => 12
  | or => 14

theorem depth_tighter {level tighter : Level} (h : level.tighter = some tighter) :
    level.depth = tighter.depth + 2 := by
  cases level <;> cases h <;> rfl

theorem depth_of_tightest {level : Level} (h : level.tighter = none) : level.depth = 4 := by
  cases level <;> cases h <;> rfl

theorem four_le_depth (level : Level) : 4 ≤ level.depth := by
  cases level <;> decide

theorem depth_le (level : Level) : level.depth ≤ 14 := by
  cases level <;> decide

end Level

/-- The parse has ended, and a value took at least `d` of `m` tokens. -/
def Parsed.Within {α : Type} (d m : Nat) : Parsed α → Prop
  | .ok _ rest _ => rest.length + d ≤ m
  | .fail _ rest _ => rest.length ≤ m
  | .outOfFuel => False

/-- What is within one bound is within another that asks for no more. -/
theorem Parsed.Within.mono {α : Type} {r : Parsed α} {d m d' m' : Nat} (h : r.Within d m)
    (hd : d' + m ≤ d + m') (hm : m ≤ m') : r.Within d' m' := by
  cases r with
  | ok a rest complaints =>
    have h : rest.length + d ≤ m := h
    show rest.length + d' ≤ m'
    omega
  | fail what rest complaints => exact Nat.le_trans h hm
  | outOfFuel => exact h

namespace Parser

variable {α β : Type} {d m : Nat} {input : List Stamped}

theorem within_after {r : Parsed α} (earlier : List Complaint) :
    (after earlier r).Within d m ↔ r.Within d m := by
  cases r <;> rfl

theorem within_bind {p : Parser α} {f : α → Parser β} {c k : Nat} (hp : (p input).Within c k)
    (hk : k ≤ m) (hf : ∀ a rest, rest.length + c ≤ k → (f a rest).Within d m) :
    ((p >>= f) input).Within d m := by
  rw [bind_apply]
  cases h : p input with
  | ok a rest complaints =>
    rw [h] at hp
    exact (within_after complaints).2 (hf a rest hp)
  | fail what rest complaints =>
    rw [h] at hp
    exact Nat.le_trans hp hk
  | outOfFuel =>
    rw [h] at hp
    exact hp

theorem within_pure {a : α} (h : input.length + d ≤ m) :
    ((pure a : Parser α) input).Within d m := h

theorem within_expect (kind : TokenKind) (what : Expected) (h : input.length ≤ m) :
    (expect kind what input).Within 1 m := by
  cases input with
  | nil => exact Nat.zero_le m
  | cons t rest =>
    simp only [expect]
    split
    · exact h
    · exact h

/-- An optional token: with it the input gets shorter. -/
theorem within_acceptAny {kinds : List TokenKind} {f : Option Stamped → Parser β}
    (hsome : ∀ t rest, rest.length + 1 = input.length → (f (some t) rest).Within d m)
    (hnone : (f none input).Within d m) : ((acceptAny kinds >>= f) input).Within d m := by
  rw [bind_apply]
  cases input with
  | nil => exact (within_after []).2 hnone
  | cons t rest =>
    by_cases h : kinds.contains t.token.kind = true
    · simp only [acceptAny, h, if_true]
      exact (within_after []).2 (hsome t rest rfl)
    · simp only [acceptAny, h]
      exact (within_after []).2 hnone

theorem within_accept {kind : TokenKind} {f : Option Stamped → Parser β}
    (hsome : ∀ t rest, rest.length + 1 = input.length → (f (some t) rest).Within d m)
    (hnone : (f none input).Within d m) : ((accept kind >>= f) input).Within d m :=
  within_acceptAny hsome hnone

theorem within_ahead {kind : TokenKind} {f : Bool → Parser β}
    (h : ∀ b, (f b input).Within d m) : ((ahead kind >>= f) input).Within d m := by
  rw [bind_apply]
  cases input <;> exact (within_after []).2 (h _)

theorem within_remaining {f : List Stamped → Parser β} (h : (f input input).Within d m) :
    ((remaining >>= f) input).Within d m :=
  (within_after []).2 h

theorem within_complainAt {place : List Stamped} {problem : ParseProblem} {f : Unit → Parser β}
    (h : (f () input).Within d m) : ((complainAt place problem >>= f) input).Within d m :=
  (within_after _).2 h

theorem within_complainIf {wrong : Bool} {problem : ParseProblem} {f : Unit → Parser β}
    (h : (f () input).Within d m) : ((complainIf wrong problem >>= f) input).Within d m :=
  (within_after _).2 h

theorem within_atBodyEnd {f : Bool → Parser β} (htrue : (f true input).Within d m)
    (hfalse : 0 < input.length → (f false input).Within d m) :
    ((atBodyEnd >>= f) input).Within d m := by
  rw [bind_apply]
  cases input with
  | nil => exact (within_after []).2 htrue
  | cons t rest =>
    simp only [atBodyEnd]
    cases t.token.kind == .rightBrace with
    | true => exact (within_after []).2 htrue
    | false => exact (within_after []).2 (hfalse (by simp))

/-! ## Expressions -/

/-- `p` ends and takes a token, if it is given twenty steps for each token and `extra` more. -/
def EndsIn (extra n : Nat) (p : Parser α) : Prop :=
  ∀ input : List Stamped, 20 * input.length + extra ≤ n → (p input).Within 1 input.length

/-- The same for what may take no token at all. -/
def EndsMaybeEmpty (extra n : Nat) (p : Parser α) : Prop :=
  ∀ input : List Stamped, 20 * input.length + extra ≤ n → (p input).Within 0 input.length

structure ExpressionsEnd (n : Nat) : Prop where
  expression : EndsIn 15 n (expressionIn n)
  level : ∀ level, EndsIn (Level.depth level) n (levelIn n level)
  operand : ∀ level, EndsIn (Level.depth level - 1) n (operandIn n level)
  chain : ∀ level left, EndsMaybeEmpty 1 n (chainIn n level left)
  unary : EndsIn 2 n (unaryIn n)
  suffixes : ∀ e, EndsMaybeEmpty 1 n (suffixesIn n e)
  arguments : EndsMaybeEmpty 17 n (argumentsIn n)
  argumentList : ∀ index, EndsIn 16 n (argumentListIn n index)
  primary : EndsIn 1 n (primaryIn n)

section Expressions

variable {n : Nat} (ih : ExpressionsEnd n)
include ih

theorem endsIn_expressionIn : EndsIn 15 (n + 1) (expressionIn (n + 1)) := by
  intro input hn
  refine within_bind (ih.level .or input (by simp only [Level.depth]; omega)) (Nat.le_refl _)
    fun target rest hr => ?_
  refine within_remaining (within_accept (fun t rest' hr' => ?_) hr)
  refine within_bind (ih.expression rest' (by omega)) (by omega) fun value rest'' hr'' => ?_
  have hlen : rest''.length + 1 ≤ input.length := by omega
  cases target with
  | var id name => exact hlen
  | get object name => exact hlen
  | _ => exact within_complainAt hlen

theorem endsIn_levelIn (level : Level) : EndsIn level.depth (n + 1) (levelIn (n + 1) level) := by
  intro input hn
  have hd := level.four_le_depth
  refine within_bind (ih.operand level input (by omega)) (Nat.le_refl _) fun left rest hr => ?_
  exact (ih.chain level left rest (by omega)).mono (by omega) (by omega)

theorem endsIn_operandIn (level : Level) :
    EndsIn (level.depth - 1) (n + 1) (operandIn (n + 1) level) := by
  intro input hn
  have hd := level.four_le_depth
  cases h : level.tighter with
  | some tighter =>
    have ht := Level.depth_tighter h
    simp only [Production.operandIn, h]
    exact ih.level tighter input (by omega)
  | none =>
    have ht := Level.depth_of_tightest h
    simp only [Production.operandIn, h]
    exact ih.unary input (by omega)

theorem endsIn_chainIn (level : Level) (left : Expr) :
    EndsMaybeEmpty 1 (n + 1) (chainIn (n + 1) level left) := by
  intro input hn
  have hd := level.depth_le
  refine within_acceptAny (fun t rest hr => ?_) (Nat.le_refl _)
  refine within_bind (ih.operand level rest (by omega)) (by omega) fun right rest' hr' => ?_
  exact (ih.chain level _ rest' (by omega)).mono (by omega) (by omega)

theorem endsIn_unaryIn : EndsIn 2 (n + 1) (unaryIn (n + 1)) := by
  intro input hn
  refine within_acceptAny (fun t rest hr => ?_) ?_
  · refine within_bind (ih.unary rest (by omega)) (by omega) fun operand rest' hr' => ?_
    exact within_pure (by omega)
  · refine within_bind (ih.primary input (by omega)) (Nat.le_refl _) fun e rest hr => ?_
    exact (ih.suffixes e rest (by omega)).mono (by omega) (by omega)

theorem endsIn_suffixesIn (e : Expr) : EndsMaybeEmpty 1 (n + 1) (suffixesIn (n + 1) e) := by
  intro input hn
  refine within_accept (fun opening rest hr => ?_) (within_accept (fun dot rest hr => ?_) ?_)
  · refine within_bind (ih.arguments rest (by omega)) (by omega) fun args rest' hr' => ?_
    refine within_bind (within_expect _ _ (Nat.le_refl _)) (by omega) fun paren rest'' hr'' => ?_
    exact (ih.suffixes _ rest'' (by omega)).mono (by omega) (by omega)
  · refine within_bind (within_expect _ _ (Nat.le_refl _)) (by omega) fun name rest' hr' => ?_
    exact (ih.suffixes _ rest' (by omega)).mono (by omega) (by omega)
  · exact within_pure (Nat.le_refl _)

theorem endsIn_argumentsIn : EndsMaybeEmpty 17 (n + 1) (argumentsIn (n + 1)) := by
  intro input hn
  refine within_ahead fun stop => ?_
  cases stop with
  | true => exact within_pure (Nat.le_refl _)
  | false => exact (ih.argumentList 0 input (by omega)).mono (by omega) (by omega)

theorem endsIn_argumentListIn (index : Nat) :
    EndsIn 16 (n + 1) (argumentListIn (n + 1) index) := by
  intro input hn
  refine within_complainIf ?_
  refine within_bind (ih.expression input (by omega)) (Nat.le_refl _) fun arg rest hr => ?_
  refine within_accept (fun comma rest' hr' => ?_) hr
  refine within_bind (ih.argumentList (index + 1) rest' (by omega)) (by omega)
    fun more rest'' hr'' => ?_
  exact within_pure (by omega)

theorem endsIn_primaryIn : EndsIn 1 (n + 1) (primaryIn (n + 1)) := by
  intro input hn
  refine within_acceptAny (fun t rest hr => ?_) (Nat.le_refl _)
  have hpure : ∀ e : Expr, ((pure e : Parser Expr) rest).Within 1 input.length :=
    fun e => within_pure (by omega)
  dsimp only
  cases t.token.kind with
  | kwSuper =>
    refine within_bind (within_expect _ _ (Nat.le_refl _)) (by omega) fun dot rest' hr' => ?_
    refine within_bind (within_expect _ _ (Nat.le_refl _)) (by omega) fun method rest'' hr'' => ?_
    exact within_pure (by omega)
  | leftParen =>
    refine within_bind (ih.expression rest (by omega)) (by omega) fun inner rest' hr' => ?_
    refine within_bind (within_expect _ _ (Nat.le_refl _)) (by omega) fun closing rest'' hr'' => ?_
    exact within_pure (by omega)
  | _ => exact hpure _

end Expressions

theorem expressionsEnd (n : Nat) : ExpressionsEnd n := by
  induction n with
  | zero =>
    have hd := Level.four_le_depth
    refine ⟨?_, ?_, ?_, ?_, ?_, ?_, ?_, ?_, ?_⟩ <;> intros <;> intro input hn <;> exfalso <;>
      first | omega | (rename_i level; have := hd level; omega)
  | succ n ih =>
    exact {
      expression := endsIn_expressionIn ih
      level := endsIn_levelIn ih
      operand := endsIn_operandIn ih
      chain := endsIn_chainIn ih
      unary := endsIn_unaryIn ih
      suffixes := endsIn_suffixesIn ih
      arguments := endsIn_argumentsIn ih
      argumentList := endsIn_argumentListIn ih
      primary := endsIn_primaryIn ih }

theorem within_expression (input : List Stamped) : (expression input).Within 1 input.length :=
  (expressionsEnd _).expression input (by simp only [expressionFuel]; omega)

/-! ## Parts of statements -/

theorem within_parameterListIn (n index : Nat) (input : List Stamped) (hn : input.length < n) :
    (parameterListIn n index input).Within 1 input.length := by
  induction n generalizing index input with
  | zero => omega
  | succ n ih =>
    refine within_complainIf ?_
    refine within_bind (within_expect _ _ (Nat.le_refl _)) (Nat.le_refl _) fun param rest hr => ?_
    refine within_accept (fun comma rest' hr' => ?_) hr
    refine within_bind (ih (index + 1) rest' (by omega)) (by omega) fun more rest'' hr'' => ?_
    exact within_pure (by omega)

theorem within_parameters (input : List Stamped) : (parameters input).Within 0 input.length := by
  refine within_ahead fun stop => ?_
  cases stop with
  | true => exact within_pure (Nat.le_refl _)
  | false =>
    exact (within_parameterListIn _ 0 input (Nat.lt_succ_self _)).mono (by omega) (Nat.le_refl _)

theorem within_varDeclaration (input : List Stamped) :
    (varDeclaration input).Within 1 input.length := by
  refine within_bind (within_expect _ _ (Nat.le_refl _)) (Nat.le_refl _) fun name rest hr => ?_
  refine within_accept (fun equal rest' hr' => ?_) ?_
  · refine within_bind (within_expression rest') (by omega) fun init rest'' hr'' => ?_
    refine within_bind (within_expect _ _ (Nat.le_refl _)) (by omega) fun semicolon last hl => ?_
    exact within_pure (by omega)
  · refine within_bind (within_expect _ _ (Nat.le_refl _)) (by omega) fun semicolon last hl => ?_
    exact within_pure (by omega)

theorem within_expressionStatement (input : List Stamped) :
    (expressionStatement input).Within 1 input.length := by
  refine within_bind (within_expression input) (Nat.le_refl _) fun e rest hr => ?_
  refine within_bind (within_expect _ _ (Nat.le_refl _)) (by omega) fun semicolon last hl => ?_
  exact within_pure (by omega)

theorem within_optionalExpression (stop : TokenKind) (input : List Stamped) :
    (optionalExpression stop input).Within 0 input.length := by
  refine within_ahead fun stopped => ?_
  cases stopped with
  | true => exact within_pure (Nat.le_refl _)
  | false =>
    refine within_bind (within_expression input) (Nat.le_refl _) fun e rest hr => ?_
    exact within_pure (by omega)

theorem within_returnStatement (keyword : Token) (input : List Stamped) :
    (returnStatement keyword input).Within 1 input.length := by
  refine within_ahead fun stopped => ?_
  cases stopped with
  | true =>
    refine within_bind (within_expect _ _ (Nat.le_refl _)) (Nat.le_refl _) fun semicolon rest hr => ?_
    exact within_pure hr
  | false =>
    refine within_bind (within_expression input) (Nat.le_refl _) fun value rest hr => ?_
    refine within_bind (within_expect _ _ (Nat.le_refl _)) (by omega) fun semicolon last hl => ?_
    exact within_pure (by omega)

theorem within_forInitializer (input : List Stamped) :
    (forInitializer input).Within 1 input.length := by
  refine within_accept (fun semicolon rest hr => within_pure (by omega)) ?_
  refine within_accept (fun keyword rest hr => ?_) ?_
  · refine within_bind (within_varDeclaration rest) (by omega) fun s rest' hr' => ?_
    exact within_pure (by omega)
  · refine within_bind (within_expressionStatement input) (Nat.le_refl _) fun s rest hr => ?_
    exact within_pure hr

theorem within_superclassClause (input : List Stamped) :
    (superclassClause input).Within 0 input.length := by
  refine within_accept (fun less rest hr => ?_) (within_pure (Nat.le_refl _))
  refine within_bind (within_expect _ _ (Nat.le_refl _)) (by omega) fun name rest' hr' => ?_
  exact within_pure (by omega)

/-- Skipping to the next statement boundary takes at least one token, if there is one. -/
theorem length_synchronize (input : List Stamped) :
    (synchronize input).length ≤ input.length - 1 := by
  cases input with
  | nil => exact Nat.le_refl _
  | cons t rest => exact (synchronize_suffix t rest).length_le

theorem within_recover {p : Parser Stmt} {input : List Stamped} (hne : 0 < input.length)
    (h : (p input).Within 1 input.length) : (recover p input).Within 1 input.length := by
  simp only [recover]
  cases hp : p input with
  | ok s rest complaints =>
    rw [hp] at h
    exact h
  | fail what rest complaints =>
    rw [hp] at h
    have h : rest.length ≤ input.length := h
    have hs := length_synchronize rest
    show (synchronize rest).length + 1 ≤ input.length
    omega
  | outOfFuel =>
    rw [hp] at h
    exact h

/-! ## Statements -/

/-- `p` ends and takes `taken` tokens at least, if it is given ten steps for each token and `extra`
more. -/
def EndsTaking (taken extra n : Nat) (p : Parser α) : Prop :=
  ∀ input : List Stamped, 10 * input.length + extra ≤ n → (p input).Within taken input.length

structure StatementsEnd (n : Nat) : Prop where
  declaration : ∀ input : List Stamped, 0 < input.length → 10 * input.length + 3 ≤ n →
    (declarationIn n input).Within 1 input.length
  bareDeclaration : EndsTaking 1 2 n (bareDeclarationIn n)
  cls : EndsTaking 1 1 n (classIn n)
  methods : EndsTaking 0 2 n (methodsIn n)
  function : ∀ kind, EndsTaking 1 1 n (functionIn n kind)
  block : EndsTaking 1 5 n (blockIn n)
  declarations : EndsTaking 0 4 n (declarationsIn n)
  statement : EndsTaking 1 1 n (statementIn n)
  forLoop : EndsTaking 1 1 n (forIn n)
  branch : EndsTaking 1 1 n (ifIn n)
  whileLoop : EndsTaking 1 1 n (whileIn n)

section Statements

variable {n : Nat} (ih : StatementsEnd n)
include ih

theorem ends_declarationIn (input : List Stamped) (hne : 0 < input.length)
    (hn : 10 * input.length + 3 ≤ n + 1) : (declarationIn (n + 1) input).Within 1 input.length :=
  within_recover hne (ih.bareDeclaration input (by omega))

theorem ends_bareDeclarationIn : EndsTaking 1 2 (n + 1) (bareDeclarationIn (n + 1)) := by
  intro input hn
  refine within_acceptAny (fun t rest hr => ?_) (ih.statement input (by omega))
  dsimp only
  cases t.token.kind with
  | kwClass => exact (ih.cls rest (by omega)).mono (by omega) (by omega)
  | kwFun =>
    refine within_bind (ih.function .function rest (by omega)) (by omega) fun decl rest' hr' => ?_
    exact within_pure (by omega)
  | _ => exact (within_varDeclaration rest).mono (by omega) (by omega)

theorem ends_classIn : EndsTaking 1 1 (n + 1) (classIn (n + 1)) := by
  intro input hn
  refine within_bind (within_expect _ _ (Nat.le_refl _)) (Nat.le_refl _) fun name r₁ h₁ => ?_
  refine within_bind (within_superclassClause r₁) (by omega) fun superclass r₂ h₂ => ?_
  refine within_bind (within_expect _ _ (Nat.le_refl _)) (by omega) fun left r₃ h₃ => ?_
  refine within_bind (ih.methods r₃ (by omega)) (by omega) fun methods r₄ h₄ => ?_
  refine within_bind (within_expect _ _ (Nat.le_refl _)) (by omega) fun right r₅ h₅ => ?_
  exact within_pure (by omega)

theorem ends_methodsIn : EndsTaking 0 2 (n + 1) (methodsIn (n + 1)) := by
  intro input hn
  refine within_atBodyEnd (within_pure (Nat.le_refl _)) fun hne => ?_
  refine within_bind (ih.function .method input (by omega)) (Nat.le_refl _) fun method rest hr => ?_
  refine within_bind (ih.methods rest (by omega)) (by omega) fun more rest' hr' => ?_
  exact within_pure (by omega)

theorem ends_functionIn (kind : FunctionKind) :
    EndsTaking 1 1 (n + 1) (functionIn (n + 1) kind) := by
  intro input hn
  refine within_bind (within_expect _ _ (Nat.le_refl _)) (Nat.le_refl _) fun name r₁ h₁ => ?_
  refine within_bind (within_expect _ _ (Nat.le_refl _)) (by omega) fun opening r₂ h₂ => ?_
  refine within_bind (within_parameters r₂) (by omega) fun params r₃ h₃ => ?_
  refine within_bind (within_expect _ _ (Nat.le_refl _)) (by omega) fun closing r₄ h₄ => ?_
  refine within_bind (within_expect _ _ (Nat.le_refl _)) (by omega) fun left r₅ h₅ => ?_
  refine within_bind (ih.block r₅ (by omega)) (by omega) fun body r₆ h₆ => ?_
  exact within_pure (by omega)

theorem ends_blockIn : EndsTaking 1 5 (n + 1) (blockIn (n + 1)) := by
  intro input hn
  refine within_bind (ih.declarations input (by omega)) (Nat.le_refl _) fun body rest hr => ?_
  refine within_bind (within_expect _ _ (Nat.le_refl _)) (by omega) fun right rest' hr' => ?_
  exact within_pure (by omega)

theorem ends_declarationsIn : EndsTaking 0 4 (n + 1) (declarationsIn (n + 1)) := by
  intro input hn
  refine within_atBodyEnd (within_pure (Nat.le_refl _)) fun hne => ?_
  refine within_bind (ih.declaration input hne (by omega)) (Nat.le_refl _) fun first rest hr => ?_
  refine within_bind (ih.declarations rest (by omega)) (by omega) fun more rest' hr' => ?_
  exact within_pure (by omega)

theorem ends_statementIn : EndsTaking 1 1 (n + 1) (statementIn (n + 1)) := by
  intro input hn
  refine within_acceptAny (fun t rest hr => ?_) (within_expressionStatement input)
  have hblock : ((blockIn n >>= fun body => pure (Stmt.block body)) rest).Within 1 input.length := by
    refine within_bind (ih.block rest (by omega)) (by omega) fun body rest' hr' => ?_
    exact within_pure (by omega)
  dsimp only
  cases t.token.kind with
  | kwFor => exact (ih.forLoop rest (by omega)).mono (by omega) (by omega)
  | kwIf => exact (ih.branch rest (by omega)).mono (by omega) (by omega)
  | kwWhile => exact (ih.whileLoop rest (by omega)).mono (by omega) (by omega)
  | kwReturn => exact (within_returnStatement t.token rest).mono (by omega) (by omega)
  | _ => exact hblock

theorem ends_forIn : EndsTaking 1 1 (n + 1) (forIn (n + 1)) := by
  intro input hn
  refine within_bind (within_expect _ _ (Nat.le_refl _)) (Nat.le_refl _) fun opening r₁ h₁ => ?_
  refine within_bind (within_forInitializer r₁) (by omega) fun init r₂ h₂ => ?_
  refine within_bind (within_optionalExpression _ r₂) (by omega) fun condition r₃ h₃ => ?_
  refine within_bind (within_expect _ _ (Nat.le_refl _)) (by omega) fun semicolon r₄ h₄ => ?_
  refine within_bind (within_optionalExpression _ r₄) (by omega) fun increment r₅ h₅ => ?_
  refine within_bind (within_expect _ _ (Nat.le_refl _)) (by omega) fun closing r₆ h₆ => ?_
  refine within_bind (ih.statement r₆ (by omega)) (by omega) fun body r₇ h₇ => ?_
  exact within_pure (by omega)

theorem ends_ifIn : EndsTaking 1 1 (n + 1) (ifIn (n + 1)) := by
  intro input hn
  refine within_bind (within_expect _ _ (Nat.le_refl _)) (Nat.le_refl _) fun opening r₁ h₁ => ?_
  refine within_bind (within_expression r₁) (by omega) fun condition r₂ h₂ => ?_
  refine within_bind (within_expect _ _ (Nat.le_refl _)) (by omega) fun closing r₃ h₃ => ?_
  refine within_bind (ih.statement r₃ (by omega)) (by omega) fun yes r₄ h₄ => ?_
  refine within_accept (fun other r₅ h₅ => ?_) (within_pure (by omega))
  refine within_bind (ih.statement r₅ (by omega)) (by omega) fun no r₆ h₆ => ?_
  exact within_pure (by omega)

theorem ends_whileIn : EndsTaking 1 1 (n + 1) (whileIn (n + 1)) := by
  intro input hn
  refine within_bind (within_expect _ _ (Nat.le_refl _)) (Nat.le_refl _) fun opening r₁ h₁ => ?_
  refine within_bind (within_expression r₁) (by omega) fun condition r₂ h₂ => ?_
  refine within_bind (within_expect _ _ (Nat.le_refl _)) (by omega) fun closing r₃ h₃ => ?_
  refine within_bind (ih.statement r₃ (by omega)) (by omega) fun body r₄ h₄ => ?_
  exact within_pure (by omega)

end Statements

theorem statementsEnd (n : Nat) : StatementsEnd n := by
  induction n with
  | zero =>
    refine ⟨?_, ?_, ?_, ?_, ?_, ?_, ?_, ?_, ?_, ?_, ?_⟩ <;> intros <;> (try intro input hn) <;> omega
  | succ n ih =>
    exact {
      declaration := ends_declarationIn ih
      bareDeclaration := ends_bareDeclarationIn ih
      cls := ends_classIn ih
      methods := ends_methodsIn ih
      function := ends_functionIn ih
      block := ends_blockIn ih
      declarations := ends_declarationsIn ih
      statement := ends_statementIn ih
      forLoop := ends_forIn ih
      branch := ends_ifIn ih
      whileLoop := ends_whileIn ih }

/-! ## Programs -/

theorem within_declaration (input : List Stamped) (hne : 0 < input.length) :
    (declaration input).Within 1 input.length :=
  (statementsEnd _).declaration input hne (by simp only [declarationFuel]; omega)

theorem recover_ne_fail {p : Parser Stmt} {input rest : List Stamped} {what : Expected}
    {complaints : List Complaint} : recover p input ≠ .fail what rest complaints := by
  simp only [recover]
  cases p input <;> simp

theorem programIn_eq_ok (n : Nat) (input : List Stamped) (hn : input.length < n) :
    ∃ ss complaints, programIn n input = .ok ss [] complaints := by
  induction n generalizing input with
  | zero => omega
  | succ n ih =>
    cases input with
    | nil => exact ⟨[], [], rfl⟩
    | cons t rest =>
      have hw := within_declaration (t :: rest) (Nat.succ_pos _)
      have hrun : programIn (n + 1) (t :: rest) = after []
          ((declaration >>= fun first => programIn n >>= fun more => pure (first :: more))
            (t :: rest)) := rfl
      cases hd : declaration (t :: rest) with
      | ok first mid earlier =>
        rw [hd] at hw
        have hw : mid.length + 1 ≤ rest.length + 1 := hw
        have hmid : mid.length < n := Nat.lt_of_lt_of_le hw (Nat.le_of_lt_succ hn)
        obtain ⟨more, later, hm⟩ := ih mid hmid
        exact ⟨first :: more, _, by simp [hrun, bind_apply, pure_apply, hd, hm, after]; rfl⟩
      | fail what mid earlier => exact absurd hd recover_ne_fail
      | outOfFuel =>
        rw [hd] at hw
        exact hw.elim

/-- Every input is parsed to its end: a program may be complained about, but never fails and never
reaches the bound. -/
theorem program_eq_ok (input : List Stamped) :
    ∃ ss complaints, program input = .ok ss [] complaints :=
  programIn_eq_ok (input.length + 1) input (Nat.lt_succ_self _)

end Parser
end Lox
