import Lox.Proofs.Parse.Accepting
import Lox.Proofs.Parse.Bound
import Lox.Proofs.Parse.Phrase

/-!
# Lox.Proofs.Parse.Complete

A phrase is accepted, whatever follows it, as long as what follows cannot be taken as part of it
(`completes`). Each shape has its own list of tokens that would go on with it, and its own share of
the bound on the depth. The induction is on the phrase.

Calls are the one place where more has to be said: an assignment to a property goes on after its
object with tokens that look like one more suffix. So a call or a chain of suffixes is followed by
whatever the suffixes after it would accept.
-/

namespace Lox

/-! ## What may start and what may follow -/

/-- The first tokens of calls. -/
def callStart : List TokenKind := Constant.kinds ++ [.kwSuper, .kwThis, .identifier, .leftParen]

/-- The first tokens of expressions. -/
def expressionStart : List TokenKind := [.bang, .minus] ++ callStart

def statementStart : List TokenKind :=
  [.kwFor, .kwIf, .kwWhile, .kwReturn, .leftBrace] ++ expressionStart

def declarationStart : List TokenKind := [.kwClass, .kwFun, .kwVar] ++ statementStart

/-- The tokens that go on with a call. -/
def callFollow : List TokenKind := [.leftParen, .dot]

namespace Level

/-- The tokens that go on with an operand of a level. -/
def operandFollow : Level → List TokenKind
  | factor => callFollow
  | term => factor.operators ++ callFollow
  | comparison => term.operators ++ factor.operators ++ callFollow
  | equality => comparison.operators ++ term.operators ++ factor.operators ++ callFollow
  | and =>
    equality.operators ++ comparison.operators ++ term.operators ++ factor.operators ++ callFollow
  | or =>
    and.operators ++ equality.operators ++ comparison.operators ++ term.operators ++
      factor.operators ++ callFollow

/-- The tokens that go on with an expression of a level. -/
def follow (level : Level) : List TokenKind := level.operators ++ level.operandFollow

theorem operandFollow_of_tighter {level tighter : Level} (h : level.tighter = some tighter) :
    level.operandFollow = tighter.follow := by
  cases level <;> cases h <;> rfl

theorem operandFollow_of_tightest {level : Level} (h : level.tighter = none) :
    level.operandFollow = callFollow := by
  cases level <;> cases h <;> rfl

theorem operators_disjoint (level : Level) :
    ∀ k ∈ level.operators, k ∉ level.operandFollow := by
  cases level <;> decide

end Level

/-- The tokens that go on with an expression. -/
def expressionFollow : List TokenKind := .equal :: Level.or.follow

namespace Parser

theorem Ahead.append {kinds : List TokenKind} {u : List Stamped} (h : Ahead kinds u)
    (rest : List Stamped) : Ahead kinds (u ++ rest) := by
  cases u with
  | nil => exact absurd h (ahead_nil kinds)
  | cons t ts => exact h

/-- A token is not of two disjoint lists of kinds. -/
theorem Ahead.not_ahead {kinds others : List TokenKind} {u : List Stamped} (h : Ahead kinds u)
    (hd : ∀ k ∈ kinds, k ∉ others) : ¬ Ahead others u := by
  cases u with
  | nil => simp
  | cons t ts => exact hd _ h

theorem Ahead.mono {kinds more : List TokenKind} {u : List Stamped} (h : Ahead kinds u)
    (hs : kinds ⊆ more) : Ahead more u := by
  cases u with
  | nil => exact absurd h (ahead_nil kinds)
  | cons t ts => exact hs h

theorem not_ahead_append {kinds more : List TokenKind} {u : List Stamped}
    (h : ¬ Ahead (kinds ++ more) u) : ¬ Ahead kinds u ∧ ¬ Ahead more u :=
  ⟨not_ahead_of_subset (by simp) h, not_ahead_of_subset (by simp) h⟩

end Parser

open Lox.Parser

namespace Phrase

/-- How the phrases of a shape begin, where they cannot be empty. -/
def Starts : Shape → List Stamped → Prop
  | .expression _, u | .level _ _, u | .operand _ _, u | .unary _, u | .argumentList _ _, u
  | .expressionStatement _, u => Ahead expressionStart u
  | .call _, u | .primary _, u => Ahead callStart u
  | .parameterList _ _, u | .function _, u | .varRest _, u => Ahead [.identifier] u
  | .initializer _, u => Ahead (.semicolon :: .kwVar :: expressionStart) u
  | .statement _ _, u => Ahead statementStart u
  | .declaration _, u => Ahead declarationStart u
  | .chain l _ _, u => u = [] ∨ Ahead l.operators u
  | _, _ => True

theorem starts {shape : Shape} {u : List Stamped} (h : Phrase shape u) : Starts shape u := by
  induction h with
  | plain _ ih => exact ih
  | assign hn => simp [Starts, hn, expressionStart, callStart]
  | set _ _ _ _ _ ih => exact (Ahead.mono ih (by simp [expressionStart])).append _
  | level _ _ ih => exact Ahead.append ih _
  | operandLevel _ _ ih => exact ih
  | operandUnary _ _ ih => exact ih
  | chainStop => exact .inl rfl
  | chainStep ho => exact .inr ho
  | unary ho =>
    simp only [Starts, ahead_cons, expressionStart, List.mem_append]
    exact .inl ho
  | unaryCall _ ih => exact Ahead.mono ih (by simp [expressionStart])
  | call _ _ ih => exact Ahead.append ih _
  | argumentLast _ _ ih => exact ih
  | argumentMore _ _ _ _ ih => exact Ahead.append ih _
  | constant hk =>
    simp only [Starts, ahead_cons, callStart, List.mem_append]
    exact .inl hk
  | superRef hk => simp [Starts, hk, callStart]
  | thisRef hk => simp [Starts, hk, callStart]
  | var hk => simp [Starts, hk, callStart]
  | grouping hk => simp [Starts, hk, callStart]
  | parameterLast _ hk => simp [Starts, hk]
  | parameterMore _ hk => simp [Starts, hk]
  | function hk => simp [Starts, hk]
  | varPlain hk => simp [Starts, hk]
  | varInit hk => simp [Starts, hk]
  | expressionStatement _ _ ih => exact Ahead.append ih _
  | initializerNone hk => simp [Starts, hk]
  | initializerVar hk => simp [Starts, hk]
  | initializerExpression _ ih => exact Ahead.mono ih (by simp)
  | expressionForm _ ih => exact Ahead.mono ih (List.subset_append_right _ _)
  | forLoop hk => simp [Starts, hk, statementStart]
  | ifThen hk => simp [Starts, hk, statementStart]
  | ifElse hk => simp [Starts, hk, statementStart]
  | whileLoop hk => simp [Starts, hk, statementStart]
  | ret hk => simp [Starts, hk, statementStart]
  | block hk => simp [Starts, hk, statementStart]
  | classDeclaration hk => simp [Starts, hk, declarationStart]
  | functionDeclaration hk => simp [Starts, hk, declarationStart]
  | varDeclaration hk => simp [Starts, hk, declarationStart]
  | statement _ ih => exact Ahead.mono ih (List.subset_append_right _ _)
  | _ => trivial

end Phrase

namespace Parser

/-! ## Climbing from a call to an expression -/

section Climb

variable {input rest : List Stamped} {e : Expr}

theorem accepts_suffixesIn_stop (n : Nat) (h : ¬ Ahead callFollow rest) :
    Accepts (suffixesIn (n + 1) e) rest e rest := by
  have h1 : ¬ Ahead [.leftParen] rest := not_ahead_of_subset (by decide) h
  have h2 : ¬ Ahead [.dot] rest := not_ahead_of_subset (by decide) h
  exact .bind (accepts_accept_none.2 ⟨rfl, h1⟩)
    (.bind (accepts_accept_none.2 ⟨rfl, h2⟩) (accepts_pure.2 ⟨rfl, rfl⟩))

theorem accepts_chainIn_stop (n : Nat) (level : Level) (h : ¬ Ahead level.operators rest) :
    Accepts (chainIn (n + 1) level e) rest e rest :=
  .bind (accepts_acceptAny_none.2 ⟨rfl, h⟩) (accepts_pure.2 ⟨rfl, rfl⟩)

/-- A call where an expression without a sign is expected. -/
theorem accepts_unaryIn_of_call {n : Nat} (hstart : Ahead callStart input)
    (h : Accepts (primaryIn n >>= suffixesIn n) input e rest) :
    Accepts (unaryIn (n + 1)) input e rest :=
  .bind (accepts_acceptAny_none.2 ⟨rfl, hstart.not_ahead (by decide)⟩) h

theorem accepts_levelIn_of_operand {n : Nat} {level : Level}
    (hfollow : ¬ Ahead level.operators rest)
    (h : Accepts (operandIn (n + 1) level) input e rest) :
    Accepts (levelIn (n + 2) level) input e rest :=
  h.bind (accepts_chainIn_stop n level hfollow)

theorem accepts_operandIn_of_level {n : Nat} {level tighter : Level}
    (ht : level.tighter = some tighter) (h : Accepts (levelIn n tighter) input e rest) :
    Accepts (operandIn (n + 1) level) input e rest := by
  simpa only [Production.operandIn, ht] using h

theorem accepts_operandIn_of_unary {n : Nat} {level : Level} (ht : level.tighter = none)
    (h : Accepts (unaryIn n) input e rest) : Accepts (operandIn (n + 1) level) input e rest := by
  simpa only [Production.operandIn, ht] using h

/-- A call where an expression of the loosest level is expected. -/
theorem accepts_levelIn_of_call {n : Nat} (hstart : Ahead callStart input)
    (hfollow : ¬ Ahead Level.or.follow rest)
    (h : Accepts (primaryIn n >>= suffixesIn n) input e rest) :
    Accepts (levelIn (n + 13) .or) input e rest := by
  have hnot (level : Level) : ¬ Ahead level.operators rest :=
    not_ahead_of_subset (by cases level <;> decide) hfollow
  have hfactor : Accepts (levelIn (n + 3) .factor) input e rest :=
    accepts_levelIn_of_operand (hnot _)
      (accepts_operandIn_of_unary rfl (accepts_unaryIn_of_call hstart h))
  have climb {m : Nat} (level : Level) {tighter : Level} (ht : level.tighter = some tighter)
      (h : Accepts (levelIn m tighter) input e rest) :
      Accepts (levelIn (m + 2) level) input e rest :=
    accepts_levelIn_of_operand (hnot _) (accepts_operandIn_of_level ht h)
  have hcomparison := climb .comparison rfl (climb .term rfl hfactor)
  exact climb .or rfl (climb .and rfl (climb .equality rfl hcomparison))

end Climb

/-! ## Phrases are accepted -/

/-- The parser of a shape accepts these tokens as its tree within the bound for their number,
whatever follows that does not go on with the shape. -/
def Completes : Shape → List Stamped → Prop
  | .expression e, u => ∀ n rest, 20 * u.length + 15 ≤ n → ¬ Ahead expressionFollow rest →
      Accepts (expressionIn n) (u ++ rest) e rest
  | .level level e, u => ∀ n rest, 20 * u.length + level.depth ≤ n → ¬ Ahead level.follow rest →
      Accepts (levelIn n level) (u ++ rest) e rest
  | .operand level e, u => ∀ n rest, 20 * u.length + level.depth ≤ n + 1 →
      ¬ Ahead level.operandFollow rest → Accepts (operandIn n level) (u ++ rest) e rest
  | .chain level left e, u => ∀ n rest, 20 * u.length + 1 ≤ n → ¬ Ahead level.follow rest →
      Accepts (chainIn n level left) (u ++ rest) e rest
  | .unary e, u => ∀ n rest, 20 * u.length + 2 ≤ n → ¬ Ahead callFollow rest →
      Accepts (unaryIn n) (u ++ rest) e rest
  | .call e, u => ∀ n k rest e' rest', 20 * u.length + k ≤ n →
      (∀ m, k ≤ m → Accepts (suffixesIn m e) rest e' rest') →
      Accepts (primaryIn n >>= suffixesIn n) (u ++ rest) e' rest'
  | .suffixes callee e, u => ∀ n k rest e' rest', 20 * u.length + k ≤ n →
      (∀ m, k ≤ m → Accepts (suffixesIn m e) rest e' rest') →
      Accepts (suffixesIn n callee) (u ++ rest) e' rest'
  | .arguments args, u => ∀ n rest, 20 * u.length + 17 ≤ n → Ahead [.rightParen] rest →
      Accepts (argumentsIn n) (u ++ rest) args rest
  | .argumentList index args, u => ∀ n rest, 20 * u.length + 16 ≤ n → Ahead [.rightParen] rest →
      Accepts (argumentListIn n index) (u ++ rest) args rest
  | .primary e, u => ∀ n rest, 20 * u.length ≤ n → Accepts (primaryIn n) (u ++ rest) e rest
  | .optional e, u => ∀ stop rest, stop = .semicolon ∨ stop = .rightParen → Ahead [stop] rest →
      Accepts (optionalExpression stop) (u ++ rest) e rest
  | .superclass e, u => ∀ rest, Ahead [.leftBrace] rest →
      Accepts superclassClause (u ++ rest) e rest
  | .parameters params, u => ∀ rest, Ahead [.rightParen] rest →
      Accepts parameters (u ++ rest) params rest
  | .parameterList index params, u => ∀ n rest, u.length ≤ n → Ahead [.rightParen] rest →
      Accepts (parameterListIn n index) (u ++ rest) params rest
  | .function decl, u => ∀ n kind rest, 10 * u.length ≤ n →
      Accepts (functionIn n kind) (u ++ rest) decl rest
  | .methods decls, u => ∀ n rest, 10 * u.length + 1 ≤ n → Ahead [.rightBrace] rest →
      Accepts (methodsIn n) (u ++ rest) decls rest
  | .varRest s, u => ∀ rest, Accepts Parser.varDeclaration (u ++ rest) s rest
  | .expressionStatement s, u => ∀ rest, Accepts Parser.expressionStatement (u ++ rest) s rest
  | .initializer s, u => ∀ rest, Accepts forInitializer (u ++ rest) s rest
  | .statement isOpen s, u => ∀ n rest, 10 * u.length + 1 ≤ n →
      (isOpen = true → ¬ Ahead [.kwElse] rest) → Accepts (statementIn n) (u ++ rest) s rest
  | .declaration s, u => ∀ n rest, 10 * u.length + 3 ≤ n → ¬ Ahead [.kwElse] rest →
      Accepts (declarationIn n) (u ++ rest) s rest
  | .declarations ss, u => ∀ n rest, 10 * u.length + 4 ≤ n → Ahead [.rightBrace] rest →
      Accepts (declarationsIn n) (u ++ rest) ss rest

/-- What may follow a phrase of a level may follow its operands, the operators between them
included. -/
theorem not_operandFollow {level : Level} {left e : Expr} {v rest : List Stamped}
    (hv : Phrase (.chain level left e) v) (h : ¬ Ahead level.follow rest) :
    ¬ Ahead level.operandFollow (v ++ rest) := by
  obtain rfl | hv := hv.starts
  · exact (not_ahead_append h).2
  · exact (hv.append rest).not_ahead level.operators_disjoint

theorem length_pos_of_ahead {kinds : List TokenKind} {u : List Stamped} (h : Ahead kinds u) :
    0 < u.length := by
  cases u with
  | nil => exact absurd h (ahead_nil kinds)
  | cons t ts => simp

/-! ### Expressions -/

section Expressions

variable {e value left right object : Expr} {u v : List Stamped}

theorem completes_plain (ih : Completes (.level .or e) u) : Completes (.expression e) u := by
  intro n rest hn hrest
  obtain ⟨n, rfl⟩ : ∃ m, n = m + 1 := ⟨n - 1, by omega⟩
  have hequal : ¬ Ahead [.equal] rest := not_ahead_of_subset (by decide) hrest
  have hfollow : ¬ Ahead Level.or.follow rest := not_ahead_of_subset (by simp [expressionFollow]) hrest
  refine (ih n rest ?_ hfollow).bind
    (.bind (accepts_remaining.2 ⟨rfl, rfl⟩)
      (.bind (accepts_accept_none.2 ⟨rfl, hequal⟩) (accepts_pure.2 ⟨rfl, rfl⟩)))
  simp only [Level.depth]
  omega

/-- An equals sign goes on with no operator expression. -/
theorem not_ahead_equal {equal : Stamped} (he : equal.token.kind = .equal) (rest : List Stamped) :
    ¬ Ahead Level.or.follow (equal :: rest) := by
  rw [ahead_cons, he]
  decide

theorem completes_assign {name equal : Stamped} (hn : name.token.kind = .identifier)
    (he : equal.token.kind = .equal) (ih : Completes (.expression value) v) :
    Completes (.expression (.assign name.id name.token value)) (name :: equal :: v) := by
  intro n rest hlen hrest
  simp only [List.length_cons] at hlen
  obtain ⟨n, rfl⟩ : ∃ m, n = m + 16 := ⟨n - 16, by omega⟩
  have hvar : Accepts (primaryIn (n + 2)) (name :: equal :: (v ++ rest)) (.var name.id name.token)
      (equal :: (v ++ rest)) := by
    refine .bind (accepts_acceptAny_some.2 ⟨rfl, by simp [hn]⟩) ?_
    simp only [hn, reference_eq, accepts_pure, and_self]
  have hstop : ¬ Ahead callFollow (equal :: (v ++ rest)) := by simp [callFollow, he]
  have htarget := accepts_levelIn_of_call (by simp [callStart, hn]) (not_ahead_equal he (v ++ rest))
    (hvar.bind (accepts_suffixesIn_stop (n + 1) hstop))
  refine htarget.bind (.bind (accepts_remaining.2 ⟨rfl, rfl⟩)
    (.bind (accepts_accept_some.2 ⟨rfl, he⟩) ((ih (n + 15) rest ?_ hrest).bind
      (accepts_pure.2 ⟨rfl, rfl⟩))))
  omega

theorem completes_set {dot name equal : Stamped} (ho : Phrase (.call object) u)
    (hd : dot.token.kind = .dot) (hn : name.token.kind = .identifier)
    (he : equal.token.kind = .equal) (iho : Completes (.call object) u)
    (ihv : Completes (.expression value) v) :
    Completes (.expression (.set object name.token value)) (u ++ dot :: name :: equal :: v) := by
  intro n rest hlen hrest
  simp only [List.length_append, List.length_cons] at hlen
  have hu := length_pos_of_ahead ho.starts
  obtain ⟨n, rfl⟩ : ∃ m, n = m + 14 := ⟨n - 14, by omega⟩
  simp only [List.append_assoc, List.cons_append]
  have hstop : ¬ Ahead callFollow (equal :: (v ++ rest)) := by simp [callFollow, he]
  have hget (m : Nat) (hm : 2 ≤ m) :
      Accepts (suffixesIn m object) (dot :: name :: equal :: (v ++ rest)) (.get object name.token)
        (equal :: (v ++ rest)) := by
    obtain ⟨m, rfl⟩ : ∃ k, m = k + 2 := ⟨m - 2, by omega⟩
    exact .bind (accepts_accept_none.2 ⟨rfl, by simp [hd]⟩)
      (.bind (accepts_accept_some.2 ⟨rfl, hd⟩) (.bind (accepts_expect.2 ⟨rfl, hn⟩)
        (accepts_suffixesIn_stop m hstop)))
  have htarget := accepts_levelIn_of_call (Ahead.append ho.starts _)
    (not_ahead_equal he (v ++ rest)) (iho n 2 _ _ _ (by omega) hget)
  refine htarget.bind (.bind (accepts_remaining.2 ⟨rfl, rfl⟩)
    (.bind (accepts_accept_some.2 ⟨rfl, he⟩) ((ihv (n + 13) rest ?_ hrest).bind
      (accepts_pure.2 ⟨rfl, rfl⟩))))
  omega

theorem completes_level {level : Level} {first : Expr} (hfirst : Phrase (.operand level first) u)
    (hv : Phrase (.chain level first e) v) (ihu : Completes (.operand level first) u)
    (ihv : Completes (.chain level first e) v) : Completes (.level level e) (u ++ v) := by
  intro n rest hn hrest
  have hu := length_pos_of_ahead hfirst.starts
  have hdepth : 0 < level.depth := by cases level <;> decide
  simp only [List.length_append] at hn
  obtain ⟨n, rfl⟩ : ∃ m, n = m + 1 := ⟨n - 1, by omega⟩
  rw [List.append_assoc]
  exact (ihu n (v ++ rest) (by omega) (not_operandFollow hv hrest)).bind
    (ihv n rest (by omega) hrest)

theorem completes_operandLevel {level tighter : Level} (ht : level.tighter = some tighter)
    (ih : Completes (.level tighter e) u) : Completes (.operand level e) u := by
  intro n rest hn hrest
  rw [Level.depth_tighter ht] at hn
  obtain ⟨n, rfl⟩ : ∃ m, n = m + 1 := ⟨n - 1, by omega⟩
  rw [Level.operandFollow_of_tighter ht] at hrest
  exact accepts_operandIn_of_level ht (ih n rest (by omega) hrest)

theorem completes_operandUnary {level : Level} (ht : level.tighter = none)
    (ih : Completes (.unary e) u) : Completes (.operand level e) u := by
  intro n rest hn hrest
  rw [Level.depth_of_tightest ht] at hn
  obtain ⟨n, rfl⟩ : ∃ m, n = m + 1 := ⟨n - 1, by omega⟩
  rw [Level.operandFollow_of_tightest ht] at hrest
  exact accepts_operandIn_of_unary ht (ih n rest (by omega) hrest)

theorem completes_chainStep {level : Level} {operator : Stamped}
    (ho : operator.token.kind ∈ level.operators)
    (hv : Phrase (.chain level (level.combine left operator.token right) e) v)
    (ihu : Completes (.operand level right) u)
    (ihv : Completes (.chain level (level.combine left operator.token right) e) v) :
    Completes (.chain level left e) (operator :: (u ++ v)) := by
  intro n rest hn hrest
  simp only [List.length_cons, List.length_append] at hn
  have hdepth : level.depth ≤ 14 := by cases level <;> decide
  obtain ⟨n, rfl⟩ : ∃ m, n = m + 1 := ⟨n - 1, by omega⟩
  simp only [List.cons_append, List.append_assoc]
  exact .bind (accepts_acceptAny_some.2 ⟨rfl, ho⟩)
    ((ihu n (v ++ rest) (by omega) (not_operandFollow hv hrest)).bind
      (ihv n rest (by omega) hrest))

theorem completes_unary {operator : Stamped}
    (ho : operator.token.kind ∈ [TokenKind.bang, TokenKind.minus]) (ih : Completes (.unary e) u) :
    Completes (.unary (.unary operator.token e)) (operator :: u) := by
  intro n rest hn hrest
  simp only [List.length_cons] at hn
  obtain ⟨n, rfl⟩ : ∃ m, n = m + 1 := ⟨n - 1, by omega⟩
  exact .bind (accepts_acceptAny_some.2 ⟨rfl, ho⟩)
    ((ih n rest (by omega) hrest).bind (accepts_pure.2 ⟨rfl, rfl⟩))

theorem completes_unaryCall (h : Phrase (.call e) u) (ih : Completes (.call e) u) :
    Completes (.unary e) u := by
  intro n rest hn hrest
  obtain ⟨n, rfl⟩ : ∃ m, n = m + 1 := ⟨n - 1, by omega⟩
  refine accepts_unaryIn_of_call (Ahead.append h.starts rest) (ih n 1 rest e rest (by omega) ?_)
  intro m hm
  obtain ⟨m, rfl⟩ : ∃ k, m = k + 1 := ⟨m - 1, by omega⟩
  exact accepts_suffixesIn_stop m hrest

theorem completes_call {first : Expr} (ihu : Completes (.primary first) u)
    (ihv : Completes (.suffixes first e) v) : Completes (.call e) (u ++ v) := by
  intro n k rest e' rest' hn hafter
  simp only [List.length_append] at hn
  rw [List.append_assoc]
  exact (ihu n (v ++ rest) (by omega)).bind (ihv n k rest e' rest' (by omega) hafter)

theorem completes_suffixesCall {callee : Expr} {opening paren : Stamped} {args : List Expr}
    (ho : opening.token.kind = .leftParen) (hp : paren.token.kind = .rightParen)
    (ihu : Completes (.arguments args) u)
    (ihv : Completes (.suffixes (.call callee paren.token args) e) v) :
    Completes (.suffixes callee e) (opening :: (u ++ paren :: v)) := by
  intro n k rest e' rest' hn hafter
  simp only [List.length_cons, List.length_append] at hn
  obtain ⟨n, rfl⟩ : ∃ m, n = m + 1 := ⟨n - 1, by omega⟩
  simp only [List.cons_append, List.append_assoc]
  exact .bind (accepts_accept_some.2 ⟨rfl, ho⟩)
    ((ihu n (paren :: (v ++ rest)) (by omega) (by simp [hp])).bind
      (.bind (accepts_expect.2 ⟨rfl, hp⟩) (ihv n k rest e' rest' (by omega) hafter)))

theorem completes_suffixesGet {dot name : Stamped} (hd : dot.token.kind = .dot)
    (hn : name.token.kind = .identifier)
    (ih : Completes (.suffixes (.get object name.token) e) u) :
    Completes (.suffixes object e) (dot :: name :: u) := by
  intro n k rest e' rest' hlen hafter
  simp only [List.length_cons] at hlen
  obtain ⟨n, rfl⟩ : ∃ m, n = m + 1 := ⟨n - 1, by omega⟩
  simp only [List.cons_append]
  exact .bind (accepts_accept_none.2 ⟨rfl, by simp [hd]⟩)
    (.bind (accepts_accept_some.2 ⟨rfl, hd⟩) (.bind (accepts_expect.2 ⟨rfl, hn⟩)
      (ih n k rest e' rest' (by omega) hafter)))

theorem completes_argumentsNone : Completes (.arguments []) [] := by
  intro n rest hn hrest
  obtain ⟨n, rfl⟩ : ∃ m, n = m + 1 := ⟨n - 1, by omega⟩
  exact .bind (accepts_ahead (b := true).2 ⟨by simpa using hrest, rfl⟩)
    (accepts_pure.2 ⟨rfl, rfl⟩)

theorem completes_argumentsSome {args : List Expr} (h : Phrase (.argumentList 0 args) u)
    (ih : Completes (.argumentList 0 args) u) : Completes (.arguments args) u := by
  intro n rest hn hrest
  obtain ⟨n, rfl⟩ : ∃ m, n = m + 1 := ⟨n - 1, by omega⟩
  have hstart : ¬ Ahead [.rightParen] (u ++ rest) :=
    (Ahead.append h.starts rest).not_ahead (by decide)
  exact .bind (accepts_ahead (b := false).2 ⟨by simpa using hstart, rfl⟩)
    (ih n rest (by omega) hrest)

theorem completes_argumentLast {index : Nat} (hi : index < maxArity)
    (ih : Completes (.expression e) u) : Completes (.argumentList index [e]) u := by
  intro n rest hn hrest
  obtain ⟨n, rfl⟩ : ∃ m, n = m + 1 := ⟨n - 1, by omega⟩
  exact .bind (accepts_complainIf (u := ()).2 ⟨by simpa using hi, rfl⟩)
    ((ih n rest (by omega) (hrest.not_ahead (by decide))).bind
      (.bind (accepts_accept_none.2 ⟨rfl, hrest.not_ahead (by decide)⟩)
        (accepts_pure.2 ⟨rfl, rfl⟩)))

theorem completes_argumentMore {index : Nat} {es : List Expr} {comma : Stamped}
    (hi : index < maxArity) (hc : comma.token.kind = .comma) (ihu : Completes (.expression e) u)
    (ihv : Completes (.argumentList (index + 1) es) v) :
    Completes (.argumentList index (e :: es)) (u ++ comma :: v) := by
  intro n rest hn hrest
  simp only [List.length_append, List.length_cons] at hn
  obtain ⟨n, rfl⟩ : ∃ m, n = m + 1 := ⟨n - 1, by omega⟩
  simp only [List.append_assoc, List.cons_append]
  have hcomma : ¬ Ahead expressionFollow (comma :: (v ++ rest)) := by
    rw [ahead_cons, hc]
    decide
  exact .bind (accepts_complainIf (u := ()).2 ⟨by simpa using hi, rfl⟩)
    ((ihu n _ (by omega) hcomma).bind (.bind (accepts_accept_some.2 ⟨rfl, hc⟩)
      ((ihv n rest (by omega) hrest).bind (accepts_pure.2 ⟨rfl, rfl⟩))))

theorem completes_constant {t : Stamped} (hk : t.token.kind ∈ Constant.kinds) :
    Completes (.primary (.constant (.ofConstantToken t.token))) [t] := by
  intro n rest hn
  simp only [List.length_singleton] at hn
  obtain ⟨n, rfl⟩ : ∃ m, n = m + 1 := ⟨n - 1, by omega⟩
  simp only [Constant.kinds, List.mem_cons, List.not_mem_nil, or_false] at hk
  refine .bind (accepts_acceptAny_some.2 ⟨rfl, ?_⟩) ?_
  · obtain hk | hk | hk | hk | hk := hk <;> simp [hk]
  · obtain hk | hk | hk | hk | hk := hk <;> simp [hk, Constant.ofConstantToken]

theorem completes_superRef {keyword dot method : Stamped} (hk : keyword.token.kind = .kwSuper)
    (hd : dot.token.kind = .dot) (hm : method.token.kind = .identifier) :
    Completes (.primary (.superRef keyword.id keyword.token method.token))
      [keyword, dot, method] := by
  intro n rest hn
  simp only [List.length_cons] at hn
  obtain ⟨n, rfl⟩ : ∃ m, n = m + 1 := ⟨n - 1, by omega⟩
  refine .bind (accepts_acceptAny_some.2 ⟨rfl, by simp [hk]⟩) ?_
  simp only [hk]
  exact .bind (accepts_expect.2 ⟨rfl, hd⟩)
    (.bind (accepts_expect.2 ⟨rfl, hm⟩) (accepts_pure.2 ⟨rfl, rfl⟩))

theorem completes_thisRef {keyword : Stamped} (hk : keyword.token.kind = .kwThis) :
    Completes (.primary (.thisRef keyword.id keyword.token)) [keyword] := by
  intro n rest hn
  simp only [List.length_singleton] at hn
  obtain ⟨n, rfl⟩ : ∃ m, n = m + 1 := ⟨n - 1, by omega⟩
  refine .bind (accepts_acceptAny_some.2 ⟨rfl, by simp [hk]⟩) ?_
  simp only [hk]
  exact accepts_pure.2 ⟨rfl, rfl⟩

theorem completes_var {name : Stamped} (hk : name.token.kind = .identifier) :
    Completes (.primary (.var name.id name.token)) [name] := by
  intro n rest hn
  simp only [List.length_singleton] at hn
  obtain ⟨n, rfl⟩ : ∃ m, n = m + 1 := ⟨n - 1, by omega⟩
  refine .bind (accepts_acceptAny_some.2 ⟨rfl, by simp [hk]⟩) ?_
  simp only [hk]
  exact accepts_pure.2 ⟨rfl, rfl⟩

/-- A closing token goes on with no expression. -/
theorem not_expressionFollow {t : Stamped} {kind : TokenKind} (hk : t.token.kind = kind)
    (hkind : kind ∉ expressionFollow) (rest : List Stamped) :
    ¬ Ahead expressionFollow (t :: rest) := by
  rwa [ahead_cons, hk]

theorem completes_grouping {opening closing : Stamped} (ho : opening.token.kind = .leftParen)
    (hc : closing.token.kind = .rightParen) (ih : Completes (.expression e) u) :
    Completes (.primary (.grouping e)) (opening :: (u ++ [closing])) := by
  intro n rest hn
  simp only [List.length_cons, List.length_append, List.length_nil] at hn
  obtain ⟨n, rfl⟩ : ∃ m, n = m + 1 := ⟨n - 1, by omega⟩
  simp only [List.cons_append, List.append_assoc, List.nil_append]
  refine .bind (accepts_acceptAny_some.2 ⟨rfl, by simp [ho]⟩) ?_
  simp only [ho]
  exact (ih n _ (by omega) (not_expressionFollow hc (by decide) rest)).bind
    (.bind (accepts_expect.2 ⟨rfl, hc⟩) (accepts_pure.2 ⟨rfl, rfl⟩))

/-- With the bound that the length of the input gives. -/
theorem accepts_expression_of_completes (ih : Completes (.expression e) u) {rest : List Stamped}
    (hrest : ¬ Ahead expressionFollow rest) : Accepts expression (u ++ rest) e rest := by
  rw [accepts_expression]
  refine ih _ rest ?_ hrest
  simp only [expressionFuel, List.length_append]
  omega

theorem completes_optionalNone : Completes (.optional none) [] := by
  intro stop rest hstop hrest
  exact .bind (accepts_ahead (b := true).2 ⟨by simpa using hrest, rfl⟩)
    (accepts_pure.2 ⟨rfl, rfl⟩)

theorem completes_optionalSome (h : Phrase (.expression e) u) (ih : Completes (.expression e) u) :
    Completes (.optional (some e)) u := by
  intro stop rest hstop hrest
  have hstart : ¬ Ahead [stop] (u ++ rest) := by
    obtain rfl | rfl := hstop <;> exact (Ahead.append h.starts rest).not_ahead (by decide)
  have hfollow : ¬ Ahead expressionFollow rest := by
    obtain rfl | rfl := hstop <;> exact hrest.not_ahead (by decide)
  exact .bind (accepts_ahead (b := false).2 ⟨by simpa using hstart, rfl⟩)
    ((accepts_expression_of_completes ih hfollow).bind (accepts_pure.2 ⟨rfl, rfl⟩))

end Expressions

/-! ### Clauses -/

section Clauses

variable {u v : List Stamped}

theorem completes_superclassNone : Completes (.superclass none) [] := by
  intro rest hrest
  exact .bind (accepts_accept_none.2 ⟨rfl, hrest.not_ahead (by decide)⟩)
    (accepts_pure.2 ⟨rfl, rfl⟩)

theorem completes_superclassSome {less name : Stamped} (hl : less.token.kind = .less)
    (hn : name.token.kind = .identifier) :
    Completes (.superclass (some (.var name.id name.token))) [less, name] := by
  intro rest hrest
  exact .bind (accepts_accept_some.2 ⟨rfl, hl⟩)
    (.bind (accepts_expect.2 ⟨rfl, hn⟩) (accepts_pure.2 ⟨rfl, rfl⟩))

theorem completes_parametersNone : Completes (.parameters []) [] := by
  intro rest hrest
  exact .bind (accepts_ahead (b := true).2 ⟨by simpa using hrest, rfl⟩)
    (accepts_pure.2 ⟨rfl, rfl⟩)

theorem completes_parametersSome {params : List Token} (h : Phrase (.parameterList 0 params) u)
    (ih : Completes (.parameterList 0 params) u) : Completes (.parameters params) u := by
  intro rest hrest
  have hstart : ¬ Ahead [.rightParen] (u ++ rest) :=
    (Ahead.append h.starts rest).not_ahead (by decide)
  refine .bind (accepts_ahead (b := false).2 ⟨by simpa using hstart, rfl⟩)
    (ih _ rest ?_ hrest)
  simp only [List.length_append]
  omega

theorem completes_parameterLast {index : Nat} {param : Stamped} (hi : index < maxArity)
    (hp : param.token.kind = .identifier) :
    Completes (.parameterList index [param.token]) [param] := by
  intro n rest hn hrest
  simp only [List.length_singleton] at hn
  obtain ⟨n, rfl⟩ : ∃ m, n = m + 1 := ⟨n - 1, by omega⟩
  exact .bind (accepts_complainIf (u := ()).2 ⟨by simpa using hi, rfl⟩)
    (.bind (accepts_expect.2 ⟨rfl, hp⟩)
      (.bind (accepts_accept_none.2 ⟨rfl, hrest.not_ahead (by decide)⟩)
        (accepts_pure.2 ⟨rfl, rfl⟩)))

theorem completes_parameterMore {index : Nat} {param comma : Stamped} {params : List Token}
    (hi : index < maxArity) (hp : param.token.kind = .identifier)
    (hc : comma.token.kind = .comma) (ih : Completes (.parameterList (index + 1) params) u) :
    Completes (.parameterList index (param.token :: params)) (param :: comma :: u) := by
  intro n rest hn hrest
  simp only [List.length_cons] at hn
  obtain ⟨n, rfl⟩ : ∃ m, n = m + 1 := ⟨n - 1, by omega⟩
  exact .bind (accepts_complainIf (u := ()).2 ⟨by simpa using hi, rfl⟩)
    (.bind (accepts_expect.2 ⟨rfl, hp⟩) (.bind (accepts_accept_some.2 ⟨rfl, hc⟩)
      ((ih n rest (by omega) hrest).bind (accepts_pure.2 ⟨rfl, rfl⟩))))

theorem completes_varPlain {name semicolon : Stamped} (hn : name.token.kind = .identifier)
    (hs : semicolon.token.kind = .semicolon) :
    Completes (.varRest (.var name.token none)) [name, semicolon] := by
  intro rest
  exact .bind (accepts_expect.2 ⟨rfl, hn⟩)
    (.bind (accepts_accept_none.2 ⟨rfl, by simp [hs]⟩)
      (.bind (accepts_expect.2 ⟨rfl, hs⟩) (accepts_pure.2 ⟨rfl, rfl⟩)))

theorem completes_varInit {name equal semicolon : Stamped} {e : Expr}
    (hn : name.token.kind = .identifier) (he : equal.token.kind = .equal)
    (hs : semicolon.token.kind = .semicolon) (ih : Completes (.expression e) u) :
    Completes (.varRest (.var name.token (some e))) (name :: equal :: (u ++ [semicolon])) := by
  intro rest
  simp only [List.cons_append, List.append_assoc, List.nil_append]
  have hfollow := not_expressionFollow hs (by decide) rest
  exact .bind (accepts_expect.2 ⟨rfl, hn⟩) (.bind (accepts_accept_some.2 ⟨rfl, he⟩)
    ((accepts_expression_of_completes ih hfollow).bind
      (.bind (accepts_expect.2 ⟨rfl, hs⟩) (accepts_pure.2 ⟨rfl, rfl⟩))))

theorem completes_expressionStatement {e : Expr} {semicolon : Stamped}
    (hs : semicolon.token.kind = .semicolon) (ih : Completes (.expression e) u) :
    Completes (.expressionStatement (.expression e)) (u ++ [semicolon]) := by
  intro rest
  simp only [List.append_assoc, List.cons_append, List.nil_append]
  have hfollow := not_expressionFollow hs (by decide) rest
  exact (accepts_expression_of_completes ih hfollow).bind
    (.bind (accepts_expect.2 ⟨rfl, hs⟩) (accepts_pure.2 ⟨rfl, rfl⟩))

theorem completes_initializerNone {semicolon : Stamped} (hs : semicolon.token.kind = .semicolon) :
    Completes (.initializer none) [semicolon] := by
  intro rest
  exact .bind (accepts_accept_some.2 ⟨rfl, hs⟩) (accepts_pure.2 ⟨rfl, rfl⟩)

theorem completes_initializerVar {keyword : Stamped} {s : Stmt}
    (hk : keyword.token.kind = .kwVar) (ih : Completes (.varRest s) u) :
    Completes (.initializer (some s)) (keyword :: u) := by
  intro rest
  exact .bind (accepts_accept_none.2 ⟨rfl, by simp [hk]⟩)
    (.bind (accepts_accept_some.2 ⟨rfl, hk⟩) ((ih rest).bind (accepts_pure.2 ⟨rfl, rfl⟩)))

theorem completes_initializerExpression {s : Stmt} (h : Phrase (.expressionStatement s) u)
    (ih : Completes (.expressionStatement s) u) : Completes (.initializer (some s)) u := by
  intro rest
  have hstart := Ahead.append h.starts rest
  exact .bind (accepts_accept_none.2 ⟨rfl, hstart.not_ahead (by decide)⟩)
    (.bind (accepts_accept_none.2 ⟨rfl, hstart.not_ahead (by decide)⟩)
      ((ih rest).bind (accepts_pure.2 ⟨rfl, rfl⟩)))

end Clauses

/-! ### Statements and declarations -/

section Statements

variable {u v w x : List Stamped}

theorem completes_function {name opening closing left right : Stamped} {params : List Token}
    {body : List Stmt} (hn : name.token.kind = .identifier) (ho : opening.token.kind = .leftParen)
    (hc : closing.token.kind = .rightParen) (hl : left.token.kind = .leftBrace)
    (hr : right.token.kind = .rightBrace) (ihu : Completes (.parameters params) u)
    (ihv : Completes (.declarations body) v) :
    Completes (.function ⟨name.token, params, body⟩)
      (name :: opening :: (u ++ closing :: left :: (v ++ [right]))) := by
  intro n kind rest hlen
  simp only [List.length_cons, List.length_append, List.length_nil] at hlen
  obtain ⟨n, rfl⟩ : ∃ m, n = m + 2 := ⟨n - 2, by omega⟩
  simp only [List.cons_append, List.append_assoc, List.nil_append]
  have hbody : Accepts (blockIn (n + 1)) (v ++ right :: rest) body rest :=
    (ihv n _ (by omega) (by simp [hr])).bind
      (.bind (accepts_expect.2 ⟨rfl, hr⟩) (accepts_pure.2 ⟨rfl, rfl⟩))
  exact .bind (accepts_expect.2 ⟨rfl, hn⟩) (.bind (accepts_expect.2 ⟨rfl, ho⟩)
    ((ihu _ (by simp [hc])).bind (.bind (accepts_expect.2 ⟨rfl, hc⟩)
      (.bind (accepts_expect.2 ⟨rfl, hl⟩) (hbody.bind (accepts_pure.2 ⟨rfl, rfl⟩))))))

theorem completes_methodsNone : Completes (.methods []) [] := by
  intro n rest hn hrest
  obtain ⟨n, rfl⟩ : ∃ m, n = m + 1 := ⟨n - 1, by omega⟩
  exact .bind (accepts_atBodyEnd (b := true).2 ⟨by simp [hrest], rfl⟩)
    (accepts_pure.2 ⟨rfl, rfl⟩)

/-- A body goes on where the next token starts something. -/
theorem accepts_atBodyEnd_of_ahead {kinds : List TokenKind} {input : List Stamped}
    (h : Ahead kinds input) (hd : ∀ k ∈ kinds, k ∉ [TokenKind.rightBrace]) :
    Accepts atBodyEnd input false input := by
  have hbrace := h.not_ahead hd
  have hne : input ≠ [] := by
    rintro rfl
    exact ahead_nil kinds h
  exact accepts_atBodyEnd.2 ⟨by simp [hne, hbrace], rfl⟩

theorem completes_methodsMore {decl : FunctionDecl} {decls : List FunctionDecl}
    (h : Phrase (.function decl) u) (ihu : Completes (.function decl) u)
    (ihv : Completes (.methods decls) v) : Completes (.methods (decl :: decls)) (u ++ v) := by
  intro n rest hn hrest
  have hu := length_pos_of_ahead h.starts
  simp only [List.length_append] at hn
  obtain ⟨n, rfl⟩ : ∃ m, n = m + 1 := ⟨n - 1, by omega⟩
  rw [List.append_assoc]
  exact .bind (accepts_atBodyEnd_of_ahead (Ahead.append h.starts _) (by decide))
    ((ihu n .method _ (by omega)).bind
      ((ihv n rest (by omega) hrest).bind (accepts_pure.2 ⟨rfl, rfl⟩)))

theorem completes_expressionForm {s : Stmt} (h : Phrase (.expressionStatement s) u)
    (ih : Completes (.expressionStatement s) u) : Completes (.statement false s) u := by
  intro n rest hn _
  obtain ⟨n, rfl⟩ : ∃ m, n = m + 1 := ⟨n - 1, by omega⟩
  have hstart := Ahead.append h.starts rest
  exact .bind (accepts_acceptAny_none.2 ⟨rfl, hstart.not_ahead (by decide)⟩) (ih rest)

theorem completes_forLoop {keyword opening semicolon closing : Stamped} {init : Option Stmt}
    {condition increment : Option Expr} {isOpen : Bool} {body : Stmt}
    (hk : keyword.token.kind = .kwFor) (ho : opening.token.kind = .leftParen)
    (hs : semicolon.token.kind = .semicolon) (hc : closing.token.kind = .rightParen)
    (ihu : Completes (.initializer init) u) (ihv : Completes (.optional condition) v)
    (ihw : Completes (.optional increment) w) (ihx : Completes (.statement isOpen body) x) :
    Completes (.statement isOpen (.ofFor init condition increment body))
      (keyword :: opening :: (u ++ (v ++ semicolon :: (w ++ closing :: x)))) := by
  intro n rest hn helse
  simp only [List.length_cons, List.length_append] at hn
  obtain ⟨n, rfl⟩ : ∃ m, n = m + 2 := ⟨n - 2, by omega⟩
  simp only [List.cons_append, List.append_assoc]
  refine .bind (accepts_acceptAny_some.2 ⟨rfl, by simp [hk]⟩) ?_
  simp only [hk]
  exact .bind (accepts_expect.2 ⟨rfl, ho⟩) ((ihu _).bind
    ((ihv .semicolon _ (.inl rfl) (by simp [hs])).bind (.bind (accepts_expect.2 ⟨rfl, hs⟩)
      ((ihw .rightParen _ (.inr rfl) (by simp [hc])).bind (.bind (accepts_expect.2 ⟨rfl, hc⟩)
        ((ihx n rest (by omega) helse).bind (accepts_pure.2 ⟨rfl, rfl⟩)))))))

theorem completes_ifThen {keyword opening closing : Stamped} {condition : Expr} {isOpen : Bool}
    {yes : Stmt} (hk : keyword.token.kind = .kwIf) (ho : opening.token.kind = .leftParen)
    (hc : closing.token.kind = .rightParen) (ihu : Completes (.expression condition) u)
    (ihv : Completes (.statement isOpen yes) v) :
    Completes (.statement true (.ifThen condition yes))
      (keyword :: opening :: (u ++ closing :: v)) := by
  intro n rest hn helse
  simp only [List.length_cons, List.length_append] at hn
  obtain ⟨n, rfl⟩ : ∃ m, n = m + 2 := ⟨n - 2, by omega⟩
  simp only [List.cons_append, List.append_assoc]
  refine .bind (accepts_acceptAny_some.2 ⟨rfl, by simp [hk]⟩) ?_
  simp only [hk]
  have hfollow := not_expressionFollow hc (by decide) (v ++ rest)
  exact .bind (accepts_expect.2 ⟨rfl, ho⟩) ((accepts_expression_of_completes ihu hfollow).bind
    (.bind (accepts_expect.2 ⟨rfl, hc⟩) ((ihv n rest (by omega) fun _ => helse rfl).bind
      (.bind (accepts_accept_none.2 ⟨rfl, helse rfl⟩) (accepts_pure.2 ⟨rfl, rfl⟩)))))

theorem completes_ifElse {keyword opening closing other : Stamped} {condition : Expr}
    {isOpen : Bool} {yes no : Stmt} (hk : keyword.token.kind = .kwIf)
    (ho : opening.token.kind = .leftParen) (hc : closing.token.kind = .rightParen)
    (hother : other.token.kind = .kwElse) (ihu : Completes (.expression condition) u)
    (ihv : Completes (.statement false yes) v) (ihw : Completes (.statement isOpen no) w) :
    Completes (.statement isOpen (.ifElse condition yes no))
      (keyword :: opening :: (u ++ closing :: (v ++ other :: w))) := by
  intro n rest hn helse
  simp only [List.length_cons, List.length_append] at hn
  obtain ⟨n, rfl⟩ : ∃ m, n = m + 2 := ⟨n - 2, by omega⟩
  simp only [List.cons_append, List.append_assoc]
  refine .bind (accepts_acceptAny_some.2 ⟨rfl, by simp [hk]⟩) ?_
  simp only [hk]
  have hfollow := not_expressionFollow hc (by decide) (v ++ other :: (w ++ rest))
  exact .bind (accepts_expect.2 ⟨rfl, ho⟩) ((accepts_expression_of_completes ihu hfollow).bind
    (.bind (accepts_expect.2 ⟨rfl, hc⟩) ((ihv n _ (by omega) nofun).bind
      (.bind (accepts_accept_some.2 ⟨rfl, hother⟩)
        ((ihw n rest (by omega) helse).bind (accepts_pure.2 ⟨rfl, rfl⟩))))))

theorem completes_whileLoop {keyword opening closing : Stamped} {condition : Expr} {isOpen : Bool}
    {body : Stmt} (hk : keyword.token.kind = .kwWhile) (ho : opening.token.kind = .leftParen)
    (hc : closing.token.kind = .rightParen) (ihu : Completes (.expression condition) u)
    (ihv : Completes (.statement isOpen body) v) :
    Completes (.statement isOpen (.loop condition body))
      (keyword :: opening :: (u ++ closing :: v)) := by
  intro n rest hn helse
  simp only [List.length_cons, List.length_append] at hn
  obtain ⟨n, rfl⟩ : ∃ m, n = m + 2 := ⟨n - 2, by omega⟩
  simp only [List.cons_append, List.append_assoc]
  refine .bind (accepts_acceptAny_some.2 ⟨rfl, by simp [hk]⟩) ?_
  simp only [hk]
  have hfollow := not_expressionFollow hc (by decide) (v ++ rest)
  exact .bind (accepts_expect.2 ⟨rfl, ho⟩) ((accepts_expression_of_completes ihu hfollow).bind
    (.bind (accepts_expect.2 ⟨rfl, hc⟩)
      ((ihv n rest (by omega) helse).bind (accepts_pure.2 ⟨rfl, rfl⟩))))

theorem completes_ret {keyword semicolon : Stamped} {value : Option Expr}
    (hk : keyword.token.kind = .kwReturn) (hs : semicolon.token.kind = .semicolon)
    (ih : Completes (.optional value) u) :
    Completes (.statement false (.ret keyword.token value)) (keyword :: (u ++ [semicolon])) := by
  intro n rest hn _
  obtain ⟨n, rfl⟩ : ∃ m, n = m + 1 := ⟨n - 1, by omega⟩
  simp only [List.cons_append, List.append_assoc, List.nil_append]
  refine .bind (accepts_acceptAny_some.2 ⟨rfl, by simp [hk]⟩) ?_
  simp only [hk]
  have hvalue := ih .semicolon (semicolon :: rest) (.inl rfl) (by simp [hs])
  simp only [Production.optionalExpression, Production.returnStatement, liftM_eq, accepts_bind,
    accepts_ahead] at hvalue ⊢
  obtain ⟨bare, mid, ⟨hbare, rfl⟩, hvalue⟩ := hvalue
  refine ⟨bare, _, ⟨hbare, rfl⟩, ?_⟩
  cases bare with
  | true =>
    simp only [if_true, accepts_pure] at hvalue
    obtain ⟨rfl, hrest⟩ := hvalue
    rw [← hrest]
    exact .bind (accepts_expect.2 ⟨rfl, hs⟩) (accepts_pure.2 ⟨rfl, rfl⟩)
  | false =>
    simp only [Bool.false_eq_true, if_false, accepts_bind, accepts_pure] at hvalue
    obtain ⟨e, mid, he, rfl, rfl⟩ := hvalue
    exact he.bind (.bind (accepts_expect.2 ⟨rfl, hs⟩) (accepts_pure.2 ⟨rfl, rfl⟩))

theorem completes_block {left right : Stamped} {body : List Stmt}
    (hl : left.token.kind = .leftBrace) (hr : right.token.kind = .rightBrace)
    (ih : Completes (.declarations body) u) :
    Completes (.statement false (.block body)) (left :: (u ++ [right])) := by
  intro n rest hn _
  simp only [List.length_cons, List.length_append, List.length_nil] at hn
  obtain ⟨n, rfl⟩ : ∃ m, n = m + 2 := ⟨n - 2, by omega⟩
  simp only [List.cons_append, List.append_assoc, List.nil_append]
  refine .bind (accepts_acceptAny_some.2 ⟨rfl, by simp [hl]⟩) ?_
  simp only [hl]
  have hbody : Accepts (blockIn (n + 1)) (u ++ right :: rest) body rest :=
    (ih n _ (by omega) (by simp [hr])).bind
      (.bind (accepts_expect.2 ⟨rfl, hr⟩) (accepts_pure.2 ⟨rfl, rfl⟩))
  exact hbody.bind (accepts_pure.2 ⟨rfl, rfl⟩)

theorem completes_classDeclaration {keyword name left right : Stamped} {superclass : Option Expr}
    {methods : List FunctionDecl} (hk : keyword.token.kind = .kwClass)
    (hn : name.token.kind = .identifier) (hl : left.token.kind = .leftBrace)
    (hr : right.token.kind = .rightBrace) (ihu : Completes (.superclass superclass) u)
    (ihv : Completes (.methods methods) v) :
    Completes (.declaration (.cls name.token superclass methods))
      (keyword :: name :: (u ++ left :: (v ++ [right]))) := by
  intro n rest hlen _
  simp only [List.length_cons, List.length_append, List.length_nil] at hlen
  obtain ⟨n, rfl⟩ : ∃ m, n = m + 3 := ⟨n - 3, by omega⟩
  simp only [List.cons_append, List.append_assoc, List.nil_append]
  refine accepts_recover.2 (.bind (accepts_acceptAny_some.2 ⟨rfl, by simp [hk]⟩) ?_)
  simp only [hk]
  exact .bind (accepts_expect.2 ⟨rfl, hn⟩) ((ihu _ (by simp [hl])).bind
    (.bind (accepts_expect.2 ⟨rfl, hl⟩) ((ihv n _ (by omega) (by simp [hr])).bind
      (.bind (accepts_expect.2 ⟨rfl, hr⟩) (accepts_pure.2 ⟨rfl, rfl⟩)))))

theorem completes_functionDeclaration {keyword : Stamped} {decl : FunctionDecl}
    (hk : keyword.token.kind = .kwFun) (ih : Completes (.function decl) u) :
    Completes (.declaration (.function decl)) (keyword :: u) := by
  intro n rest hn _
  simp only [List.length_cons] at hn
  obtain ⟨n, rfl⟩ : ∃ m, n = m + 2 := ⟨n - 2, by omega⟩
  refine accepts_recover.2 (.bind (accepts_acceptAny_some.2 ⟨rfl, by simp [hk]⟩) ?_)
  simp only [hk]
  exact (ih n .function rest (by omega)).bind (accepts_pure.2 ⟨rfl, rfl⟩)

theorem completes_varDeclaration {keyword : Stamped} {s : Stmt} (hk : keyword.token.kind = .kwVar)
    (ih : Completes (.varRest s) u) : Completes (.declaration s) (keyword :: u) := by
  intro n rest hn _
  simp only [List.length_cons] at hn
  obtain ⟨n, rfl⟩ : ∃ m, n = m + 2 := ⟨n - 2, by omega⟩
  refine accepts_recover.2 (.bind (accepts_acceptAny_some.2 ⟨rfl, by simp [hk]⟩) ?_)
  simp only [hk]
  exact ih rest

theorem completes_statement {isOpen : Bool} {s : Stmt} (h : Phrase (.statement isOpen s) u)
    (ih : Completes (.statement isOpen s) u) : Completes (.declaration s) u := by
  intro n rest hn helse
  obtain ⟨n, rfl⟩ : ∃ m, n = m + 2 := ⟨n - 2, by omega⟩
  have hstart := Ahead.append h.starts rest
  exact accepts_recover.2
    (.bind (accepts_acceptAny_none.2 ⟨rfl, hstart.not_ahead (by decide)⟩)
      (ih n rest (by omega) fun _ => helse))

theorem completes_declarationsNone : Completes (.declarations []) [] := by
  intro n rest hn hrest
  obtain ⟨n, rfl⟩ : ∃ m, n = m + 1 := ⟨n - 1, by omega⟩
  exact .bind (accepts_atBodyEnd (b := true).2 ⟨by simp [hrest], rfl⟩)
    (accepts_pure.2 ⟨rfl, rfl⟩)

/-- Declarations do not start with `else`. -/
theorem not_ahead_else {ss : List Stmt} (h : Phrase (.declarations ss) v) {rest : List Stamped}
    (hrest : ¬ Ahead [.kwElse] rest) : ¬ Ahead [.kwElse] (v ++ rest) := by
  cases h with
  | declarationsNone => exact hrest
  | declarationsMore hs _ => exact ((Ahead.append hs.starts _).append rest).not_ahead (by decide)

theorem completes_declarationsMore {s : Stmt} {ss : List Stmt} (h : Phrase (.declaration s) u)
    (hss : Phrase (.declarations ss) v) (ihu : Completes (.declaration s) u)
    (ihv : Completes (.declarations ss) v) : Completes (.declarations (s :: ss)) (u ++ v) := by
  intro n rest hn hrest
  have hu := length_pos_of_ahead h.starts
  simp only [List.length_append] at hn
  obtain ⟨n, rfl⟩ : ∃ m, n = m + 1 := ⟨n - 1, by omega⟩
  rw [List.append_assoc]
  have helse := not_ahead_else hss (hrest.not_ahead (by decide))
  exact .bind (accepts_atBodyEnd_of_ahead (Ahead.append h.starts _) (by decide))
    ((ihu n _ (by omega) helse).bind
      ((ihv n rest (by omega) hrest).bind (accepts_pure.2 ⟨rfl, rfl⟩)))

end Statements

theorem completes {shape : Shape} {u : List Stamped} (h : Phrase shape u) : Completes shape u := by
  induction h with
  | plain _ ih => exact completes_plain ih
  | assign hn he _ ih => exact completes_assign hn he ih
  | set ho hd hn he _ iho ihv => exact completes_set ho hd hn he iho ihv
  | level hu hv ihu ihv => exact completes_level hu hv ihu ihv
  | operandLevel ht _ ih => exact completes_operandLevel ht ih
  | operandUnary ht _ ih => exact completes_operandUnary ht ih
  | chainStop =>
    intro n rest hn hrest
    obtain ⟨n, rfl⟩ : ∃ m, n = m + 1 := ⟨n - 1, by omega⟩
    exact accepts_chainIn_stop n _ (not_ahead_append hrest).1
  | chainStep ho _ hv ihu ihv => exact completes_chainStep ho hv ihu ihv
  | unary ho _ ih => exact completes_unary ho ih
  | unaryCall h ih => exact completes_unaryCall h ih
  | call _ _ ihu ihv => exact completes_call ihu ihv
  | suffixesStop => exact fun n k rest e' rest' hn hafter => hafter n (by simpa using hn)
  | suffixesCall ho _ hp _ ihu ihv => exact completes_suffixesCall ho hp ihu ihv
  | suffixesGet hd hn _ ih => exact completes_suffixesGet hd hn ih
  | argumentsNone => exact completes_argumentsNone
  | argumentsSome h ih => exact completes_argumentsSome h ih
  | argumentLast hi _ ih => exact completes_argumentLast hi ih
  | argumentMore hi _ hc _ ihu ihv => exact completes_argumentMore hi hc ihu ihv
  | constant hk => exact completes_constant hk
  | superRef hk hd hm => exact completes_superRef hk hd hm
  | thisRef hk => exact completes_thisRef hk
  | var hk => exact completes_var hk
  | grouping ho _ hc ih => exact completes_grouping ho hc ih
  | optionalNone => exact completes_optionalNone
  | optionalSome h ih => exact completes_optionalSome h ih
  | superclassNone => exact completes_superclassNone
  | superclassSome hl hn => exact completes_superclassSome hl hn
  | parametersNone => exact completes_parametersNone
  | parametersSome h ih => exact completes_parametersSome h ih
  | parameterLast hi hp => exact completes_parameterLast hi hp
  | parameterMore hi hp hc _ ih => exact completes_parameterMore hi hp hc ih
  | function hn ho _ hc hl _ hr ihu ihv => exact completes_function hn ho hc hl hr ihu ihv
  | methodsNone => exact completes_methodsNone
  | methodsMore h _ ihu ihv => exact completes_methodsMore h ihu ihv
  | varPlain hn hs => exact completes_varPlain hn hs
  | varInit hn he _ hs ih => exact completes_varInit hn he hs ih
  | expressionStatement _ hs ih => exact completes_expressionStatement hs ih
  | initializerNone hs => exact completes_initializerNone hs
  | initializerVar hk _ ih => exact completes_initializerVar hk ih
  | initializerExpression h ih => exact completes_initializerExpression h ih
  | expressionForm h ih => exact completes_expressionForm h ih
  | forLoop hk ho _ _ hs _ hc _ ihu ihv ihw ihx =>
    exact completes_forLoop hk ho hs hc ihu ihv ihw ihx
  | ifThen hk ho _ hc _ ihu ihv => exact completes_ifThen hk ho hc ihu ihv
  | ifElse hk ho _ hc _ hother _ ihu ihv ihw =>
    exact completes_ifElse hk ho hc hother ihu ihv ihw
  | whileLoop hk ho _ hc _ ihu ihv => exact completes_whileLoop hk ho hc ihu ihv
  | ret hk _ hs ih => exact completes_ret hk hs ih
  | block hl _ hr ih => exact completes_block hl hr ih
  | classDeclaration hk hn _ hl _ hr ihu ihv => exact completes_classDeclaration hk hn hl hr ihu ihv
  | functionDeclaration hk _ ih => exact completes_functionDeclaration hk ih
  | varDeclaration hk _ ih => exact completes_varDeclaration hk ih
  | statement h ih => exact completes_statement h ih
  | declarationsNone => exact completes_declarationsNone
  | declarationsMore h hss ihu ihv => exact completes_declarationsMore h hss ihu ihv

/-- Declarations to the end of the input are an accepted program. -/
theorem accepts_program {input : List Stamped} {ss : List Stmt}
    (h : Phrase (.declarations ss) input) : Accepts program input ss [] := by
  have hin (n : Nat) : ∀ {input ss}, Phrase (.declarations ss) input → input.length < n →
      Accepts (programIn n) input ss [] := by
    induction n with
    | zero => exact fun _ hn => absurd hn (Nat.not_lt_zero _)
    | succ n ih =>
      intro input ss h hn
      cases h with
      | declarationsNone =>
        exact .bind (accepts_atEnd (b := true).2 ⟨by simp, rfl⟩) (accepts_pure.2 ⟨rfl, rfl⟩)
      | @declarationsMore s ss u v hs hss =>
        have hu := length_pos_of_ahead hs.starts
        simp only [List.length_append] at hn
        have helse : ¬ Ahead [.kwElse] v := by
          have := not_ahead_else hss (ahead_nil [.kwElse])
          rwa [List.append_nil] at this
        have hne : u ++ v ≠ [] := by
          intro h
          simp only [List.append_eq_nil_iff] at h
          simp [h.1] at hu
        have hfirst : Accepts declaration (u ++ v) s v := by
          rw [accepts_declaration]
          refine completes hs _ v ?_ helse
          simp only [declarationFuel, List.length_append]
          omega
        exact .bind (accepts_atEnd (b := false).2 ⟨by simpa using hne, rfl⟩)
          (hfirst.bind ((ih hss (by omega)).bind (accepts_pure.2 ⟨rfl, rfl⟩)))
  exact hin (input.length + 1) h (Nat.lt_succ_self _)

end Parser
end Lox
