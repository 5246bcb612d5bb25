import Lox.Proofs.Parse.Appended

/-!
# Lox.Proofs.Parse.Contained

A failure does no harm beyond its own declaration, where that is a simple one: a text without braces
that could end at no token but its last, a semicolon, and in which nothing else could start
(`Token.IsSimple`). Wherever it fails, the failure comes before that semicolon is taken
(`plainly_bareDeclarationIn`); so skipping ends just behind it, and what follows is parsed as it is
by itself (`parse_append_broken`).
-/

namespace Lox
namespace Parser

/-! ## Up to the only semicolon -/

/-- The kinds of tokens at which a declaration ends, or something else starts. -/
def boundaries : List TokenKind := [.semicolon, .leftBrace] ++ starters

theorem not_mem_boundaries {kind : TokenKind} (hsemicolon : kind ≠ .semicolon)
    (hbrace : kind ≠ .leftBrace) (hstarts : kind ∉ starters) : kind ∉ boundaries := by
  simp [boundaries, hsemicolon, hbrace, hstarts]

/-- Tokens with a semicolon at their end and no other boundary. -/
inductive Plain : List Stamped → Prop
  | last {t : Stamped} (h : t.token.kind = .semicolon) : Plain [t]
  | cons {t : Stamped} {rest : List Stamped} (h : t.token.kind ∉ boundaries) (hrest : Plain rest) :
    Plain (t :: rest)

namespace Plain

variable {input rest : List Stamped}

theorem ne_nil (h : Plain input) : input ≠ [] := by
  cases h <;> nofun

theorem tail {t : Stamped} (h : Plain (t :: rest)) (ht : t.token.kind ≠ .semicolon) :
    Plain rest := by
  cases h with
  | last hsemicolon => exact absurd hsemicolon ht
  | cons _ hrest => exact hrest

theorem not_ahead (h : Plain input) : ¬ Ahead (.leftBrace :: starters) input := by
  cases h with
  | last hsemicolon =>
    rw [ahead_cons, hsemicolon]
    decide
  | cons ht _ => exact fun hmem => ht (List.mem_cons_of_mem _ hmem)

/-- What expressions are made of does not reach the semicolon. -/
theorem of_append {taken : List Stamped} (h : Plain (taken ++ rest))
    (htaken : ∀ t ∈ taken, t.token.kind ∈ expressionKinds) : Plain rest := by
  induction taken with
  | nil => exact h
  | cons t taken ih =>
    obtain ⟨ht, htaken⟩ := List.forall_mem_cons.1 htaken
    have hsemicolon : t.token.kind ≠ .semicolon := by
      intro hsemicolon
      rw [hsemicolon] at ht
      exact absurd ht (by decide)
    exact ih (h.tail hsemicolon) htaken

theorem map (r : Relabel) (h : Plain input) : Plain (input.map (Stamped.relabel r)) := by
  induction h with
  | last hsemicolon => exact .last (t := .relabel r _) hsemicolon
  | cons ht _ ih => exact .cons (t := .relabel r _) ht ih

/-- Skipping ends just behind the semicolon. -/
theorem synchronize_append (h : Plain input) (tail : List Stamped) :
    synchronize (input ++ tail) = tail := by
  induction h with
  | last hsemicolon =>
    cases tail with
    | nil => rfl
    | cons u tail => exact synchronize_of_semicolon u tail hsemicolon
  | @cons t rest ht hrest ih =>
    cases rest with
    | nil => exact absurd rfl hrest.ne_nil
    | cons u rest =>
      have hsemicolon : t.token.kind ≠ .semicolon := fun h => ht (h ▸ List.mem_cons_self)
      have hu : u.token.kind ∉ starters := fun h => hrest.not_ahead (List.mem_cons_of_mem _ h)
      exact (synchronize_of_neither (rest ++ tail) hsemicolon hu).trans ih

end Plain

/-- The parse made no complaint about a failure, and it either ended as it should or failed before
it took the semicolon. -/
def Plainly {α : Type} (ends : List Stamped → Prop) : Parsed α → Prop
  | .ok _ rest complaints => ends rest ∧ ∀ c ∈ complaints, ∀ what, c.problem ≠ .expected what
  | .fail _ rest complaints => Plain rest ∧ ∀ c ∈ complaints, ∀ what, c.problem ≠ .expected what
  | .outOfFuel => True

variable {α β : Type} {input rest : List Stamped} {ends ends' : List Stamped → Prop}

theorem plainly_pure {a : α} (h : ends input) : Plainly ends ((pure a : Parser α) input) :=
  ⟨h, nofun⟩

theorem plainly_after {earlier : List Complaint} {r : Parsed α}
    (hearlier : ∀ c ∈ earlier, ∀ what, c.problem ≠ .expected what) (h : Plainly ends r) :
    Plainly ends (after earlier r) := by
  cases r with
  | ok a rest later => exact ⟨h.1, List.forall_mem_append.2 ⟨hearlier, h.2⟩⟩
  | fail what rest later => exact ⟨h.1, List.forall_mem_append.2 ⟨hearlier, h.2⟩⟩
  | outOfFuel => trivial

theorem plainly_bind {p : Parser α} {f : α → Parser β} (hp : Plainly ends (p input))
    (hf : ∀ a rest, ends rest → Plainly ends' (f a rest)) : Plainly ends' ((p >>= f) input) := by
  rw [bind_apply]
  cases ho : p input with
  | ok a rest complaints =>
    rw [ho] at hp
    exact plainly_after hp.2 (hf a rest hp.1)
  | fail what rest complaints =>
    rw [ho] at hp
    exact hp
  | outOfFuel => trivial

/-- What takes tokens of expressions only stays before the semicolon. -/
theorem plainly_of_takes (hinput : Plain input) {r : Parsed α} (h : r.Takes expressionKinds input) :
    Plainly Plain r := by
  have hleft {rest : List Stamped} {complaints : List Complaint}
      (h : Parsed.Leaves expressionKinds input rest complaints) :
      Plain rest ∧ ∀ c ∈ complaints, ∀ what, c.problem ≠ .expected what := by
    obtain ⟨⟨taken, rfl, htaken⟩, hfits⟩ := h
    refine ⟨hinput.of_append htaken, fun c hc what hwhat => ?_⟩
    exact absurd ((hfits c hc).kinds what hwhat .semicolon) (by decide)
  cases r with
  | ok a rest complaints => exact hleft h
  | fail what rest complaints => exact hleft h
  | outOfFuel => trivial

/-- Parsers that go in step with themselves take what they take wherever they stand. -/
theorem plainly_of_inStep {f : α → β} {p : Parser α} {q : Parser β} (hinput : Plain input)
    (h : InStep (.move 0 0 0) [] expressionKinds f p q) : Plainly Plain (p input) :=
  plainly_of_takes hinput (h.takes input)

theorem plainly_expect {kind : TokenKind} (what : Expected) (hkind : kind ∈ expressionKinds)
    (hinput : Plain input) : Plainly Plain (expect kind what input) :=
  plainly_of_inStep hinput (.expect what hkind)

theorem plainly_semicolon (what : Expected) (hinput : Plain input) :
    Plainly (· = []) (expect .semicolon what input) := by
  cases hinput with
  | last h =>
    rw [expect, if_pos h]
    exact ⟨rfl, List.forall_mem_nil _⟩
  | cons ht hrest =>
    rw [expect, if_neg (ne_of_mem_of_not_mem List.mem_cons_self ht).symm]
    exact ⟨.cons ht hrest, List.forall_mem_nil _⟩

/-- Where a body should start, there is a failure. -/
theorem plainly_leftBrace (what : Expected) (hinput : Plain input) :
    Plainly (fun _ => False) (expect .leftBrace what input) := by
  obtain ⟨t, rest, rfl⟩ := List.exists_cons_of_ne_nil hinput.ne_nil
  have ht : t.token.kind ∉ TokenKind.leftBrace :: starters := hinput.not_ahead
  rw [expect, if_neg (ne_of_mem_of_not_mem List.mem_cons_self ht).symm]
  exact ⟨hinput, List.forall_mem_nil _⟩

theorem plainly_acceptAny {ks : List TokenKind} {f : Option Stamped → Parser β}
    (hks : ks ⊆ expressionKinds) (hinput : Plain input)
    (hnone : Plainly ends (f none input))
    (hsome : ∀ t rest, Plain rest → Plainly ends (f (some t) rest)) :
    Plainly ends ((acceptAny ks >>= f) input) := by
  obtain ⟨t, rest, rfl⟩ := List.exists_cons_of_ne_nil hinput.ne_nil
  rw [acceptAny_bind_cons]
  split
  · rename_i ht
    exact hsome t rest (@Plain.of_append rest [t] hinput (by simpa using hks ht))
  · exact hnone

theorem plainly_ahead {kind : TokenKind} {f : Bool → Parser β}
    (hf : ∀ b, Plainly ends (f b input)) : Plainly ends ((ahead kind >>= f) input) := by
  cases input <;> exact plainly_after nofun (hf _)

/-! ## Statements -/

variable (hinput : Plain input)
include hinput

theorem plainly_varDeclaration : Plainly (· = []) (varDeclaration input) := by
  refine plainly_bind (plainly_expect _ (by decide) hinput) fun name rest hrest => ?_
  refine plainly_acceptAny (by decide) hrest ?_ fun _ rest hrest => ?_
  · exact plainly_bind (plainly_semicolon _ hrest) fun _ _ h => plainly_pure h
  · refine plainly_bind (plainly_of_inStep hrest inStep_expression) fun init rest hrest => ?_
    exact plainly_bind (plainly_semicolon _ hrest) fun _ _ h => plainly_pure h

theorem plainly_expressionStatement : Plainly (· = []) (expressionStatement input) := by
  refine plainly_bind (plainly_of_inStep hinput inStep_expression) fun e rest hrest => ?_
  exact plainly_bind (plainly_semicolon _ hrest) fun _ _ h => plainly_pure h

theorem plainly_returnStatement (keyword : Token) :
    Plainly (· = []) (returnStatement keyword input) := by
  refine plainly_ahead fun stopped => ?_
  cases stopped with
  | true => exact plainly_bind (plainly_semicolon _ hinput) fun _ _ h => plainly_pure h
  | false =>
    refine plainly_bind (plainly_of_inStep hinput inStep_expression) fun value rest hrest => ?_
    exact plainly_bind (plainly_semicolon _ hrest) fun _ _ h => plainly_pure h

/-- A class has no place for its body. -/
theorem plainly_classIn : ∀ n, Plainly ends (classIn n input)
  | 0 => trivial
  | n + 1 => by
    refine plainly_bind (plainly_expect _ (by decide) hinput) fun name rest hrest => ?_
    refine plainly_bind (plainly_of_inStep hrest inStep_superclassClause) fun _ rest hrest => ?_
    exact plainly_bind (plainly_leftBrace _ hrest) fun _ _ h => h.elim

theorem plainly_functionIn (kind : FunctionKind) : ∀ n, Plainly ends (functionIn n kind input)
  | 0 => trivial
  | n + 1 => by
    refine plainly_bind (plainly_expect _ (by decide) hinput) fun name rest hrest => ?_
    refine plainly_bind (plainly_expect _ (by decide) hrest) fun _ rest hrest => ?_
    refine plainly_bind (plainly_of_inStep hrest inStep_parameters) fun params rest hrest => ?_
    refine plainly_bind (plainly_expect _ (by decide) hrest) fun _ rest hrest => ?_
    exact plainly_bind (plainly_leftBrace _ hrest) fun _ _ h => h.elim

/-- What does not begin as a statement of another form is an expression. -/
theorem plainly_statementIn : ∀ n, Plainly (· = []) (statementIn n input)
  | 0 => trivial
  | n + 1 => by
    obtain ⟨t, rest, rfl⟩ := List.exists_cons_of_ne_nil hinput.ne_nil
    have ht : t.token.kind ∉ TokenKind.leftBrace :: starters := hinput.not_ahead
    have hforms : [TokenKind.kwFor, .kwIf, .kwWhile, .kwReturn, .leftBrace] ⊆
        TokenKind.leftBrace :: starters := by decide
    rw [statementIn, Production.statementIn, liftM_eq, acceptAny_bind_cons,
      if_neg fun h => ht (hforms h)]
    exact plainly_expressionStatement hinput

theorem plainly_ifIn : ∀ n, Plainly (· = []) (ifIn n input)
  | 0 => trivial
  | n + 1 => by
    refine plainly_bind (plainly_expect _ (by decide) hinput) fun _ rest hrest => ?_
    refine plainly_bind (plainly_of_inStep hrest inStep_expression) fun condition rest hrest => ?_
    refine plainly_bind (plainly_expect _ (by decide) hrest) fun _ rest hrest => ?_
    refine plainly_bind (plainly_statementIn hrest n) fun yes rest hrest => ?_
    subst hrest
    exact plainly_pure rfl

theorem plainly_whileIn : ∀ n, Plainly (· = []) (whileIn n input)
  | 0 => trivial
  | n + 1 => by
    refine plainly_bind (plainly_expect _ (by decide) hinput) fun _ rest hrest => ?_
    refine plainly_bind (plainly_of_inStep hrest inStep_expression) fun condition rest hrest => ?_
    refine plainly_bind (plainly_expect _ (by decide) hrest) fun _ rest hrest => ?_
    exact plainly_bind (plainly_statementIn hrest n) fun body _ h => plainly_pure h

omit hinput

/-- Only the first token may start something, and not what goes on behind a semicolon. -/
structure BeginsPlainly (t : Stamped) (rest : List Stamped) : Prop where
  head : t.token.kind ∉ [TokenKind.leftBrace, .kwFor]
  starts : t.token.kind ∈ starters → Plain rest
  plain : t.token.kind ∉ starters → Plain (t :: rest)

theorem plainly_statementIn_of_keyword {t : Stamped}
    (ht : t.token.kind ∈ [TokenKind.kwIf, .kwWhile, .kwReturn]) (hrest : Plain rest) :
    ∀ n, Plainly (· = []) (statementIn n (t :: rest))
  | 0 => trivial
  | n + 1 => by
    have hforms : [TokenKind.kwIf, .kwWhile, .kwReturn] ⊆
        [TokenKind.kwFor, .kwIf, .kwWhile, .kwReturn, .leftBrace] := by decide
    rw [statementIn, Production.statementIn, liftM_eq, acceptAny_bind_cons, if_pos (hforms ht)]
    dsimp only
    simp only [List.mem_cons, List.not_mem_nil, or_false] at ht
    obtain h | h | h := ht
    · rw [h]
      exact plainly_ifIn hrest n
    · rw [h]
      exact plainly_whileIn hrest n
    · rw [h]
      exact plainly_returnStatement hrest t.token

theorem plainly_bareDeclarationIn {t : Stamped} (h : BeginsPlainly t rest) :
    ∀ n, Plainly (· = []) (bareDeclarationIn n (t :: rest))
  | 0 => trivial
  | n + 1 => by
    rw [bareDeclarationIn, Production.bareDeclarationIn, liftM_eq, acceptAny_bind_cons]
    split
    · rename_i hk
      have hdeclares : [TokenKind.kwClass, .kwFun, .kwVar] ⊆ starters := by decide
      have hrest := h.starts (hdeclares hk)
      dsimp only
      cases t.token.kind with
      | kwClass => exact plainly_classIn hrest n
      | kwFun => exact plainly_bind (plainly_functionIn hrest _ n) fun _ _ h => plainly_pure h
      | _ => exact plainly_varDeclaration hrest
    · rename_i hk
      by_cases ht : t.token.kind ∈ starters
      · refine plainly_statementIn_of_keyword ?_ (h.starts ht) n
        -- of the kinds that start something, only those of statements without a body are left
        have hhead := h.head
        simp only [starters, List.mem_cons, List.not_mem_nil, or_false, not_or] at hk hhead ht ⊢
        tauto
      · exact plainly_statementIn (h.plain ht) n

/-! ## A failure -/

variable {what : Expected} {complaints : List Complaint}

/-- A declaration that failed before its semicolon is skipped up to the semicolon, wherever it
stands and whatever follows. -/
theorem declaration_of_fail {n : Nat} (hn : n + 1 = declarationFuel input.length)
    (hfail : bareDeclarationIn n input = .fail what rest complaints) (hrest : Plain rest)
    (r : Relabel) (tail : List Stamped) :
    declaration (input.map (Stamped.relabel r) ++ tail) =
      .ok .placeholder tail
        ((complaints ++ [Complaint.mk (.expected what) rest]).map (Complaint.move r tail)) := by
  obtain ⟨k, hk⟩ : ∃ k, declarationFuel (input.map (Stamped.relabel r) ++ tail).length = k + 1 :=
    ⟨_, rfl⟩
  have hle : n ≤ k := by
    simp only [declarationFuel, List.length_append, List.length_map] at hn hk
    omega
  have hs : (bareDeclarationIn n input).IsSettled tail := by
    rw [hfail]
    exact fun hnil => absurd hnil hrest.ne_nil
  have hmoves := (statementsInStep hle).bareDeclaration.moves (r := r) hs
  rw [hfail] at hmoves
  rw [declaration_apply, hk, declarationIn_succ, recover, hmoves]
  simp only [Parsed.move, (hrest.map r).synchronize_append, List.map_append]
  rfl

theorem leaves_of_fail {n : Nat}
    (hfail : bareDeclarationIn n input = .fail what rest complaints) :
    Parsed.Leaves TokenKind.all input rest complaints := by
  have hstep : InStep (.move 0 0 0) [] TokenKind.all (Stmt.relabel (.move 0 0 0))
      (bareDeclarationIn n) (bareDeclarationIn n) :=
    (statementsInStep (Nat.le_refl n)).bareDeclaration
  have htakes := hstep.takes input
  rwa [hfail] at htakes

theorem program_of_fail {n : Nat} (hn : n + 1 = declarationFuel input.length)
    (hfail : bareDeclarationIn n input = .fail what rest complaints) (hrest : Plain rest)
    (r : Relabel) {tail : List Stamped} {ss : List Stmt} {later : List Complaint}
    (htail : program tail = .ok ss [] later) :
    program (input.map (Stamped.relabel r) ++ tail) =
      .ok (.placeholder :: ss) []
        ((complaints ++ [Complaint.mk (.expected what) rest]).map (Complaint.move r tail) ++
          later) := by
  have hinput := (leaves_of_fail hfail).ne_nil hrest.ne_nil
  refine program_of_declaration (fun hnil => ?_) (declaration_of_fail hn hfail hrest r tail) htail
  exact hinput (List.map_eq_nil_iff.1 (List.append_eq_nil_iff.1 hnil).1)

/-- Where the declaration does not fail, it is the whole input. -/
theorem BeginsPlainly.fails_or_ends {t : Stamped} (h : BeginsPlainly t rest) :
    (∃ n what left complaints, n + 1 = declarationFuel (t :: rest).length ∧
      bareDeclarationIn n (t :: rest) = .fail what left complaints ∧ Plain left) ∨
    ∃ s complaints, program (t :: rest) = .ok [s] [] complaints ∧
      ∀ c ∈ complaints, ∀ what, c.problem ≠ .expected what := by
  obtain ⟨n, hn⟩ : ∃ n, n + 1 = declarationFuel (t :: rest).length := ⟨_, rfl⟩
  have hplainly := plainly_bareDeclarationIn h n
  have hdeclaration : declaration (t :: rest) = recover (bareDeclarationIn n) (t :: rest) := by
    rw [declaration_apply, ← hn, declarationIn_succ]
  rw [recover] at hdeclaration
  cases ho : bareDeclarationIn n (t :: rest) with
  | ok s left complaints =>
    rw [ho] at hplainly hdeclaration
    obtain ⟨rfl, hlenient⟩ := hplainly
    have hnil : program [] = .ok [] [] [] := rfl
    have hprogram := program_of_declaration (List.cons_ne_nil t rest) hdeclaration hnil
    rw [List.append_nil] at hprogram
    exact .inr ⟨s, complaints, hprogram, hlenient⟩
  | fail what left complaints =>
    rw [ho] at hplainly
    exact .inl ⟨n, what, left, complaints, hn, ho, hplainly.1⟩
  | outOfFuel =>
    obtain ⟨_, _, _, hok, -⟩ := declaration_eq_ok (List.cons_ne_nil t rest)
    rw [hdeclaration, ho] at hok
    cases hok

end Parser

/-! ## Token lists -/

/-- A declaration without braces that ends in its only semicolon, and in which nothing starts but at
its beginning. -/
structure Token.IsSimple (ts : List Token) : Prop where
  ends : ∃ us last, ts = us ++ [last] ∧ last.kind = .semicolon ∧ ∀ t ∈ us, t.kind ≠ .semicolon
  unbraced : ∀ t ∈ ts, t.kind ≠ .leftBrace ∧ t.kind ≠ .rightBrace
  ne_eof : ∀ t ∈ ts, t.kind ≠ .eof
  head : ∀ t ∈ ts.head?, t.kind ≠ .kwFor
  tail : ∀ t ∈ ts.tail, t.kind ∉ Parser.starters

theorem Parser.plain_ofTokens {us : List Token} {last : Token} (n : RefId)
    (hlast : last.kind = .semicolon) (hus : ∀ t ∈ us, t.kind ∉ boundaries) :
    Plain (Stamped.ofTokens n (us ++ [last])) := by
  induction us generalizing n with
  | nil => exact .last hlast
  | cons t us ih =>
    obtain ⟨ht, hus⟩ := List.forall_mem_cons.1 hus
    exact .cons ht (ih (n + 1) hus)

theorem Token.IsSimple.exists_beginsPlainly {ts : List Token} (h : Token.IsSimple ts) (n : RefId) :
    ∃ t rest, Stamped.ofTokens n ts = t :: rest ∧ Parser.BeginsPlainly t rest := by
  obtain ⟨us, last, rfl, hlast, hus⟩ := h.ends
  cases us with
  | nil =>
    have hhead : last.kind ∉ [TokenKind.leftBrace, .kwFor] := by
      rw [hlast]
      decide
    have hstarts : last.kind ∉ Parser.starters := by
      rw [hlast]
      decide
    exact ⟨_, [], rfl, hhead, fun ht => absurd ht hstarts, fun _ => .last hlast⟩
  | cons t us =>
    obtain ⟨ht, hus⟩ := List.forall_mem_cons.1 hus
    obtain ⟨⟨hbrace, -⟩, hbraces⟩ := List.forall_mem_cons.1 h.unbraced
    have hplain : Parser.Plain (Stamped.ofTokens (n + 1) (us ++ [last])) := by
      refine Parser.plain_ofTokens (n + 1) hlast fun u hu => ?_
      have hmem : u ∈ us ++ [last] := List.mem_append_left [last] hu
      exact Parser.not_mem_boundaries (hus u hu) (hbraces u hmem).1 (h.tail u hmem)
    have hhead : t.kind ∉ [TokenKind.leftBrace, .kwFor] := by
      have hfor : t.kind ≠ .kwFor := h.head t rfl
      simp [hbrace, hfor]
    exact ⟨⟨t, n⟩, _, rfl, hhead, fun _ => hplain, fun hstarts =>
      .cons (Parser.not_mem_boundaries ht hbrace hstarts) hplain⟩

/-- A complaint before the end of the input blames the same token wherever it stands. -/
theorem Complaint.toError_move_of_ne_nil {c : Complaint} (hc : c.rest ≠ []) (first first' : RefId)
    (tail : List Stamped) (last last' : Token) :
    (c.move (.move first first' 0) tail).toError last = c.toError last' := by
  obtain ⟨problem, rest⟩ := c
  cases rest with
  | nil => exact absurd rfl hc
  | cons t rest => rfl

theorem Complaint.problem_of_toError {c : Complaint} {last t : Token} {problem : ParseProblem}
    (h : c.toError last = .parse t problem) : c.problem = problem := by
  obtain ⟨problem, rest⟩ := c
  cases rest <;> exact (Error.parse.inj h).2

namespace Parse

/-- A simple declaration with an error that unwinds fails before its semicolon. -/
theorem exists_fail {first : RefId} {ts : List Token} (hts : Token.IsSimple ts)
    (h : ∃ t what, Error.parse t (.expected what) ∈ (ofTokens first ts).errors) :
    ∃ n what rest complaints,
      n + 1 = Parser.declarationFuel (Stamped.ofTokens first ts).length ∧
      Parser.bareDeclarationIn n (Stamped.ofTokens first ts) = .fail what rest complaints ∧
      Parser.Plain rest := by
  obtain ⟨t, rest, hinput, hbegins⟩ := hts.exists_beginsPlainly first
  rw [hinput]
  obtain hfails | ⟨s, complaints, hprogram, hlenient⟩ := hbegins.fails_or_ends
  · exact hfails
  · exfalso
    obtain ⟨blamed, what, h⟩ := h
    rw [← hinput, ← Token.body_eq_self hts.ne_eof] at hprogram
    rw [ofTokens_eq hprogram, errors] at h
    obtain ⟨c, hc, hwhat⟩ := List.mem_map.1 h
    exact hlenient c hc what (Complaint.problem_of_toError hwhat)

/-- Behind a simple declaration that fails, everything is parsed as it is by itself. The declaration
leaves a placeholder and its own errors. -/
theorem parse_append_broken {first first₁ first₂ : RefId} {ts us : List Token}
    (hts : Token.IsSimple ts)
    (h : ∃ t what, Error.parse t (.expected what) ∈ (ofTokens first₁ ts).errors) :
    (ofTokens first (ts ++ us)).statements =
        .placeholder ::
          Stmt.relabelList (.move first₂ (first + ts.length) 0) (ofTokens first₂ us).statements ∧
      (ofTokens first (ts ++ us)).errors =
        (ofTokens first₁ ts).errors ++ (ofTokens first₂ us).errors := by
  obtain ⟨n, what, rest, complaints, hn, hfail, hrest⟩ := exists_fail hts h
  let broken := complaints ++ [Complaint.mk (.expected what) rest]
  have hplace : ∀ c ∈ broken, c.rest ≠ [] := by
    have hfits := (Parser.leaves_of_fail hfail).fits
    exact List.forall_mem_append.2
      ⟨fun c hc => (hfits c hc).place hrest.ne_nil, List.forall_mem_singleton.2 hrest.ne_nil⟩
  have hprogram (first' : RefId) {tail : List Stamped} {ss : List Stmt} {later : List Complaint}
      (htail : Parser.program tail = .ok ss [] later) :
      Parser.program (Stamped.ofTokens first' ts ++ tail) = .ok (.placeholder :: ss) []
        (broken.map (Complaint.move (.move first₁ first' 0) tail) ++ later) := by
    have h := Parser.program_of_fail hn hfail hrest (.move first₁ first' 0) htail
    rwa [Stamped.map_relabel_move, Token.relabel_move_zero, List.map_id] at h
  have herrors (first' : RefId) (tail : List Stamped) (last : Token) :
      (broken.map (Complaint.move (.move first₁ first' 0) tail)).map (Complaint.toError last) =
        broken.map (Complaint.toError (Token.endOf ts)) := by
    rw [List.map_map]
    exact List.map_congr_left fun c hc =>
      Complaint.toError_move_of_ne_nil (hplace c hc) first₁ first' tail last _
  obtain ⟨ss, later, htail⟩ :=
    Parser.program_eq_ok (Stamped.ofTokens (first + ts.length) (Token.body us))
  have hall := hprogram first htail
  rw [← Stamped.ofTokens_append, ← Token.body_append hts.ne_eof] at hall
  have hnil : Parser.program [] = .ok [] [] [] := rfl
  have hself := hprogram first₁ hnil
  rw [List.append_nil, List.append_nil, ← Token.body_eq_self hts.ne_eof] at hself
  obtain ⟨hstatements, herrors'⟩ := ofTokens_renumbered first₂ (first + ts.length) us
  rw [← hstatements, ← herrors', ← errors_behind hts.ne_eof htail, ofTokens_eq hall,
    ofTokens_eq htail, ofTokens_eq hself]
  refine ⟨rfl, ?_⟩
  rw [errors, errors, List.map_append, herrors, herrors]

/-- A declaration with two errors: nothing can be assigned to a grouping, and there is a token too
many. -/
def misassigned : List Token :=
  [⟨.leftParen, "(", none, 1⟩, ⟨.identifier, "a", none, 1⟩, ⟨.rightParen, ")", none, 1⟩,
   ⟨.equal, "=", none, 1⟩, ⟨.identifier, "b", none, 1⟩, ⟨.identifier, "c", none, 1⟩,
   ⟨.semicolon, ";", none, 1⟩]

theorem isSimple_misassigned : Token.IsSimple misassigned where
  ends := ⟨misassigned.dropLast, ⟨.semicolon, ";", none, 1⟩, rfl, rfl, by decide⟩
  unbraced := by decide
  ne_eof := by decide
  head := by decide
  tail := by decide

theorem parse_append_broken_misassigned :
    let read : List Token := [⟨.identifier, "d", none, 2⟩, ⟨.semicolon, ";", none, 2⟩]
    (ofTokens 5 (misassigned ++ read)).statements =
        [.placeholder, .expression (.var 12 ⟨.identifier, "d", none, 2⟩)] ∧
      (ofTokens 5 (misassigned ++ read)).errors =
        [.parse ⟨.equal, "=", none, 1⟩ .invalidAssignmentTarget,
         .parse ⟨.identifier, "c", none, 1⟩ (.expected .expressionEnd)] := by
  intro read
  have hfails : ∃ t what, Error.parse t (.expected what) ∈ (ofTokens 0 misassigned).errors :=
    ⟨⟨.identifier, "c", none, 1⟩, .expressionEnd, .tail _ (.head _)⟩
  obtain ⟨hstatements, herrors⟩ :=
    @parse_append_broken 5 0 0 misassigned read isSimple_misassigned hfails
  exact ⟨hstatements.trans rfl, herrors.trans rfl⟩

end Parse
end Lox
