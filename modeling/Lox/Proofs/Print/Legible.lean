import Lox.Proofs.Parse.Phrase
import Lox.Proofs.Parse.Reading
import Lox.Proofs.Scope.Formed
import Lox.Proofs.Token.Lexeme

/-!
# Lox.Proofs.Print.Legible

Trees that can be told from their text. Their tokens are spelled by their kinds, as all tokens are
that a scan finds (`Scan.isLexeme_of_mem_scan`), and they have no string, which would be printed
without its quotes, and no infinity, which would be printed like a variable. What is parsed from such
tokens is legible (`Phrase.legible`).
-/

namespace Lox

/-! ## Scanned tokens are lexemes -/

namespace Scan

theorem isLexeme_of_mem_symbols {cs : List Char} {kind : TokenKind}
    (h : (String.ofList cs, kind) ∈ symbols) : IsLexeme cs kind none := by
  have hlexeme := IsLexeme.symbol h
  rwa [String.toList_ofList] at hlexeme

theorem isLexeme_punctuation {c : Char} {kind : TokenKind} (h : punctuation? c = some kind) :
    IsLexeme [c] kind none := by
  unfold punctuation? at h
  split at h <;> cases h <;> exact isLexeme_of_mem_symbols (by simp [symbols])

theorem isLexeme_comparison {c : Char} {alone withEqual : TokenKind}
    (h : comparison? c = some (alone, withEqual)) :
    IsLexeme [c] alone none ∧ IsLexeme [c, '='] withEqual none := by
  unfold comparison? at h
  split at h <;> cases h <;>
    exact ⟨isLexeme_of_mem_symbols (by simp [symbols]), isLexeme_of_mem_symbols (by simp [symbols])⟩

theorem isLexeme_word {c : Char} {cs : List Char} (hc : startsWord c = true)
    (hcs : ∀ d ∈ cs, continuesWord d = true) :
    IsLexeme (c :: cs) (TokenKind.ofWord (String.ofList (c :: cs))) none := by
  by_cases hk : ∃ kind, (String.ofList (c :: cs), kind) ∈ TokenKind.keywords
  · obtain ⟨kind, hmem⟩ := hk
    have hlexeme := IsLexeme.keyword hmem
    rwa [String.toList_ofList, ← (ofWord_of_mem hmem).1] at hlexeme
  · have hnot := not_exists.1 hk
    rw [ofWord_of_not_mem hnot]
    exact .identifier hc hcs hnot

/-- The digits of a number, and those of its fraction if it has one. -/
theorem isLexeme_number {c : Char} (hc : c.isDigit = true) (cs : List Char) :
    ∃ literal, (number c cs).found = .ok (.number, literal) ∧
      IsLexeme (c :: (number c cs).taken) .number literal := by
  have hwhole : ∀ d ∈ c :: cs.takeWhile Char.isDigit, d.isDigit = true :=
    List.forall_mem_cons.2 ⟨hc, fun _ => List.mem_takeWhile_imp⟩
  refine ⟨_, rfl, ?_⟩
  rw [number, numberValue_eq]
  obtain ⟨d, ds, hfraction, hd⟩ | hnone := splitFraction_cases (cs.dropWhile Char.isDigit)
  · rw [hfraction, splitFraction, if_pos hd]
    refine .decimal (List.cons_ne_nil _ _) (List.cons_ne_nil _ _) ?_
    refine List.forall_mem_append.2 ⟨hwhole, List.forall_mem_cons.2 ⟨hd, ?_⟩⟩
    exact fun _ => List.mem_takeWhile_imp
  · rw [hnone]
    simpa using IsLexeme.integer (List.cons_ne_nil _ _) hwhole

theorem isLexeme_string {cs : List Char} {kind : TokenKind} {literal : Option Literal}
    (h : (string cs).found = .ok (kind, literal)) :
    IsLexeme ('"' :: (string cs).taken) kind literal := by
  unfold string at h ⊢
  dsimp only at h ⊢
  split at h
  · cases h
  · rename_i q rest hrest
    cases h
    obtain rfl : q = '"' := by
      have hq := List.head?_dropWhile_not (· != '"') cs
      rw [hrest] at hq
      simpa using hq
    refine .string fun hmem => ?_
    have := List.mem_takeWhile_imp hmem
    simp at this

/-- A token that is found spells its kind and its literal. -/
theorem isLexeme_item {c : Char} {cs : List Char} {kind : TokenKind} {literal : Option Literal}
    (h : (item c cs).found = .ok (kind, literal)) :
    IsLexeme (c :: (item c cs).taken) kind literal := by
  unfold item at h ⊢
  cases hp : punctuation? c with
  | some kind' =>
    simp only [hp] at h ⊢
    cases h
    exact isLexeme_punctuation hp
  | none =>
    cases hc : comparison? c with
    | some kinds =>
      obtain ⟨alone, withEqual⟩ := kinds
      obtain ⟨halone, hequal⟩ := isLexeme_comparison hc
      simp only [hp, hc] at h ⊢
      split at h
      · cases h
        exact hequal
      · cases h
        exact halone
    | none =>
      simp only [hp, hc] at h ⊢
      split at h
      · rename_i hq
        obtain rfl := eq_of_beq hq
        exact isLexeme_string h
      · rename_i hq
        rw [if_neg hq]
        split at h
        · rename_i hd
          rw [if_pos hd]
          obtain ⟨literal', hfound, hlexeme⟩ := isLexeme_number hd cs
          cases hfound.symm.trans h
          exact hlexeme
        · rename_i hd
          rw [if_neg hd]
          split at h
          · rename_i hw
            cases h
            rw [if_pos hw]
            exact isLexeme_word hw fun _ => List.mem_takeWhile_imp
          · cases h

theorem isLexeme_of_mem_piecesFrom (line : Nat) (cs : List Char) :
    ∀ p ∈ piecesFrom line cs, ∀ t, p.item = .ok t → t.kind ≠ .eof →
      IsLexeme t.lexeme.toList t.kind t.literal := by
  induction line, cs using piecesFrom.induct with
  | case1 line cs gap hlen hgap =>
    intro p hp t ht hne
    rw [piecesFrom_of_nil line hgap, List.mem_singleton] at hp
    subst hp
    cases ht
    exact absurd rfl hne
  | case2 line cs gap c rest hlen hgap _ step line' ih =>
    intro p hp t ht hne
    rw [piecesFrom_of_cons line hgap, List.mem_cons] at hp
    obtain rfl | hp := hp
    · obtain ⟨hfound, hlexeme, -⟩ := found_of_item_ok ht
      rw [hlexeme, String.toList_ofList]
      exact isLexeme_item hfound
    · exact ih p hp t ht hne

/-- Every token of a source but the last spells its kind and its literal. -/
theorem isLexeme_of_mem_scan {source : String} {t : Token} (h : t ∈ Token.scan source)
    (hne : t.kind ≠ .eof) : IsLexeme t.lexeme.toList t.kind t.literal := by
  simp only [Token.scan, items, List.filterMap_map, List.mem_filterMap,
    Function.comp_apply] at h
  obtain ⟨p, hp, ht⟩ := h
  cases hi : p.item with
  | error e =>
    rw [hi] at ht
    cases ht
  | ok u =>
    rw [hi] at ht
    cases ht
    exact isLexeme_of_mem_piecesFrom 1 source.toList p hp t hi hne

end Scan

/-! ## Legible trees -/

/-- The token is spelled by its kind, and is no string and no infinity. -/
structure Token.Legible (t : Token) : Prop where
  lexeme : Scan.IsLexeme t.lexeme.toList t.kind t.literal
  notString : t.kind ≠ .string
  finite : ∀ x, t.literal = some (.number x) → x.isFinite = true

/-- A legible token of one of these kinds. -/
def Token.Is (kinds : List TokenKind) (t : Token) : Prop := t.kind ∈ kinds ∧ t.Legible

theorem Token.is_singleton {kind : TokenKind} {t : Token} (hk : t.kind = kind) (ht : t.Legible) :
    t.Is [kind] := ⟨List.mem_singleton.2 hk, ht⟩

def Operator.logicalKinds : List TokenKind := [.kwAnd, .kwOr]

def Constant.Legible : Constant → Prop
  | .number x => x.isFinite = true
  | .string _ => False
  | .bool _ | .nil => True

mutual

def Expr.Legible : Expr → Prop
  | .constant c => c.Legible
  | .grouping e => e.Legible
  | .unary operator e => operator.Is Operator.unaryKinds ∧ e.Legible
  | .binary l operator r => operator.Is Operator.binaryKinds ∧ l.Legible ∧ r.Legible
  | .logical l operator r => operator.Is Operator.logicalKinds ∧ l.Legible ∧ r.Legible
  | .var _ name => name.Is [.identifier]
  | .assign _ name value => name.Is [.identifier] ∧ value.Legible
  | .call callee paren args => callee.Legible ∧ paren.Is [.rightParen] ∧ Expr.AllLegible args
  | .get object name => object.Legible ∧ name.Is [.identifier]
  | .set object name value => object.Legible ∧ name.Is [.identifier] ∧ value.Legible
  | .thisRef _ keyword => keyword.Is [.kwThis]
  | .superRef _ keyword method => keyword.Is [.kwSuper] ∧ method.Is [.identifier]
  | .unparsed => False

def Expr.AllLegible : List Expr → Prop
  | [] => True
  | e :: es => e.Legible ∧ Expr.AllLegible es

end

def Expr.OptionLegible (e : Option Expr) : Prop := ∀ e' ∈ e, e'.Legible

mutual

def Stmt.Legible : Stmt → Prop
  | .expression e => e.Legible
  | .var name init => name.Is [.identifier] ∧ Expr.OptionLegible init
  | .block body => Stmt.AllLegible body
  | .ifThen condition yes => condition.Legible ∧ yes.Legible
  | .ifElse condition yes no => condition.Legible ∧ yes.Legible ∧ no.Legible
  | .loop condition body => condition.Legible ∧ body.Legible
  | .function decl => decl.Legible
  | .ret keyword value => keyword.Is [.kwReturn] ∧ Expr.OptionLegible value
  | .cls name superclass methods =>
    name.Is [.identifier] ∧ Expr.OptionLegible superclass ∧ FunctionDecl.AllLegible methods

def Stmt.AllLegible : List Stmt → Prop
  | [] => True
  | s :: ss => s.Legible ∧ Stmt.AllLegible ss

def FunctionDecl.Legible : FunctionDecl → Prop
  | ⟨name, params, body⟩ =>
    name.Is [.identifier] ∧ (∀ p ∈ params, p.Is [.identifier]) ∧ Stmt.AllLegible body

def FunctionDecl.AllLegible : List FunctionDecl → Prop
  | [] => True
  | d :: ds => d.Legible ∧ FunctionDecl.AllLegible ds

end

theorem Stmt.AllLegible.of_mem : ∀ {ss : List Stmt} {s : Stmt}, Stmt.AllLegible ss → s ∈ ss →
    s.Legible
  | _ :: _, _, h, hs => by
    obtain rfl | hs := List.mem_cons.1 hs
    · exact h.1
    · exact Stmt.AllLegible.of_mem h.2 hs

/-! ## Parsed trees are legible -/

/-- The constant of a token is a finite number, if it is a number at all. -/
theorem Constant.legible_of_token {t : Token} (hk : t.kind ∈ Constant.kinds) (ht : t.Legible) :
    (Constant.ofConstantToken t).Legible := by
  obtain ⟨hlexeme, hstring, hfinite⟩ := ht
  simp only [Constant.kinds, List.mem_cons, List.not_mem_nil, or_false] at hk
  obtain hk | hk | hk | hk | hk := hk
  · rw [ofConstantToken, hk]; trivial
  · rw [ofConstantToken, hk]; trivial
  · rw [ofConstantToken, hk]; trivial
  · rw [ofConstantToken, hk]
    show (Constant.ofToken t).Legible
    rw [hk] at hlexeme
    generalize t.lexeme.toList = text at hlexeme
    generalize hl : t.literal = literal at hlexeme
    cases hlexeme with
    | symbol h => simp [Scan.symbols] at h
    | keyword h => simp [TokenKind.keywords] at h
    | integer | decimal =>
      rw [ofToken, hl]
      exact hfinite _ hl
  · exact absurd hk hstring

namespace Phrase

/-- What is legible, place by place. -/
def LegibleAs : Shape → Prop
  | .expression e | .level _ e | .operand _ e | .unary e | .call e | .primary e => e.Legible
  | .chain _ left e | .suffixes left e => left.Legible → e.Legible
  | .arguments args | .argumentList _ args => Expr.AllLegible args
  | .optional e | .superclass e => Expr.OptionLegible e
  | .parameters params | .parameterList _ params => ∀ p ∈ params, p.Is [.identifier]
  | .function decl => decl.Legible
  | .methods decls => FunctionDecl.AllLegible decls
  | .varRest s | .expressionStatement s | .statement _ s | .declaration s => s.Legible
  | .initializer s => ∀ s' ∈ s, s'.Legible
  | .declarations ss => Stmt.AllLegible ss

theorem legible_combine {level : Level} {operator : Token} {l r : Expr}
    (ho : operator.kind ∈ level.operators) (hoperator : operator.Legible) (hl : l.Legible)
    (hr : r.Legible) : (level.combine l operator r).Legible := by
  cases level <;> refine ⟨⟨?_, hoperator⟩, hl, hr⟩ <;>
    simp only [Level.operators, Operator.logicalKinds, Operator.binaryKinds, List.mem_cons,
      List.not_mem_nil, or_false] at ho ⊢ <;>
    grind

theorem optionLegible_none : Expr.OptionLegible none := nofun

theorem optionLegible_some {e : Expr} (h : e.Legible) : Expr.OptionLegible (some e) := by
  rintro _ ⟨⟩
  exact h

theorem legible_ofFor {init : Option Stmt} {condition increment : Option Expr} {body : Stmt}
    (hinit : ∀ s ∈ init, s.Legible) (hcondition : Expr.OptionLegible condition)
    (hincrement : Expr.OptionLegible increment) (hbody : body.Legible) :
    (Stmt.ofFor init condition increment body).Legible := by
  have htest : (condition.getD (.constant (.bool true))).Legible := by
    cases condition with
    | none => trivial
    | some e => exact hcondition e rfl
  cases increment with
  | none =>
    cases init with
    | none => exact ⟨htest, hbody⟩
    | some s => exact ⟨hinit s rfl, ⟨htest, hbody⟩, trivial⟩
  | some e =>
    have hrepeated : (Stmt.block [body, .expression e]).Legible :=
      ⟨hbody, hincrement e rfl, trivial⟩
    cases init with
    | none => exact ⟨htest, hrepeated⟩
    | some s => exact ⟨hinit s rfl, ⟨htest, hrepeated⟩, trivial⟩

/-- A tree that is written with legible tokens is legible. -/
theorem legible {shape : Shape} {u : List Stamped} (h : Phrase shape u)
    (hu : ∀ t ∈ u, t.token.Legible) : LegibleAs shape := by
  induction h with
  | plain _ ih => exact ih hu
  | assign hn _ _ ih =>
    simp only [List.forall_mem_cons] at hu
    exact ⟨Token.is_singleton hn hu.1, ih hu.2.2⟩
  | set _ _ hn _ _ ihObject ihValue =>
    simp only [List.forall_mem_append, List.forall_mem_cons] at hu
    obtain ⟨ho, -, hname, -, hv⟩ := hu
    exact ⟨ihObject ho, Token.is_singleton hn hname, ihValue hv⟩
  | level _ _ ihFirst ihChain =>
    rw [List.forall_mem_append] at hu
    exact ihChain hu.2 (ihFirst hu.1)
  | operandLevel _ _ ih => exact ih hu
  | operandUnary _ _ ih => exact ih hu
  | chainStop => exact id
  | chainStep ho _ _ ihRight ihChain =>
    intro hleft
    simp only [List.forall_mem_cons, List.forall_mem_append] at hu
    exact ihChain hu.2.2 (legible_combine ho hu.1 hleft (ihRight hu.2.1))
  | unary ho _ ih =>
    rw [List.forall_mem_cons] at hu
    exact ⟨⟨ho, hu.1⟩, ih hu.2⟩
  | unaryCall _ ih => exact ih hu
  | call _ _ ihFirst ihSuffixes =>
    rw [List.forall_mem_append] at hu
    exact ihSuffixes hu.2 (ihFirst hu.1)
  | suffixesStop => exact id
  | suffixesCall _ _ hp _ ihArguments ihSuffixes =>
    intro hcallee
    simp only [List.forall_mem_cons, List.forall_mem_append] at hu
    obtain ⟨-, ha, hparen, hs⟩ := hu
    exact ihSuffixes hs ⟨hcallee, Token.is_singleton hp hparen, ihArguments ha⟩
  | suffixesGet _ hn _ ih =>
    intro hobject
    simp only [List.forall_mem_cons] at hu
    exact ih hu.2.2 ⟨hobject, Token.is_singleton hn hu.2.1⟩
  | argumentsNone => trivial
  | argumentsSome _ ih => exact ih hu
  | argumentLast _ _ ih => exact ⟨ih hu, trivial⟩
  | argumentMore _ _ _ _ ihFirst ihMore =>
    simp only [List.forall_mem_cons, List.forall_mem_append] at hu
    exact ⟨ihFirst hu.1, ihMore hu.2.2⟩
  | constant hk =>
    rw [List.forall_mem_singleton] at hu
    exact Constant.legible_of_token hk hu
  | superRef hk _ hn =>
    simp only [List.forall_mem_cons] at hu
    exact ⟨Token.is_singleton hk hu.1, Token.is_singleton hn hu.2.2.1⟩
  | thisRef hk =>
    rw [List.forall_mem_singleton] at hu
    exact Token.is_singleton hk hu
  | var hn =>
    rw [List.forall_mem_singleton] at hu
    exact Token.is_singleton hn hu
  | grouping _ _ _ ih =>
    simp only [List.forall_mem_cons, List.forall_mem_append] at hu
    exact ih hu.2.1
  | optionalNone => exact optionLegible_none
  | optionalSome _ ih => exact optionLegible_some (ih hu)
  | superclassNone => exact optionLegible_none
  | superclassSome _ hn =>
    simp only [List.forall_mem_cons] at hu
    exact optionLegible_some (Token.is_singleton hn hu.2.1)
  | parametersNone => exact List.forall_mem_nil _
  | parametersSome _ ih => exact ih hu
  | parameterLast _ hp =>
    rw [List.forall_mem_singleton] at hu
    exact List.forall_mem_singleton.2 (Token.is_singleton hp hu)
  | parameterMore _ hp _ _ ih =>
    simp only [List.forall_mem_cons] at hu
    exact List.forall_mem_cons.2 ⟨Token.is_singleton hp hu.1, ih hu.2.2⟩
  | function hn _ _ _ _ _ _ ihParams ihBody =>
    simp only [List.forall_mem_cons, List.forall_mem_append] at hu
    obtain ⟨hname, -, hp, -, -, hb, -⟩ := hu
    exact ⟨Token.is_singleton hn hname, ihParams hp, ihBody hb⟩
  | methodsNone => trivial
  | methodsMore _ _ ihFirst ihMore =>
    rw [List.forall_mem_append] at hu
    exact ⟨ihFirst hu.1, ihMore hu.2⟩
  | varPlain hn =>
    simp only [List.forall_mem_cons] at hu
    exact ⟨Token.is_singleton hn hu.1, optionLegible_none⟩
  | varInit hn _ _ _ ih =>
    simp only [List.forall_mem_cons, List.forall_mem_append] at hu
    exact ⟨Token.is_singleton hn hu.1, optionLegible_some (ih hu.2.2.1)⟩
  | expressionStatement _ _ ih =>
    rw [List.forall_mem_append] at hu
    exact ih hu.1
  | initializerNone => exact fun _ h => nomatch h
  | initializerVar _ _ ih =>
    rw [List.forall_mem_cons] at hu
    rintro _ ⟨⟩
    exact ih hu.2
  | initializerExpression _ ih =>
    rintro _ ⟨⟩
    exact ih hu
  | expressionForm _ ih => exact ih hu
  | forLoop _ _ _ _ _ _ _ _ ihInit ihCondition ihIncrement ihBody =>
    simp only [List.forall_mem_cons, List.forall_mem_append] at hu
    obtain ⟨-, -, ha, hb, -, hc, -, hd⟩ := hu
    exact legible_ofFor (ihInit ha) (ihCondition hb) (ihIncrement hc) (ihBody hd)
  | ifThen _ _ _ _ _ ihCondition ihYes =>
    simp only [List.forall_mem_cons, List.forall_mem_append] at hu
    exact ⟨ihCondition hu.2.2.1, ihYes hu.2.2.2.2⟩
  | ifElse _ _ _ _ _ _ _ ihCondition ihYes ihNo =>
    simp only [List.forall_mem_cons, List.forall_mem_append] at hu
    obtain ⟨-, -, hc, -, hy, -, hn⟩ := hu
    exact ⟨ihCondition hc, ihYes hy, ihNo hn⟩
  | whileLoop _ _ _ _ _ ihCondition ihBody =>
    simp only [List.forall_mem_cons, List.forall_mem_append] at hu
    exact ⟨ihCondition hu.2.2.1, ihBody hu.2.2.2.2⟩
  | ret hk _ _ ih =>
    simp only [List.forall_mem_cons, List.forall_mem_append] at hu
    exact ⟨Token.is_singleton hk hu.1, ih hu.2.1⟩
  | block _ _ _ ih =>
    simp only [List.forall_mem_cons, List.forall_mem_append] at hu
    exact ih hu.2.1
  | classDeclaration _ hn _ _ _ _ ihSuper ihMethods =>
    simp only [List.forall_mem_cons, List.forall_mem_append] at hu
    obtain ⟨-, hname, hs, -, hm, -⟩ := hu
    exact ⟨Token.is_singleton hn hname, ihSuper hs, ihMethods hm⟩
  | functionDeclaration _ _ ih =>
    rw [List.forall_mem_cons] at hu
    exact ih hu.2
  | varDeclaration _ _ ih =>
    rw [List.forall_mem_cons] at hu
    exact ih hu.2
  | statement _ ih => exact ih hu
  | declarationsNone => trivial
  | declarationsMore _ _ ihFirst ihMore =>
    rw [List.forall_mem_append] at hu
    exact ⟨ihFirst hu.1, ihMore hu.2⟩

end Phrase

end Lox
