import Lox.Program.Grammar
import Lox.Proofs.Parse.Phrase

/-!
# Lox.Proofs.Parse.Spelling

Every phrase has a derivation (`spelled`): by induction on the phrase, the rules derive a tree over
the kinds of its tokens. The limit on the number of parameters and arguments, which a phrase has at
each entry, becomes a limit on the whole list.
-/

namespace Lox
namespace Grammar

/-! ## Spelling -/

/-- The form is derived to `n` entries over these tokens, all its lists short enough. -/
def Spells (form : Form) (n : Nat) (u : List Stamped) : Prop :=
  ∃ ts, Derives form ts ∧ entries ts = n ∧ Tree.yieldAll ts = u.map (·.token.kind) ∧
    Tree.AllListsWithin maxArity ts

def Spelled (form : Form) (u : List Stamped) : Prop := ∃ n, Spells form n u

theorem yieldAll_append (ts us : List Tree) :
    Tree.yieldAll (ts ++ us) = Tree.yieldAll ts ++ Tree.yieldAll us := by
  induction ts with
  | nil => rfl
  | cons t ts ih => simp [Tree.yieldAll, ih]

theorem allListsWithin_append {n : Nat} (ts us : List Tree) :
    Tree.AllListsWithin n (ts ++ us) ↔ Tree.AllListsWithin n ts ∧ Tree.AllListsWithin n us := by
  induction ts with
  | nil => simp [Tree.AllListsWithin]
  | cons t ts ih => simp [Tree.AllListsWithin, ih, and_assoc]

theorem entries_append (ts us : List Tree) : entries (ts ++ us) = entries ts + entries us := by
  induction ts with
  | nil => simp [entries]
  | cons t ts ih =>
    cases t with
    | leaf kind => cases kind <;> simp [entries, ih, Nat.add_right_comm]
    | node r children => simp [entries, ih, Nat.add_right_comm]

theorem spells_token {kind : TokenKind} {t : Stamped} (h : t.token.kind = kind) :
    Spells (.token kind) (entries [.leaf kind]) [t] :=
  ⟨[.leaf kind], .token, rfl, by simp [Tree.yieldAll, Tree.yield, h], trivial, trivial⟩

theorem spells_rule {r : Rule} {n : Nat} {u : List Stamped} (h : Spells r.form n u)
    (hn : r = .parameters ∨ r = .arguments → n ≤ maxArity) : Spells (.rule r) 1 u := by
  obtain ⟨ts, hts, rfl, hy, hw⟩ := h
  exact ⟨[.node r ts], .rule hts, rfl, by simp [Tree.yieldAll, Tree.yield, hy], ⟨hn, hw⟩, trivial⟩

theorem Spells.seq {a b : Form} {n m : Nat} {u v : List Stamped} (ha : Spells a n u)
    (hb : Spells b m v) : Spells (a ++ b) (n + m) (u ++ v) := by
  obtain ⟨ts, hts, rfl, hy, hw⟩ := ha
  obtain ⟨us, hus, rfl, hy', hw'⟩ := hb
  exact ⟨ts ++ us, .seq hts hus, entries_append ts us, by simp [yieldAll_append, hy, hy'],
    (allListsWithin_append ts us).2 ⟨hw, hw'⟩⟩

theorem spells_done {a : Form} : Spells (.many a) 0 [] :=
  ⟨[], .done, rfl, rfl, trivial⟩

theorem Spells.again {a : Form} {n m : Nat} {u v : List Stamped} (h : Spells a n u)
    (hmore : Spells (.many a) m v) : Spells (.many a) (n + m) (u ++ v) := by
  obtain ⟨ts, hts, rfl, hy, hw⟩ := h
  obtain ⟨us, hus, rfl, hy', hw'⟩ := hmore
  exact ⟨ts ++ us, .again hts hus, entries_append ts us, by simp [yieldAll_append, hy, hy'],
    (allListsWithin_append ts us).2 ⟨hw, hw'⟩⟩

/-- A list written with a first entry has one that the repeated part could begin with. -/
theorem Spells.more {a b : Form} {n m : Nat} {u v : List Stamped} (h : Spells b n u)
    (hlist : Spells (a ++ .many (b ++ a)) m v) : Spells (.many (b ++ a)) (n + m) (u ++ v) := by
  obtain ⟨ts, hts, rfl, hy, hw⟩ := h
  obtain ⟨us, hus, rfl, hy', hw'⟩ := hlist
  cases hus with
  | @seq _ _ first rest hfirst hrest =>
    refine ⟨ts ++ first ++ rest, .again (.seq hts hfirst) hrest, ?_, ?_, ?_⟩
    · rw [List.append_assoc, entries_append]
    · rw [List.append_assoc, yieldAll_append, hy, hy', List.map_append]
    · rw [List.append_assoc]
      exact (allListsWithin_append ts _).2 ⟨hw, hw'⟩

section Spelled

variable {a b : Form} {u v : List Stamped}

theorem spelled_token {kind : TokenKind} {t : Stamped} (h : t.token.kind = kind) :
    Spelled (.token kind) [t] :=
  ⟨_, spells_token h⟩

theorem Spelled.rule {r : Rule} (h : Spelled r.form u)
    (hr : ¬ (r = .parameters ∨ r = .arguments)) : Spelled (.rule r) u := by
  obtain ⟨n, h⟩ := h
  exact ⟨1, spells_rule h fun hr' => absurd hr' hr⟩

theorem Spelled.congr (h : Spelled a u) (huv : u = v) : Spelled a v := huv ▸ h

theorem Spelled.seq (ha : Spelled a u) (hb : Spelled b v) : Spelled (a ++ b) (u ++ v) := by
  obtain ⟨n, ha⟩ := ha
  obtain ⟨m, hb⟩ := hb
  exact ⟨n + m, ha.seq hb⟩

theorem Spelled.first (h : Spelled a u) : Spelled (a ||| b) u := by
  obtain ⟨n, ts, hts, h⟩ := h
  exact ⟨n, ts, .first hts, h⟩

theorem Spelled.second (h : Spelled b u) : Spelled (a ||| b) u := by
  obtain ⟨n, ts, hts, h⟩ := h
  exact ⟨n, ts, .second hts, h⟩

theorem spelled_without : Spelled (.opt a) [] :=
  ⟨0, [], .without, rfl, rfl, trivial⟩

theorem Spelled.present (h : Spelled a u) : Spelled (.opt a) u := by
  obtain ⟨n, ts, hts, h⟩ := h
  exact ⟨n, ts, .present hts, h⟩

theorem spelled_done : Spelled (.many a) [] := ⟨0, spells_done⟩

theorem Spelled.again (h : Spelled a u) (hmore : Spelled (.many a) v) :
    Spelled (.many a) (u ++ v) := by
  obtain ⟨n, h⟩ := h
  obtain ⟨m, hmore⟩ := hmore
  exact ⟨n + m, h.again hmore⟩

end Spelled

/-- A rule counts as one entry. -/
theorem Spelled.one {r : Rule} {u : List Stamped} (h : Spelled (.rule r) u) :
    Spells (.rule r) 1 u := by
  obtain ⟨n, ts, hts, -, h⟩ := h
  cases hts with
  | rule hts => exact ⟨_, .rule hts, rfl, h⟩

section Lists

variable {item : Form} {index : Nat} {u v : List Stamped}

theorem spells_last (h : Spells item 1 u) (hi : index < maxArity) :
    ∃ n, Spells (item ++ .many (.token .comma ++ item)) n u ∧ index + n ≤ maxArity :=
  ⟨1, by simpa using h.seq spells_done, hi⟩

theorem spells_cons {comma : Stamped} (h : Spells item 1 u) (hc : comma.token.kind = .comma)
    (hmore : ∃ n, Spells (item ++ .many (.token .comma ++ item)) n v ∧ index + 1 + n ≤ maxArity) :
    ∃ n, Spells (item ++ .many (.token .comma ++ item)) n (u ++ comma :: v) ∧
      index + n ≤ maxArity := by
  obtain ⟨n, hlist, hn⟩ := hmore
  have hrest : Spells (.many (.token .comma ++ item)) (0 + n) ([comma] ++ v) :=
    (spells_token hc).more hlist
  exact ⟨1 + (0 + n), h.seq hrest, by omega⟩

end Lists

/-! ## Phrases are spelled -/

end Grammar

namespace Level

open Grammar

def rule : Level → Rule
  | or => .logicOr
  | and => .logicAnd
  | equality => .equality
  | comparison => .comparison
  | term => .term
  | factor => .factor

/-- The rule of the operands. -/
def operandRule (level : Level) : Rule :=
  match level.tighter with
  | some tighter => tighter.rule
  | none => .unary

open Form in
def operatorForm : Level → Form
  | or => token .kwOr
  | and => token .kwAnd
  | equality => token .bangEqual ||| token .equalEqual
  | comparison => token .greater ||| token .greaterEqual ||| token .less ||| token .lessEqual
  | term => token .minus ||| token .plus
  | factor => token .slash ||| token .star

theorem form_rule (level : Level) :
    level.rule.form =
      .rule level.operandRule ++ .many (level.operatorForm ++ .rule level.operandRule) := by
  cases level <;> rfl

theorem spelled_rule {level : Level} {u : List Stamped} (h : Spelled level.rule.form u) :
    Spelled (.rule level.rule) u :=
  h.rule (by cases level <;> decide)

theorem spelled_operator {level : Level} {t : Stamped} (h : t.token.kind ∈ level.operators) :
    Spelled level.operatorForm [t] := by
  cases level with
  | or | and => exact spelled_token (by simpa [operators] using h)
  | equality | term | factor =>
    simp only [operators, List.mem_cons, List.not_mem_nil, or_false] at h
    obtain h | h := h
    · exact (spelled_token h).first
    · exact (spelled_token h).second
  | comparison =>
    simp only [operators, List.mem_cons, List.not_mem_nil, or_false] at h
    obtain h | h | h | h := h
    · exact (spelled_token h).first.first.first
    · exact (spelled_token h).second.first.first
    · exact (spelled_token h).second.first
    · exact (spelled_token h).second

end Level

namespace Grammar

open Form in
/-- One call or property access after an expression. -/
def suffix : Form :=
  token .leftParen ++ opt (rule .arguments) ++ token .rightParen ||| token .dot ++ token .identifier

/-- What the rules say of a phrase. An expression is spelled as an assignment, and the rest of a
variable declaration together with any keyword before it. -/
def SpelledAs : Shape → List Stamped → Prop
  | .expression _, u => Spelled (.rule .assignment) u
  | .level level _, u => Spelled (.rule level.rule) u
  | .operand level _, u => Spelled (.rule level.operandRule) u
  | .chain level _ _, u => Spelled (.many (level.operatorForm ++ .rule level.operandRule)) u
  | .unary _, u => Spelled (.rule .unary) u
  | .call _, u => Spelled (.rule .call) u
  | .suffixes _ _, u => Spelled (.many suffix) u
  | .arguments _, u => Spelled (.opt (.rule .arguments)) u
  | .argumentList index _, u => ∃ n, Spells Rule.arguments.form n u ∧ index + n ≤ maxArity
  | .primary _, u => Spelled (.rule .primary) u
  | .optional _, u => Spelled (.opt (.rule .expression)) u
  | .superclass _, u => Spelled (.opt (.token .less ++ .token .identifier)) u
  | .parameters _, u => Spelled (.opt (.rule .parameters)) u
  | .parameterList index _, u => ∃ n, Spells Rule.parameters.form n u ∧ index + n ≤ maxArity
  | .function _, u => Spelled (.rule .function) u
  | .methods _, u => Spelled (.many (.rule .function)) u
  | .varRest _, u => ∀ keyword : Stamped, keyword.token.kind = .kwVar →
      Spelled (.rule .varDecl) (keyword :: u)
  | .expressionStatement _, u => Spelled (.rule .exprStmt) u
  | .initializer _, u =>
      Spelled (.rule .varDecl ||| .rule .exprStmt ||| .token .semicolon) u
  | .statement _ _, u => Spelled (.rule .statement) u
  | .declaration _, u => Spelled (.rule .declaration) u
  | .declarations _, u => Spelled (.many (.rule .declaration)) u

section Spelling

variable {u v w x : List Stamped}

theorem spelled_expression (h : Spelled (.rule .assignment) u) : Spelled (.rule .expression) u :=
  Spelled.rule (r := .expression) h (by decide)

theorem spelled_constant {t : Stamped} (h : t.token.kind ∈ Constant.kinds) :
    Spelled (.rule .primary) [t] := by
  refine Spelled.rule ?_ (by decide)
  simp only [Constant.kinds, List.mem_cons, List.not_mem_nil, or_false] at h
  obtain h | h | h | h | h := h
  · exact (spelled_token h).second.first.first.first.first.first
  · exact (spelled_token h).second.first.first.first.first.first.first
  · exact (spelled_token h).second.first.first.first.first
  · exact (spelled_token h).first.first.first.first.first.first.first.first
  · exact (spelled_token h).second.first.first.first.first.first.first.first

theorem spelled_block {left right : Stamped} (hl : left.token.kind = .leftBrace)
    (h : Spelled (.many (.rule .declaration)) u) (hr : right.token.kind = .rightBrace) :
    Spelled (.rule .block) (left :: (u ++ [right])) :=
  Spelled.rule (((spelled_token hl).seq h).seq (spelled_token hr)) (by decide)

theorem spelled_call {opening paren : Stamped} (ho : opening.token.kind = .leftParen)
    (h : Spelled (.opt (.rule .arguments)) u) (hp : paren.token.kind = .rightParen)
    (hmore : Spelled (.many suffix) v) : Spelled (.many suffix) (opening :: (u ++ paren :: v)) := by
  have h : Spelled suffix ([opening] ++ u ++ [paren]) :=
    (((spelled_token ho).seq h).seq (spelled_token hp)).first
  simpa using h.again hmore

theorem spelled_get {dot name : Stamped} (hd : dot.token.kind = .dot)
    (hn : name.token.kind = .identifier) (hmore : Spelled (.many suffix) u) :
    Spelled (.many suffix) (dot :: name :: u) := by
  have h : Spelled suffix ([dot] ++ [name]) := ((spelled_token hd).seq (spelled_token hn)).second
  simpa using h.again hmore

theorem spelled_assign {name equal : Stamped} (hn : name.token.kind = .identifier)
    (he : equal.token.kind = .equal) (h : Spelled (.rule .assignment) u) :
    Spelled (.rule .assignment) (name :: equal :: u) := by
  have hobject : Spelled (.opt (.rule .call ++ .token .dot)) [] := spelled_without
  have h := ((hobject.seq (spelled_token hn)).seq (spelled_token he)).seq h
  exact Spelled.rule h.first (by decide)

theorem spelled_set {dot name equal : Stamped} (h : Spelled (.rule .call) u)
    (hd : dot.token.kind = .dot) (hn : name.token.kind = .identifier)
    (he : equal.token.kind = .equal) (hv : Spelled (.rule .assignment) v) :
    Spelled (.rule .assignment) (u ++ dot :: name :: equal :: v) := by
  have h := (((h.seq (spelled_token hd)).present.seq (spelled_token hn)).seq
    (spelled_token he)).seq hv
  exact Spelled.rule (h.first.congr (by simp)) (by decide)

theorem spelled_function {name opening closing left right : Stamped}
    (hn : name.token.kind = .identifier) (ho : opening.token.kind = .leftParen)
    (hp : Spelled (.opt (.rule .parameters)) u) (hc : closing.token.kind = .rightParen)
    (hl : left.token.kind = .leftBrace) (hb : Spelled (.many (.rule .declaration)) v)
    (hr : right.token.kind = .rightBrace) :
    Spelled (.rule .function) (name :: opening :: (u ++ closing :: left :: (v ++ [right]))) := by
  have h := ((((spelled_token hn).seq (spelled_token ho)).seq hp).seq (spelled_token hc)).seq
    (spelled_block hl hb hr)
  exact Spelled.rule (h.congr (by simp)) (by decide)

theorem spelled_class {keyword name left right : Stamped} (hk : keyword.token.kind = .kwClass)
    (hn : name.token.kind = .identifier)
    (hs : Spelled (.opt (.token .less ++ .token .identifier)) u)
    (hl : left.token.kind = .leftBrace) (hm : Spelled (.many (.rule .function)) v)
    (hr : right.token.kind = .rightBrace) :
    Spelled (.rule .declaration) (keyword :: name :: (u ++ left :: (v ++ [right]))) := by
  have h := (((((spelled_token hk).seq (spelled_token hn)).seq hs).seq (spelled_token hl)).seq
    hm).seq (spelled_token hr)
  have h : Spelled (.rule .classDecl) (keyword :: name :: (u ++ left :: (v ++ [right]))) :=
    Spelled.rule (h.congr (by simp)) (by decide)
  exact Spelled.rule h.first.first.first (by decide)

theorem spelled_for {keyword opening semicolon closing : Stamped}
    (hk : keyword.token.kind = .kwFor) (ho : opening.token.kind = .leftParen)
    (hi : Spelled (.rule .varDecl ||| .rule .exprStmt ||| .token .semicolon) u)
    (hcond : Spelled (.opt (.rule .expression)) v) (hs : semicolon.token.kind = .semicolon)
    (hinc : Spelled (.opt (.rule .expression)) w) (hc : closing.token.kind = .rightParen)
    (hb : Spelled (.rule .statement) x) :
    Spelled (.rule .statement)
      (keyword :: opening :: (u ++ (v ++ semicolon :: (w ++ closing :: x)))) := by
  have h := (((((((spelled_token hk).seq (spelled_token ho)).seq hi).seq hcond).seq
    (spelled_token hs)).seq hinc).seq (spelled_token hc)).seq hb
  have h : Spelled (.rule .forStmt)
      (keyword :: opening :: (u ++ (v ++ semicolon :: (w ++ closing :: x)))) :=
    Spelled.rule (h.congr (by simp)) (by decide)
  exact Spelled.rule h.second.first.first.first.first (by decide)

theorem spelled_if {keyword opening closing : Stamped} (hk : keyword.token.kind = .kwIf)
    (ho : opening.token.kind = .leftParen) (hcond : Spelled (.rule .expression) u)
    (hc : closing.token.kind = .rightParen) (hyes : Spelled (.rule .statement) v)
    (hno : Spelled (.opt (.token .kwElse ++ .rule .statement)) w) :
    Spelled (.rule .statement) (keyword :: opening :: (u ++ closing :: (v ++ w))) := by
  have h := (((((spelled_token hk).seq (spelled_token ho)).seq hcond).seq (spelled_token hc)).seq
    hyes).seq hno
  have h : Spelled (.rule .ifStmt) (keyword :: opening :: (u ++ closing :: (v ++ w))) :=
    Spelled.rule (h.congr (by simp)) (by decide)
  exact Spelled.rule h.second.first.first.first (by decide)

theorem spelled_while {keyword opening closing : Stamped} (hk : keyword.token.kind = .kwWhile)
    (ho : opening.token.kind = .leftParen) (hcond : Spelled (.rule .expression) u)
    (hc : closing.token.kind = .rightParen) (hb : Spelled (.rule .statement) v) :
    Spelled (.rule .statement) (keyword :: opening :: (u ++ closing :: v)) := by
  have h := ((((spelled_token hk).seq (spelled_token ho)).seq hcond).seq (spelled_token hc)).seq hb
  have h : Spelled (.rule .whileStmt) (keyword :: opening :: (u ++ closing :: v)) :=
    Spelled.rule (h.congr (by simp)) (by decide)
  exact Spelled.rule h.second.first (by decide)

theorem spelled_return {keyword semicolon : Stamped} (hk : keyword.token.kind = .kwReturn)
    (h : Spelled (.opt (.rule .expression)) u) (hs : semicolon.token.kind = .semicolon) :
    Spelled (.rule .statement) (keyword :: (u ++ [semicolon])) := by
  have h : Spelled (.rule .returnStmt) (keyword :: (u ++ [semicolon])) :=
    Spelled.rule (((spelled_token hk).seq h).seq (spelled_token hs)) (by decide)
  exact Spelled.rule h.second.first.first (by decide)

theorem spelled_var {keyword name semicolon : Stamped} (hk : keyword.token.kind = .kwVar)
    (hn : name.token.kind = .identifier)
    (h : Spelled (.opt (.token .equal ++ .rule .expression)) u)
    (hs : semicolon.token.kind = .semicolon) :
    Spelled (.rule .varDecl) (keyword :: name :: (u ++ [semicolon])) := by
  have h := (((spelled_token hk).seq (spelled_token hn)).seq h).seq (spelled_token hs)
  exact Spelled.rule (h.congr (by simp)) (by decide)

end Spelling

/-- Every phrase has a derivation. -/
theorem spelled {shape : Shape} {u : List Stamped} (h : Phrase shape u) : SpelledAs shape u := by
  induction h with
  | plain _ ih => exact Spelled.rule (Spelled.second ih) (by decide)
  | assign hn he _ ih => exact spelled_assign hn he ih
  | set _ hd hn he _ ihObject ihValue => exact spelled_set ihObject hd hn he ihValue
  | @level level _ _ _ _ _ _ ihFirst ihChain =>
    exact Level.spelled_rule (by rw [Level.form_rule]; exact Spelled.seq ihFirst ihChain)
  | operandLevel ht _ ih =>
    simp only [SpelledAs, Level.operandRule, ht]
    exact ih
  | operandUnary ht _ ih =>
    simp only [SpelledAs, Level.operandRule, ht]
    exact ih
  | chainStop => exact spelled_done
  | chainStep ho _ _ ihRight ihChain =>
    exact Spelled.again (Spelled.seq (Level.spelled_operator ho) ihRight) ihChain
  | unary ho _ ih =>
    simp only [List.mem_cons, List.not_mem_nil, or_false] at ho
    have ho : Spelled (.token .bang ||| .token .minus) [_] :=
      ho.elim (fun h => (spelled_token h).first) (fun h => (spelled_token h).second)
    exact Spelled.rule (Spelled.first (ho.seq ih)) (by decide)
  | unaryCall _ ih => exact Spelled.rule (Spelled.second ih) (by decide)
  | call _ _ ihFirst ihSuffixes => exact Spelled.rule (Spelled.seq ihFirst ihSuffixes) (by decide)
  | suffixesStop => exact spelled_done
  | suffixesCall ho _ hp _ ihArguments ihSuffixes => exact spelled_call ho ihArguments hp ihSuffixes
  | suffixesGet hd hn _ ih => exact spelled_get hd hn ih
  | argumentsNone => exact spelled_without
  | argumentsSome _ ih =>
    obtain ⟨n, h, hn⟩ := ih
    exact Spelled.present ⟨1, spells_rule h fun _ => by omega⟩
  | argumentLast hi _ ih => exact spells_last (spelled_expression ih).one hi
  | argumentMore hi _ hc _ ihFirst ihMore =>
    exact spells_cons (spelled_expression ihFirst).one hc ihMore
  | constant hk => exact spelled_constant hk
  | superRef hk hd hn =>
    exact Spelled.rule (((spelled_token hk).seq (spelled_token hd)).seq (spelled_token hn)).second
      (by decide)
  | thisRef hk => exact Spelled.rule (spelled_token hk).second.first.first.first (by decide)
  | var hk => exact Spelled.rule (spelled_token hk).second.first.first (by decide)
  | grouping ho _ hc ih =>
    exact Spelled.rule (((spelled_token ho).seq (spelled_expression ih)).seq
      (spelled_token hc)).second.first (by decide)
  | optionalNone => exact spelled_without
  | optionalSome _ ih => exact (spelled_expression ih).present
  | superclassNone => exact spelled_without
  | superclassSome hl hn => exact ((spelled_token hl).seq (spelled_token hn)).present
  | parametersNone => exact spelled_without
  | parametersSome _ ih =>
    obtain ⟨n, h, hn⟩ := ih
    exact Spelled.present ⟨1, spells_rule h fun _ => by omega⟩
  | parameterLast hi hp => exact spells_last (spells_token hp) hi
  | parameterMore hi hp hc _ ih => exact spells_cons (spells_token hp) hc ih
  | function hn ho _ hc hl _ hr ihParams ihBody => exact spelled_function hn ho ihParams hc hl ihBody hr
  | methodsNone => exact spelled_done
  | methodsMore _ _ ihFirst ihMore => exact Spelled.again ihFirst ihMore
  | varPlain hn hs => exact fun keyword hk => spelled_var hk hn spelled_without hs
  | varInit hn he _ hs ih =>
    intro keyword hk
    have h := spelled_var hk hn ((spelled_token he).seq (spelled_expression ih)).present hs
    exact h.congr (by simp)
  | expressionStatement _ hs ih =>
    exact Spelled.rule (Spelled.seq (spelled_expression ih) (spelled_token hs)) (by decide)
  | initializerNone hs => exact (spelled_token hs).second
  | initializerVar hk _ ih => exact (ih _ hk).first.first
  | initializerExpression _ ih => exact Spelled.first (Spelled.second ih)
  | expressionForm _ ih =>
    exact Spelled.rule (Spelled.first (Spelled.first (Spelled.first (Spelled.first
      (Spelled.first ih))))) (by decide)
  | forLoop hk ho _ _ hs _ hc _ ihInit ihCondition ihIncrement ihBody =>
    exact spelled_for hk ho ihInit ihCondition hs ihIncrement hc ihBody
  | ifThen hk ho _ hc _ ihCondition ihYes =>
    have h := spelled_if hk ho (spelled_expression ihCondition) hc ihYes spelled_without
    exact h.congr (by simp)
  | ifElse hk ho _ hc _ he _ ihCondition ihYes ihNo =>
    exact spelled_if hk ho (spelled_expression ihCondition) hc ihYes
      (Spelled.seq (spelled_token he) ihNo).present
  | whileLoop hk ho _ hc _ ihCondition ihBody =>
    exact spelled_while hk ho (spelled_expression ihCondition) hc ihBody
  | ret hk _ hs ih => exact spelled_return hk ih hs
  | block hl _ hr ih => exact Spelled.rule (spelled_block hl ih hr).second (by decide)
  | classDeclaration hk hn _ hl _ hr ihSuper ihMethods =>
    exact spelled_class hk hn ihSuper hl ihMethods hr
  | functionDeclaration hk _ ih =>
    have h : Spelled (.rule .funDecl) _ := Spelled.rule (Spelled.seq (spelled_token hk) ih) (by decide)
    exact Spelled.rule h.second.first.first (by decide)
  | varDeclaration hk _ ih => exact Spelled.rule (ih _ hk).second.first (by decide)
  | statement _ ih => exact Spelled.rule (Spelled.second ih) (by decide)
  | declarationsNone => exact spelled_done
  | declarationsMore _ _ ihFirst ihMore => exact Spelled.again ihFirst ihMore

end Grammar
end Lox
