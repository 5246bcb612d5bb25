import Lox.Program.Written
import Lox.Proofs.Parse.Reading
import Mathlib.Data.List.TakeWhile

/-!
# Lox.Proofs.Parse.RoundTrip

Parsing undoes writing (`Parse.ofTokens_of_writes`).

A stratified expression is a phrase at the level of its rank, and by going up it is one at every
looser level (`phrase_of_le`). That is all that its place can ask for, so each node is put together
from the phrases of its operands. Operators of one level and suffixes are collected from the left in
a phrase and nested to the left in a tree: the last one of the tree goes to the end of the chain
(`chain_append`, `suffixes_append`).
-/

namespace Lox

/-! ## Phrases by rank -/

/-- The place in the grammar for expressions of a rank. -/
def Shape.ofRank : Nat → Expr → Shape
  | 0 => .expression
  | 1 => .level .or
  | 2 => .level .and
  | 3 => .level .equality
  | 4 => .level .comparison
  | 5 => .level .term
  | 6 => .level .factor
  | 7 => .unary
  | 8 => .call
  | _ => .primary

theorem Shape.ofRank_rank (level : Level) : Shape.ofRank level.rank = .level level := by
  cases level <;> rfl

namespace Phrase

variable {e : Expr} {u v : List Stamped}

theorem level_of_operand {level : Level} (h : Phrase (.operand level e) u) :
    Phrase (.level level e) u := by
  have := Phrase.level h .chainStop
  rwa [List.append_nil] at this

theorem call_of_primary (h : Phrase (.primary e) u) : Phrase (.call e) u := by
  have := Phrase.call h .suffixesStop
  rwa [List.append_nil] at this

/-- One level up. -/
theorem phrase_of_succ (n : Nat) (h : Phrase (.ofRank (n + 1) e) u) :
    Phrase (.ofRank n e) u := by
  match n with
  | 0 => exact .plain h
  | 1 | 2 | 3 | 4 | 5 => exact level_of_operand (.operandLevel rfl h)
  | 6 => exact level_of_operand (.operandUnary rfl h)
  | 7 => exact .unaryCall h
  | 8 => exact call_of_primary h
  | n + 9 => exact h

theorem phrase_of_le {m n : Nat} (hmn : m ≤ n) (h : Phrase (.ofRank n e) u) :
    Phrase (.ofRank m e) u := by
  induction hmn with
  | refl => exact h
  | step _ ih => exact ih (phrase_of_succ _ h)

theorem phrase_expression {n : Nat} (h : Phrase (.ofRank n e) u) : Phrase (.expression e) u :=
  phrase_of_le (Nat.zero_le n) h

/-- What binds tighter than a level is an operand there. -/
theorem phrase_operand {level : Level} {n : Nat} (hn : level.rank < n)
    (h : Phrase (.ofRank n e) u) : Phrase (.operand level e) u := by
  have h := phrase_of_le hn h
  cases level with
  | factor => exact .operandUnary rfl h
  | _ => exact .operandLevel rfl h

theorem chain_append {level : Level} {left mid : Expr} (h : Phrase (.chain level left mid) u)
    (h' : Phrase (.chain level mid e) v) : Phrase (.chain level left e) (u ++ v) := by
  generalize hs : Shape.chain level left mid = shape at h
  induction h generalizing left with
  | chainStop =>
    cases hs
    exact h'
  | chainStep ho hr _ _ ih =>
    cases hs
    have := Phrase.chainStep ho hr (ih rfl)
    rwa [← List.append_assoc] at this
  | _ => cases hs

theorem suffixes_append {callee mid : Expr} (h : Phrase (.suffixes callee mid) u)
    (h' : Phrase (.suffixes mid e) v) : Phrase (.suffixes callee e) (u ++ v) := by
  generalize hs : Shape.suffixes callee mid = shape at h
  induction h generalizing callee with
  | suffixesStop =>
    cases hs
    exact h'
  | suffixesCall ho ha hp _ _ ih =>
    cases hs
    have := Phrase.suffixesCall ho ha hp (ih rfl)
    simpa using this
  | suffixesGet hd hn _ ih =>
    cases hs
    exact .suffixesGet hd hn (ih rfl)
  | _ => cases hs

/-- One more operation at a level. -/
theorem level_snoc {level : Level} {operator : Stamped} {right : Expr}
    (h : Phrase (.level level e) u) (ho : operator.token.kind ∈ level.operators)
    (hr : Phrase (.operand level right) v) :
    Phrase (.level level (level.combine e operator.token right)) (u ++ operator :: v) := by
  cases h with
  | level hfirst hchain =>
    have hstep : Phrase (.chain level e (level.combine e operator.token right))
        (operator :: (v ++ [])) := .chainStep ho hr .chainStop
    have := Phrase.level hfirst (chain_append hchain hstep)
    simpa using this

theorem declarations_singleton {s : Stmt} (h : Phrase (.declaration s) u) :
    Phrase (.declarations [s]) u := by
  have := Phrase.declarationsMore h .declarationsNone
  rwa [List.append_nil] at this

/-- One more suffix. -/
theorem call_snoc {e' : Expr} (h : Phrase (.call e) u) (hs : Phrase (.suffixes e e') v) :
    Phrase (.call e') (u ++ v) := by
  cases h with
  | call hfirst hsuffixes =>
    have := Phrase.call hfirst (suffixes_append hsuffixes hs)
    rwa [← List.append_assoc] at this

end Phrase

/-! ## Writings taken apart -/

/-- Stamped tokens that are a writing. -/
def Written (marks : List Mark) (u : List Stamped) : Prop := Writes marks (u.map (·.token))

section Written

variable {m m' : Mark} {ms ms' : List Mark} {u : List Stamped}

theorem written_nil (h : Written [] u) : u = [] := by
  cases u with
  | nil => rfl
  | cons t ts => cases h

theorem written_cons (h : Written (m :: ms) u) :
    ∃ t v, u = t :: v ∧ m.Fits t.token ∧ Written ms v := by
  cases u with
  | nil => cases h
  | cons t ts =>
    cases h with
    | cons hm hms => exact ⟨t, ts, rfl, hm, hms⟩

theorem written_singleton (h : Written [m] u) : ∃ t, u = [t] ∧ m.Fits t.token := by
  obtain ⟨t, v, rfl, ht, hv⟩ := written_cons h
  obtain rfl := written_nil hv
  exact ⟨t, rfl, ht⟩

theorem written_append (h : Written (ms ++ ms') u) :
    ∃ v w, u = v ++ w ∧ Written ms v ∧ Written ms' w := by
  induction ms generalizing u with
  | nil => exact ⟨[], u, rfl, .nil, h⟩
  | cons m ms ih =>
    obtain ⟨t, u, rfl, ht, hu⟩ := written_cons h
    obtain ⟨v, w, rfl, hv, hw⟩ := ih hu
    exact ⟨t :: v, w, rfl, .cons ht hv, hw⟩

end Written

theorem Constant.kind_of_spelledBy {c : Constant} {t : Token} (h : c.SpelledBy t) :
    t.kind ∈ Constant.kinds ∧ Constant.ofConstantToken t = c := by
  cases c with
  | number x => simp [Constant.ofConstantToken, Constant.ofToken, Constant.kinds, h.1, h.2]
  | string s => simp [Constant.ofConstantToken, Constant.ofToken, Constant.kinds, h.1, h.2]
  | bool b =>
    cases b <;> simp only [SpelledBy] at h <;>
      simp [Constant.ofConstantToken, Constant.kinds, h]
  | nil =>
    simp only [SpelledBy] at h
    simp [Constant.ofConstantToken, Constant.kinds, h]

theorem Phrase.constant_of_spelledBy {c : Constant} {t : Stamped} (h : c.SpelledBy t.token) :
    Phrase (.primary (.constant c)) [t] := by
  obtain ⟨hk, rfl⟩ := Constant.kind_of_spelledBy h
  exact .constant hk

theorem Level.of_ofOperator? {kind : TokenKind} {level : Level}
    (h : Level.ofOperator? kind = some level) : kind ∈ level.operators := by
  have := List.find?_some h
  simpa using this

theorem Level.combine_of_isLogical {level : Level} (h : level.isLogical = true) (l : Expr)
    (operator : Token) (r : Expr) : level.combine l operator r = .logical l operator r := by
  cases level <;> first | rfl | cases h

theorem Level.combine_of_not_isLogical {level : Level} (h : level.isLogical = false) (l : Expr)
    (operator : Token) (r : Expr) : level.combine l operator r = .binary l operator r := by
  cases level <;> first | rfl | cases h

/-! ## Expressions -/

/-- A writing of the expression is a phrase of its rank. -/
def Expr.Readable (e : Expr) : Prop :=
  ∀ ⦃u : List Stamped⦄, Written e.marks u →
    ∃ e', e'.eraseIds = e.eraseIds ∧ Phrase (.ofRank e.rank e') u

/-- A writing of the expressions is a list of arguments, if there are few enough. -/
def Expr.ReadableArguments (es : List Expr) : Prop :=
  ∀ (index : Nat) ⦃u : List Stamped⦄, index + es.length ≤ maxArity → es ≠ [] →
    Written (Expr.marksOfArguments es) u →
    ∃ es', Expr.eraseIdsOfList es' = Expr.eraseIdsOfList es ∧ Phrase (.argumentList index es') u

namespace Expr

variable {e l r : Expr} {operator name : Token}

attribute [local simp] eraseIds eraseIdsOfList

theorem readable_constant (c : Constant) : (constant c).Readable := by
  intro u hu
  obtain ⟨t, rfl, ht⟩ := written_singleton hu
  exact ⟨_, rfl, .constant_of_spelledBy ht⟩

theorem readable_grouping (h : e.Readable) : (grouping e).Readable := by
  intro u hu
  obtain ⟨opening, w, rfl, ho, hw⟩ := written_cons hu
  obtain ⟨v, x, rfl, hv, hx⟩ := written_append hw
  obtain ⟨closing, rfl, hc⟩ := written_singleton hx
  obtain ⟨e', he, h⟩ := h hv
  exact ⟨.grouping e', by simp [he], .grouping ho h.phrase_expression hc⟩

theorem readable_unary (hk : operator.kind ∈ [TokenKind.bang, TokenKind.minus])
    (h : e.Readable) (hrank : 7 ≤ e.rank) : (unary operator e).Readable := by
  intro u hu
  obtain ⟨t, v, rfl, rfl, hv⟩ := written_cons hu
  obtain ⟨e', he, h⟩ := h hv
  exact ⟨.unary t.token e', by simp [he], .unary hk (h.phrase_of_le hrank)⟩

/-- Two operands with an operator of some level between them. -/
theorem phrase_of_operation {level : Level} (hlevel : Level.ofOperator? operator.kind = some level)
    (hl : l.Readable) (hlrank : level.rank ≤ l.rank) (hr : r.Readable)
    (hrrank : level.rank < r.rank) {u : List Stamped}
    (hu : Written (l.marks ++ .exactly operator :: r.marks) u) :
    ∃ l' r', l'.eraseIds = l.eraseIds ∧ r'.eraseIds = r.eraseIds ∧
      Phrase (.ofRank level.rank (level.combine l' operator r')) u := by
  obtain ⟨v, x, rfl, hv, hx⟩ := written_append hu
  obtain ⟨t, w, rfl, rfl, hw⟩ := written_cons hx
  obtain ⟨l', hl', hv⟩ := hl hv
  obtain ⟨r', hr', hw⟩ := hr hw
  have hleft := hv.phrase_of_le hlrank
  rw [Shape.ofRank_rank] at hleft ⊢
  exact ⟨l', r', hl', hr',
    hleft.level_snoc (Level.of_ofOperator? hlevel) (hw.phrase_operand hrrank)⟩

theorem readable_binary {level : Level} (hlevel : Level.ofOperator? operator.kind = some level)
    (hlogical : level.isLogical = false) (hl : l.Readable) (hlrank : level.rank ≤ l.rank)
    (hr : r.Readable) (hrrank : level.rank < r.rank) : (binary l operator r).Readable := by
  intro u hu
  obtain ⟨l', r', hl', hr', h⟩ := phrase_of_operation hlevel hl hlrank hr hrrank hu
  rw [Level.combine_of_not_isLogical hlogical] at h
  exact ⟨.binary l' operator r', by simp [hl', hr'], by simpa [rank, hlevel] using h⟩

theorem readable_logical {level : Level} (hlevel : Level.ofOperator? operator.kind = some level)
    (hlogical : level.isLogical = true) (hl : l.Readable) (hlrank : level.rank ≤ l.rank)
    (hr : r.Readable) (hrrank : level.rank < r.rank) : (logical l operator r).Readable := by
  intro u hu
  obtain ⟨l', r', hl', hr', h⟩ := phrase_of_operation hlevel hl hlrank hr hrrank hu
  rw [Level.combine_of_isLogical hlogical] at h
  exact ⟨.logical l' operator r', by simp [hl', hr'], by simpa [rank, hlevel] using h⟩

theorem readable_var (id : RefId) (hn : name.kind = .identifier) : (var id name).Readable := by
  intro u hu
  obtain ⟨t, rfl, rfl⟩ := written_singleton hu
  exact ⟨.var t.id t.token, rfl, .var hn⟩

theorem readable_assign (id : RefId) (hn : name.kind = .identifier) (h : e.Readable) :
    (assign id name e).Readable := by
  intro u hu
  obtain ⟨t, w, rfl, rfl, hw⟩ := written_cons hu
  obtain ⟨equal, v, rfl, he, hv⟩ := written_cons hw
  obtain ⟨e', he', h⟩ := h hv
  exact ⟨.assign t.id t.token e', by simp [he'], .assign hn he h.phrase_expression⟩

theorem readable_call {args : List Expr} {paren : Token} (h : e.Readable) (hrank : 8 ≤ e.rank)
    (hp : paren.kind = .rightParen) (hlen : args.length ≤ maxArity)
    (hargs : ReadableArguments args) : (call e paren args).Readable := by
  intro u hu
  obtain ⟨v, x, rfl, hv, hx⟩ := written_append hu
  obtain ⟨opening, y, rfl, ho, hy⟩ := written_cons hx
  obtain ⟨w, z, rfl, hw, hz⟩ := written_append hy
  obtain ⟨t, rfl, rfl⟩ := written_singleton hz
  obtain ⟨e', he, h⟩ := h hv
  have hcallee : Phrase (.call e') v := h.phrase_of_le hrank
  have harguments : ∃ args', eraseIdsOfList args' = eraseIdsOfList args ∧
      Phrase (.arguments args') w := by
    cases args with
    | nil =>
      obtain rfl := written_nil hw
      exact ⟨[], rfl, .argumentsNone⟩
    | cons a as =>
      obtain ⟨args', hargs', h⟩ := hargs 0 (by simpa using hlen) (List.cons_ne_nil a as) hw
      exact ⟨args', hargs', .argumentsSome h⟩
  obtain ⟨args', hargs', ha⟩ := harguments
  exact ⟨.call e' t.token args', by simp [he, hargs'],
    hcallee.call_snoc (.suffixesCall ho ha hp .suffixesStop)⟩

theorem readable_get (h : e.Readable) (hrank : 8 ≤ e.rank) (hn : name.kind = .identifier) :
    (get e name).Readable := by
  intro u hu
  obtain ⟨v, x, rfl, hv, hx⟩ := written_append hu
  obtain ⟨dot, y, rfl, hd, hy⟩ := written_cons hx
  obtain ⟨t, rfl, rfl⟩ := written_singleton hy
  obtain ⟨e', he, h⟩ := h hv
  have hobject : Phrase (.call e') v := h.phrase_of_le hrank
  exact ⟨.get e' t.token, by simp [he],
    hobject.call_snoc (.suffixesGet hd hn .suffixesStop)⟩

theorem readable_set (h : e.Readable) (hrank : 8 ≤ e.rank) (hn : name.kind = .identifier)
    (hr : r.Readable) : (set e name r).Readable := by
  intro u hu
  obtain ⟨v, x, rfl, hv, hx⟩ := written_append hu
  obtain ⟨dot, y, rfl, hd, hy⟩ := written_cons hx
  obtain ⟨t, z, rfl, rfl, hz⟩ := written_cons hy
  obtain ⟨equal, w, rfl, hq, hw⟩ := written_cons hz
  obtain ⟨e', he, h⟩ := h hv
  obtain ⟨r', hr', hvalue⟩ := hr hw
  exact ⟨.set e' t.token r', by simp [he, hr'],
    .set (h.phrase_of_le hrank) hd hn hq hvalue.phrase_expression⟩

theorem readable_thisRef (id : RefId) (hk : name.kind = .kwThis) : (thisRef id name).Readable := by
  intro u hu
  obtain ⟨t, rfl, rfl⟩ := written_singleton hu
  exact ⟨.thisRef t.id t.token, rfl, .thisRef hk⟩

theorem readable_superRef (id : RefId) {method : Token} (hk : name.kind = .kwSuper)
    (hm : method.kind = .identifier) : (superRef id name method).Readable := by
  intro u hu
  obtain ⟨t, x, rfl, rfl, hx⟩ := written_cons hu
  obtain ⟨dot, y, rfl, hd, hy⟩ := written_cons hx
  obtain ⟨m, rfl, rfl⟩ := written_singleton hy
  exact ⟨.superRef t.id t.token m.token, rfl, .superRef hk hd hm⟩

theorem readableArguments_cons {es : List Expr} (h : e.Readable) (hes : ReadableArguments es) :
    ReadableArguments (e :: es) := by
  intro index u hlen _ hu
  simp only [List.length_cons] at hlen
  cases es with
  | nil =>
    obtain ⟨e', he, h⟩ := h hu
    exact ⟨[e'], by simp [he], .argumentLast (by omega) h.phrase_expression⟩
  | cons a as =>
    obtain ⟨v, x, rfl, hv, hx⟩ := written_append hu
    obtain ⟨comma, w, rfl, hc, hw⟩ := written_cons hx
    obtain ⟨e', he, h⟩ := h hv
    obtain ⟨es', hes', hmore⟩ := hes (index + 1) (by omega) (List.cons_ne_nil a as) hw
    exact ⟨e' :: es', by simp [he, hes'],
      .argumentMore (by omega) h.phrase_expression hc hmore⟩

mutual

theorem readable : ∀ {e : Expr}, e.stratified = true → e.Readable
  | constant c, _ => readable_constant c
  | grouping e, h => readable_grouping (readable h)
  | unary operator e, h => by
    simp only [stratified, Bool.and_eq_true, decide_eq_true_eq, List.contains_iff_mem] at h
    obtain ⟨⟨hk, h⟩, hrank⟩ := h
    exact readable_unary hk (readable h) hrank
  | binary l operator r, h => by
    simp only [stratified] at h
    cases hlevel : Level.ofOperator? operator.kind with
    | none => simp [hlevel] at h
    | some level =>
      simp only [hlevel, Bool.and_eq_true, decide_eq_true_eq, Bool.not_eq_true'] at h
      obtain ⟨⟨⟨⟨hlogical, hl⟩, hlrank⟩, hr⟩, hrrank⟩ := h
      exact readable_binary hlevel hlogical (readable hl) hlrank (readable hr) hrrank
  | logical l operator r, h => by
    simp only [stratified] at h
    cases hlevel : Level.ofOperator? operator.kind with
    | none => simp [hlevel] at h
    | some level =>
      simp only [hlevel, Bool.and_eq_true, decide_eq_true_eq] at h
      obtain ⟨⟨⟨⟨hlogical, hl⟩, hlrank⟩, hr⟩, hrrank⟩ := h
      exact readable_logical hlevel hlogical (readable hl) hlrank (readable hr) hrrank
  | var id name, h => readable_var id (by simpa [stratified] using h)
  | assign id name value, h => by
    simp only [stratified, Bool.and_eq_true, beq_iff_eq] at h
    exact readable_assign id h.1 (readable h.2)
  | call callee paren args, h => by
    simp only [stratified, Bool.and_eq_true, beq_iff_eq, decide_eq_true_eq] at h
    obtain ⟨⟨⟨⟨h, hrank⟩, hp⟩, hlen⟩, hargs⟩ := h
    exact readable_call (readable h) hrank hp hlen (readableArguments hargs)
  | get object name, h => by
    simp only [stratified, Bool.and_eq_true, beq_iff_eq, decide_eq_true_eq] at h
    obtain ⟨⟨h, hrank⟩, hn⟩ := h
    exact readable_get (readable h) hrank hn
  | set object name value, h => by
    simp only [stratified, Bool.and_eq_true, beq_iff_eq, decide_eq_true_eq] at h
    obtain ⟨⟨⟨h, hrank⟩, hn⟩, hv⟩ := h
    exact readable_set (readable h) hrank hn (readable hv)
  | thisRef id keyword, h => readable_thisRef id (by simpa [stratified] using h)
  | superRef id keyword method, h => by
    simp only [stratified, Bool.and_eq_true, beq_iff_eq] at h
    exact readable_superRef id h.1 h.2

theorem readableArguments : ∀ {es : List Expr}, allStratified es = true → ReadableArguments es
  | [], _ => fun _ _ _ hne => absurd rfl hne
  | e :: es, h => by
    simp only [allStratified, Bool.and_eq_true] at h
    exact readableArguments_cons (readable h.1) (readableArguments h.2)

end

end Expr

/-! ## Parts of statements -/

theorem phrase_optional {value : Option Expr} (h : value.all Expr.stratified = true)
    {u : List Stamped} (hu : Written (Expr.marksOfOption value) u) :
    ∃ value', value'.map Expr.eraseIds = value.map Expr.eraseIds ∧ Phrase (.optional value') u := by
  cases value with
  | none =>
    obtain rfl := written_nil hu
    exact ⟨none, rfl, .optionalNone⟩
  | some e =>
    obtain ⟨e', he, h⟩ := Expr.readable h hu
    exact ⟨some e', by simp [he], .optionalSome h.phrase_expression⟩

theorem phrase_parameterList {params : List Token} {index : Nat} {u : List Stamped}
    (hlen : index + params.length ≤ maxArity) (hne : params ≠ [])
    (hk : params.all (fun t => t.kind == .identifier) = true)
    (hu : Written (Token.marksOfParameters params) u) : Phrase (.parameterList index params) u := by
  induction params generalizing index u with
  | nil => exact absurd rfl hne
  | cons t ts ih =>
    simp only [List.length_cons, List.all_cons, Bool.and_eq_true, beq_iff_eq] at hlen hk
    cases ts with
    | nil =>
      obtain ⟨t, rfl, rfl⟩ := written_singleton hu
      exact .parameterLast (by omega) hk.1
    | cons t' ts =>
      obtain ⟨p, x, rfl, rfl, hx⟩ := written_cons hu
      obtain ⟨comma, v, rfl, hc, hv⟩ := written_cons hx
      exact .parameterMore (by omega) hk.1 hc (ih (by omega) (List.cons_ne_nil _ _) hk.2 hv)

theorem phrase_parameters {params : List Token} {u : List Stamped}
    (hlen : params.length ≤ maxArity) (hk : params.all (fun t => t.kind == .identifier) = true)
    (hu : Written (Token.marksOfParameters params) u) : Phrase (.parameters params) u := by
  cases params with
  | nil =>
    obtain rfl := written_nil hu
    exact .parametersNone
  | cons t ts =>
    exact .parametersSome (phrase_parameterList (by simpa using hlen) (List.cons_ne_nil _ _) hk hu)

/-! ## Statements -/

/-- A writing of the statement is a declaration, and if it may be a branch, a statement. -/
def Stmt.Readable (s : Stmt) : Prop :=
  ∀ ⦃u : List Stamped⦄, Written s.marks u → ∃ s', s'.eraseIds = s.eraseIds ∧
    Phrase (.declaration s') u ∧ (s.isStatement = true → Phrase (.statement s.endsOpen s') u)

def Stmt.ReadableList (ss : List Stmt) : Prop :=
  ∀ ⦃u : List Stamped⦄, Written (Stmt.marksOfList ss) u →
    ∃ ss', Stmt.eraseIdsOfList ss' = Stmt.eraseIdsOfList ss ∧ Phrase (.declarations ss') u

def FunctionDecl.Readable (d : FunctionDecl) : Prop :=
  ∀ ⦃u : List Stamped⦄, Written d.marks u →
    ∃ d', d'.eraseIds = d.eraseIds ∧ Phrase (.function d') u

def FunctionDecl.ReadableList (ds : List FunctionDecl) : Prop :=
  ∀ ⦃u : List Stamped⦄, Written (FunctionDecl.marksOfList ds) u →
    ∃ ds', FunctionDecl.eraseIdsOfList ds' = FunctionDecl.eraseIdsOfList ds ∧
      Phrase (.methods ds') u

namespace Stmt

variable {condition : Expr} {yes no s : Stmt} {u : List Stamped}

attribute [local simp] eraseIds eraseIdsOfList Expr.eraseIds

/-- A statement is a declaration as well. -/
theorem readable_of_statement (h : ∀ ⦃u⦄, Written s.marks u → ∃ s', s'.eraseIds = s.eraseIds ∧
    Phrase (.statement s.endsOpen s') u) : s.Readable := by
  intro u hu
  obtain ⟨s', hs, h⟩ := h hu
  exact ⟨s', hs, .statement h, fun _ => h⟩

/-- What is no statement is only a declaration. -/
theorem readable_of_declaration (hs : s.isStatement = false) (h : ∀ ⦃u⦄, Written s.marks u →
    ∃ s', s'.eraseIds = s.eraseIds ∧ Phrase (.declaration s') u) : s.Readable := by
  intro u hu
  obtain ⟨s', hs', h⟩ := h hu
  exact ⟨s', hs', h, fun hs'' => by simp [hs] at hs''⟩

theorem readable_expression {e : Expr} (h : e.Readable) : (expression e).Readable := by
  refine readable_of_statement fun u hu => ?_
  obtain ⟨v, x, rfl, hv, hx⟩ := written_append hu
  obtain ⟨semicolon, rfl, hs⟩ := written_singleton hx
  obtain ⟨e', he, h⟩ := h hv
  exact ⟨.expression e', by simp [he],
    .expressionForm (.expressionStatement h.phrase_expression hs)⟩

theorem readable_var {name : Token} {init : Option Expr} (hn : name.kind = .identifier)
    (h : init.all Expr.stratified = true) : (var name init).Readable := by
  refine readable_of_declaration rfl fun u hu => ?_
  cases init with
  | none =>
    obtain ⟨keyword, x, rfl, hk, hx⟩ := written_cons hu
    obtain ⟨t, y, rfl, rfl, hy⟩ := written_cons hx
    obtain ⟨semicolon, rfl, hs⟩ := written_singleton hy
    exact ⟨.var t.token none, rfl, .varDeclaration hk (.varPlain hn hs)⟩
  | some e =>
    obtain ⟨keyword, x, rfl, hk, hx⟩ := written_cons hu
    obtain ⟨t, y, rfl, rfl, hy⟩ := written_cons hx
    obtain ⟨equal, z, rfl, hq, hz⟩ := written_cons hy
    obtain ⟨v, w, rfl, hv, hw⟩ := written_append hz
    obtain ⟨semicolon, rfl, hs⟩ := written_singleton hw
    obtain ⟨e', he, h⟩ := Expr.readable h hv
    exact ⟨.var t.token (some e'), by simp [he],
      .varDeclaration hk (.varInit hn hq h.phrase_expression hs)⟩

theorem readable_block {body : List Stmt} (h : ReadableList body) : (block body).Readable := by
  refine readable_of_statement fun u hu => ?_
  obtain ⟨left, x, rfl, hl, hx⟩ := written_cons hu
  obtain ⟨v, y, rfl, hv, hy⟩ := written_append hx
  obtain ⟨right, rfl, hr⟩ := written_singleton hy
  obtain ⟨body', hb, h⟩ := h hv
  exact ⟨.block body', by simp [hb], .block hl h hr⟩

theorem readable_ifThen (hc : condition.Readable) (h : yes.Readable)
    (hs : yes.isStatement = true) : (ifThen condition yes).Readable := by
  refine readable_of_statement fun u hu => ?_
  obtain ⟨keyword, x, rfl, hk, hx⟩ := written_cons hu
  obtain ⟨opening, y, rfl, ho, hy⟩ := written_cons hx
  obtain ⟨v, z, rfl, hv, hz⟩ := written_append hy
  obtain ⟨closing, w, rfl, hcl, hw⟩ := written_cons hz
  obtain ⟨c', hc', hcond⟩ := hc hv
  obtain ⟨yes', hy', -, hyes⟩ := h hw
  exact ⟨.ifThen c' yes', by simp [hc', hy'],
    .ifThen hk ho hcond.phrase_expression hcl (hyes hs)⟩

theorem readable_ifElse (hc : condition.Readable) (hy : yes.Readable)
    (hys : yes.isStatement = true) (hclosed : yes.endsOpen = false) (hn : no.Readable)
    (hns : no.isStatement = true) : (ifElse condition yes no).Readable := by
  refine readable_of_statement fun u hu => ?_
  obtain ⟨keyword, x, rfl, hk, hx⟩ := written_cons hu
  obtain ⟨opening, y, rfl, ho, hx⟩ := written_cons hx
  obtain ⟨v, z, rfl, hv, hx⟩ := written_append hx
  obtain ⟨closing, a, rfl, hcl, hx⟩ := written_cons hx
  obtain ⟨w, b, rfl, hw, hx⟩ := written_append hx
  obtain ⟨other, c, rfl, he, hx⟩ := written_cons hx
  obtain ⟨c', hc', hcond⟩ := hc hv
  obtain ⟨yes', hy', -, hyes⟩ := hy hw
  obtain ⟨no', hn', -, hno⟩ := hn hx
  have hyes := hyes hys
  rw [hclosed] at hyes
  exact ⟨.ifElse c' yes' no', by simp [hc', hy', hn'],
    .ifElse hk ho hcond.phrase_expression hcl hyes he (hno hns)⟩

theorem readable_loop (hc : condition.Readable) (h : s.Readable) (hs : s.isStatement = true) :
    (loop condition s).Readable := by
  refine readable_of_statement fun u hu => ?_
  obtain ⟨keyword, x, rfl, hk, hx⟩ := written_cons hu
  obtain ⟨opening, y, rfl, ho, hy⟩ := written_cons hx
  obtain ⟨v, z, rfl, hv, hz⟩ := written_append hy
  obtain ⟨closing, w, rfl, hcl, hw⟩ := written_cons hz
  obtain ⟨c', hc', hcond⟩ := hc hv
  obtain ⟨s', hs', -, hbody⟩ := h hw
  exact ⟨.loop c' s', by simp [hc', hs'],
    .whileLoop hk ho hcond.phrase_expression hcl (hbody hs)⟩

theorem readable_function {decl : FunctionDecl} (h : decl.Readable) : (function decl).Readable := by
  refine readable_of_declaration rfl fun u hu => ?_
  obtain ⟨keyword, v, rfl, hk, hv⟩ := written_cons hu
  obtain ⟨d, hd, h⟩ := h hv
  exact ⟨.function d, by simp [hd], .functionDeclaration hk h⟩

theorem readable_ret {keyword : Token} {value : Option Expr} (hk : keyword.kind = .kwReturn)
    (h : value.all Expr.stratified = true) : (ret keyword value).Readable := by
  refine readable_of_statement fun u hu => ?_
  obtain ⟨t, x, rfl, rfl, hx⟩ := written_cons hu
  obtain ⟨v, y, rfl, hv, hy⟩ := written_append hx
  obtain ⟨semicolon, rfl, hs⟩ := written_singleton hy
  obtain ⟨value', hv', h⟩ := phrase_optional h hv
  exact ⟨.ret t.token value', by simp [hv'], .ret hk h hs⟩

theorem readable_cls {name : Token} {superclass : Option Expr} {methods : List FunctionDecl}
    (hn : name.kind = .identifier) (hs : superclass.all Expr.isVariable = true)
    (hm : FunctionDecl.ReadableList methods) : (cls name superclass methods).Readable := by
  refine readable_of_declaration rfl fun u hu => ?_
  cases superclass with
  | none =>
    obtain ⟨keyword, x, rfl, hk, hx⟩ := written_cons hu
    obtain ⟨t, y, rfl, rfl, hy⟩ := written_cons hx
    obtain ⟨left, z, rfl, hl, hz⟩ := written_cons hy
    obtain ⟨v, w, rfl, hv, hw⟩ := written_append hz
    obtain ⟨right, rfl, hr⟩ := written_singleton hw
    obtain ⟨methods', hm', h⟩ := hm hv
    exact ⟨.cls t.token none methods', by simp [hm'],
      .classDeclaration hk hn .superclassNone hl h hr⟩
  | some parent =>
    cases parent with
    | var id parent =>
      obtain ⟨keyword, x, rfl, hk, hx⟩ := written_cons hu
      obtain ⟨t, y, rfl, rfl, hy⟩ := written_cons hx
      obtain ⟨less, z, rfl, hless, hz⟩ := written_cons hy
      obtain ⟨p, a, rfl, rfl, ha⟩ := written_cons hz
      obtain ⟨left, b, rfl, hl, hb⟩ := written_cons ha
      obtain ⟨v, w, rfl, hv, hw⟩ := written_append hb
      obtain ⟨right, rfl, hr⟩ := written_singleton hw
      obtain ⟨methods', hm', h⟩ := hm hv
      have hp : p.token.kind = .identifier := by simpa [Expr.isVariable] using hs
      exact ⟨.cls t.token (some (.var p.id p.token)) methods', by simp [hm'],
        .classDeclaration hk hn (.superclassSome hless hp) hl h hr⟩
    | _ => simp [Expr.isVariable] at hs

theorem readableList_cons {ss : List Stmt} (h : s.Readable) (hss : ReadableList ss) :
    ReadableList (s :: ss) := by
  intro u hu
  obtain ⟨v, w, rfl, hv, hw⟩ := written_append hu
  obtain ⟨s', hs', h, -⟩ := h hv
  obtain ⟨ss', hss', hmore⟩ := hss hw
  exact ⟨s' :: ss', by simp [hs', hss'], .declarationsMore h hmore⟩

end Stmt

namespace FunctionDecl

attribute [local simp] eraseIds eraseIdsOfList

theorem readable_mk {name : Token} {params : List Token} {body : List Stmt}
    (hn : name.kind = .identifier) (hlen : params.length ≤ maxArity)
    (hk : params.all (fun t => t.kind == .identifier) = true) (h : Stmt.ReadableList body) :
    (FunctionDecl.mk name params body).Readable := by
  intro u hu
  obtain ⟨t, x, rfl, rfl, hx⟩ := written_cons hu
  obtain ⟨opening, x, rfl, ho, hx⟩ := written_cons hx
  obtain ⟨v, x, rfl, hv, hx⟩ := written_append hx
  obtain ⟨closing, x, rfl, hc, hx⟩ := written_cons hx
  obtain ⟨left, x, rfl, hl, hx⟩ := written_cons hx
  obtain ⟨w, x, rfl, hw, hx⟩ := written_append hx
  obtain ⟨right, rfl, hr⟩ := written_singleton hx
  obtain ⟨body', hb, h⟩ := h hw
  exact ⟨⟨t.token, params, body'⟩, by simp [hb],
    .function hn ho (phrase_parameters hlen hk hv) hc hl h hr⟩

theorem readableList_cons {d : FunctionDecl} {ds : List FunctionDecl} (h : d.Readable)
    (hds : ReadableList ds) : ReadableList (d :: ds) := by
  intro u hu
  obtain ⟨v, w, rfl, hv, hw⟩ := written_append hu
  obtain ⟨d', hd', h⟩ := h hv
  obtain ⟨ds', hds', hmore⟩ := hds hw
  exact ⟨d' :: ds', by simp [hd', hds'], .methodsMore h hmore⟩

end FunctionDecl

mutual

theorem Stmt.readable : ∀ {s : Stmt}, s.stratified = true → s.Readable
  | .expression e, h => Stmt.readable_expression (Expr.readable h)
  | .var name init, h => by
    simp only [Stmt.stratified, Bool.and_eq_true, beq_iff_eq] at h
    exact Stmt.readable_var h.1 h.2
  | .block body, h => Stmt.readable_block (Stmt.readableList h)
  | .ifThen condition yes, h => by
    simp only [Stmt.stratified, Bool.and_eq_true] at h
    obtain ⟨⟨hc, hy⟩, hs⟩ := h
    exact Stmt.readable_ifThen (Expr.readable hc) (Stmt.readable hy) hs
  | .ifElse condition yes no, h => by
    simp only [Stmt.stratified, Bool.and_eq_true, Bool.not_eq_true'] at h
    obtain ⟨⟨⟨⟨⟨hc, hy⟩, hys⟩, hclosed⟩, hn⟩, hns⟩ := h
    exact Stmt.readable_ifElse (Expr.readable hc) (Stmt.readable hy) hys hclosed
      (Stmt.readable hn) hns
  | .loop condition body, h => by
    simp only [Stmt.stratified, Bool.and_eq_true] at h
    obtain ⟨⟨hc, hb⟩, hs⟩ := h
    exact Stmt.readable_loop (Expr.readable hc) (Stmt.readable hb) hs
  | .function decl, h => Stmt.readable_function (FunctionDecl.readable h)
  | .ret keyword value, h => by
    simp only [Stmt.stratified, Bool.and_eq_true, beq_iff_eq] at h
    exact Stmt.readable_ret h.1 h.2
  | .cls name superclass methods, h => by
    simp only [Stmt.stratified, Bool.and_eq_true, beq_iff_eq] at h
    obtain ⟨⟨hn, hs⟩, hm⟩ := h
    exact Stmt.readable_cls hn hs (FunctionDecl.readableList hm)

theorem Stmt.readableList : ∀ {ss : List Stmt}, Stmt.allStratified ss = true → Stmt.ReadableList ss
  | [], _ => fun _ hu => by
    obtain rfl := written_nil hu
    exact ⟨[], rfl, .declarationsNone⟩
  | s :: ss, h => by
    simp only [Stmt.allStratified, Bool.and_eq_true] at h
    exact Stmt.readableList_cons (Stmt.readable h.1) (Stmt.readableList h.2)

theorem FunctionDecl.readable : ∀ {d : FunctionDecl}, d.stratified = true → d.Readable
  | ⟨name, params, body⟩, h => by
    simp only [FunctionDecl.stratified, Bool.and_eq_true, beq_iff_eq, decide_eq_true_eq] at h
    obtain ⟨⟨⟨hn, hlen⟩, hk⟩, hb⟩ := h
    exact FunctionDecl.readable_mk hn hlen hk (Stmt.readableList hb)

theorem FunctionDecl.readableList :
    ∀ {ds : List FunctionDecl}, FunctionDecl.allStratified ds = true → FunctionDecl.ReadableList ds
  | [], _ => fun _ hu => by
    obtain rfl := written_nil hu
    exact ⟨[], rfl, .methodsNone⟩
  | d :: ds, h => by
    simp only [FunctionDecl.allStratified, Bool.and_eq_true] at h
    exact FunctionDecl.readableList_cons (FunctionDecl.readable h.1) (FunctionDecl.readableList h.2)

end

/-! ## Programs -/

theorem Mark.exists_fits (m : Mark) : ∃ t, m.Fits t := by
  cases m with
  | exactly t => exact ⟨t, rfl⟩
  | any kind => exact ⟨{ kind := kind, lexeme := "" }, rfl⟩
  | constant c =>
    cases c with
    | number x =>
      exact ⟨{ kind := .number, lexeme := "", literal := some (.number x) }, rfl, rfl⟩
    | string s =>
      exact ⟨{ kind := .string, lexeme := "", literal := some (.string s) }, rfl, rfl⟩
    | bool b =>
      cases b with
      | true => exact ⟨{ kind := .kwTrue, lexeme := "" }, rfl⟩
      | false => exact ⟨{ kind := .kwFalse, lexeme := "" }, rfl⟩
    | nil => exact ⟨{ kind := .kwNil, lexeme := "" }, rfl⟩

/-- No phrase goes past the end of the input. -/
theorem Phrase.kind_ne_eof {shape : Shape} {u : List Stamped} (h : Phrase shape u) :
    ∀ t ∈ u, t.token.kind ≠ .eof := by
  induction h with
  | @chainStep level operator _ _ _ _ _ ho _ _ ihRight ihChain =>
    have hop : operator.token.kind ≠ .eof := by
      intro h
      rw [h] at ho
      cases level <;> simp [Level.operators] at ho
    grind
  | constant hk =>
    simp only [Constant.kinds, List.mem_cons, List.not_mem_nil, or_false] at hk
    grind
  | _ => grind

/-- Stratified declarations can be written. -/
theorem exists_writes {ss : List Stmt} (h : Stmt.allStratified ss = true) :
    ∃ tokens, Writes (Stmt.marksOfList ss) (Token.body tokens) := by
  have hany (marks : List Mark) : ∃ ts, Writes marks ts := by
    induction marks with
    | nil => exact ⟨[], .nil⟩
    | cons m ms ih =>
      obtain ⟨t, ht⟩ := m.exists_fits
      obtain ⟨ts, hts⟩ := ih
      exact ⟨t :: ts, .cons ht hts⟩
  obtain ⟨ts, hts⟩ := hany (Stmt.marksOfList ss)
  have hu : Written (Stmt.marksOfList ss) (Stamped.ofTokens 0 ts) := by
    unfold Written
    rwa [Stamped.map_ofTokens]
  obtain ⟨ss', -, hphrase⟩ := Stmt.readableList h hu
  have hbody : Token.body ts = ts := by
    rw [Token.body, List.takeWhile_eq_self_iff]
    intro t ht
    rw [← Stamped.map_ofTokens 0 ts, List.mem_map] at ht
    obtain ⟨t, ht, rfl⟩ := ht
    simpa using hphrase.kind_ne_eof t ht
  exact ⟨ts, by rwa [hbody]⟩

/-- Parsing undoes writing: whatever writes stratified declarations parses, without an error, as the
same declarations up to the identities of their references. -/
theorem Parse.ofTokens_of_writes {ss : List Stmt} (h : Stmt.allStratified ss = true)
    (first : RefId) {tokens : List Token} (hw : Writes (Stmt.marksOfList ss) (Token.body tokens)) :
    (Parse.ofTokens first tokens).errors = [] ∧
      Stmt.eraseIdsOfList (Parse.ofTokens first tokens).statements = Stmt.eraseIdsOfList ss := by
  have hu : Written (Stmt.marksOfList ss) (Stamped.ofTokens first (Token.body tokens)) := by
    unfold Written
    rwa [Stamped.map_ofTokens]
  obtain ⟨ss', hss, hphrase⟩ := Stmt.readableList h hu
  have haccepts := Parser.accepts_program hphrase
  refine ⟨Parse.errors_eq_nil.2 ⟨ss', haccepts⟩, ?_⟩
  unfold Parser.Accepts at haccepts
  rw [← hss]
  simp only [Parse.ofTokens, haccepts]

/-- `if (!a or b) { f(a, b).c = a; } else while (a) return;` -/
theorem Parse.ofTokens_of_writes_conditional :
    let plain (kind : TokenKind) : Token := { kind := kind, lexeme := "" }
    let name (lexeme : String) : Token := { kind := .identifier, lexeme := lexeme }
    let a := Expr.var 0 (name "a")
    let b := Expr.var 0 (name "b")
    let ss := [Stmt.ifElse (.logical (.unary (plain .bang) a) (plain .kwOr) b)
      (.block [.expression
        (.set (.call (.var 0 (name "f")) (plain .rightParen) [a, b]) (name "c") a)])
      (.loop a (.ret (plain .kwReturn) none))]
    let tokens := [plain .kwIf, plain .leftParen, plain .bang, name "a", plain .kwOr, name "b",
      plain .rightParen, plain .leftBrace, name "f", plain .leftParen, name "a", plain .comma,
      name "b", plain .rightParen, plain .dot, name "c", plain .equal, name "a", plain .semicolon,
      plain .rightBrace, plain .kwElse, plain .kwWhile, plain .leftParen, name "a",
      plain .rightParen, plain .kwReturn, plain .semicolon, plain .eof]
    Stmt.allStratified ss = true ∧ Writes (Stmt.marksOfList ss) (Token.body tokens) ∧
      (Parse.ofTokens 0 tokens).errors = [] ∧
      Stmt.eraseIdsOfList (Parse.ofTokens 0 tokens).statements = Stmt.eraseIdsOfList ss := by
  intro plain name a b ss tokens
  have hs : Stmt.allStratified ss = true := rfl
  have hw : Writes (Stmt.marksOfList ss) (Token.body tokens) := by
    repeat' first | exact .nil | refine .cons rfl ?_
  exact ⟨hs, hw, Parse.ofTokens_of_writes hs 0 hw⟩

end Lox
