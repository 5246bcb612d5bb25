import Lox.Proofs.Parse.Bound
import Lox.Proofs.Parse.Complete
import Lox.Proofs.Parse.Sound
import Lox.Proofs.Parse.Spelling

/-!
# Lox.Proofs.Parse.Reading

The parser accepts its grammar, nothing less and nothing more (`Parse.errors_eq_nil_iff`).

What a derivation tree spells can be read as a phrase (`read_of_derives`): by induction on the
derivation, with one lemma for each rule that has something of its own. The trees decide nothing
about the nesting of `else`, and phrases do. So an `else` that follows an open statement is read as
a part of that statement (`attach`).
-/

namespace Lox
namespace Grammar

/-! ## Reading -/

/-- Any number of parts, with their entries counted together. -/
inductive Repeats (p : Nat → List Stamped → Prop) : Nat → List Stamped → Prop where
  | done : Repeats p 0 []
  | again {n m : Nat} {u v : List Stamped} : p n u → Repeats p m v → Repeats p (n + m) (u ++ v)

/-- The phrases that the tokens of a rule stand for. The keyword of a variable declaration and the
braces of a block are not part of a phrase. -/
def Rule.Read : Rule → List Stamped → Prop
  | .program, u => ∃ ss v last, u = v ++ [last] ∧ last.token.kind = .eof ∧
      Phrase (.declarations ss) v
  | .declaration, u | .classDecl, u | .funDecl, u => ∃ s, Phrase (.declaration s) u
  | .function, u => ∃ decl, Phrase (.function decl) u
  | .varDecl, u => ∃ s keyword v, u = keyword :: v ∧ keyword.token.kind = .kwVar ∧
      Phrase (.varRest s) v
  | .exprStmt, u => ∃ s, Phrase (.expressionStatement s) u
  | .statement, u | .forStmt, u | .ifStmt, u | .returnStmt, u | .whileStmt, u =>
      ∃ isOpen s, Phrase (.statement isOpen s) u
  | .block, u => ∃ ss left v right, u = left :: (v ++ [right]) ∧ left.token.kind = .leftBrace ∧
      Phrase (.declarations ss) v ∧ right.token.kind = .rightBrace
  | .parameters, u => ∃ params, Phrase (.parameterList 0 params) u
  | .expression, u | .assignment, u => ∃ e, Phrase (.expression e) u
  | .logicOr, u => ∃ e, Phrase (.level .or e) u
  | .logicAnd, u => ∃ e, Phrase (.level .and e) u
  | .equality, u => ∃ e, Phrase (.level .equality e) u
  | .comparison, u => ∃ e, Phrase (.level .comparison e) u
  | .term, u => ∃ e, Phrase (.level .term e) u
  | .factor, u => ∃ e, Phrase (.level .factor e) u
  | .unary, u => ∃ e, Phrase (.unary e) u
  | .call, u => ∃ e, Phrase (.call e) u
  | .arguments, u => ∃ args, Phrase (.argumentList 0 args) u
  | .primary, u => ∃ e, Phrase (.primary e) u

/-- How tokens are read by a form, with the number of entries among them. -/
def Form.Read : Form → Nat → List Stamped → Prop
  | .token kind, n, u => n = entries [.leaf kind] ∧ ∃ t, u = [t] ∧ t.token.kind = kind
  | .rule r, n, u => n = 1 ∧ r.Read u
  | .seq a b, n, u => ∃ k m v w, n = k + m ∧ u = v ++ w ∧ a.Read k v ∧ b.Read m w
  | .alt a b, n, u => a.Read n u ∨ b.Read n u
  | .opt a, n, u => (n = 0 ∧ u = []) ∨ a.Read n u
  | .many a, n, u => Repeats a.Read n u

/-- The same without the number of entries. -/
def Form.Reads (form : Form) (u : List Stamped) : Prop := ∃ n, form.Read n u

section Reads

variable {a b : Form} {u : List Stamped}

@[simp] theorem reads_token {kind : TokenKind} :
    (Form.token kind).Reads u ↔ ∃ t, u = [t] ∧ t.token.kind = kind :=
  ⟨fun ⟨_, _, h⟩ => h, fun h => ⟨_, rfl, h⟩⟩

@[simp] theorem reads_rule {r : Rule} : (Form.rule r).Reads u ↔ r.Read u :=
  ⟨fun ⟨_, _, h⟩ => h, fun h => ⟨1, rfl, h⟩⟩

@[simp] theorem reads_append : (a ++ b).Reads u ↔ ∃ v w, u = v ++ w ∧ a.Reads v ∧ b.Reads w := by
  constructor
  · rintro ⟨n, k, m, v, w, -, rfl, ha, hb⟩
    exact ⟨v, w, rfl, ⟨k, ha⟩, ⟨m, hb⟩⟩
  · rintro ⟨v, w, rfl, ⟨k, ha⟩, ⟨m, hb⟩⟩
    exact ⟨k + m, k, m, v, w, rfl, rfl, ha, hb⟩

@[simp] theorem reads_or : (a ||| b).Reads u ↔ a.Reads u ∨ b.Reads u :=
  exists_or

@[simp] theorem reads_opt : a.opt.Reads u ↔ u = [] ∨ a.Reads u := by
  constructor
  · rintro ⟨n, ⟨-, h⟩ | h⟩
    · exact .inl h
    · exact .inr ⟨n, h⟩
  · rintro (h | ⟨n, h⟩)
    · exact ⟨0, .inl ⟨rfl, h⟩⟩
    · exact ⟨n, .inr h⟩

/-- A property of what a repeated form reads, from the empty list on. -/
theorem reads_many_induction {p : List Stamped → Prop} (h : a.many.Reads u) (done : p [])
    (again : ∀ v w, a.Reads v → p w → p (v ++ w)) : p u := by
  obtain ⟨n, h⟩ := h
  change Repeats a.Read n u at h
  induction h with
  | done => exact done
  | again hfirst _ ih => exact again _ _ ⟨_, hfirst⟩ ih

end Reads

end Grammar

/-! ## What the rules read -/

namespace Level

open Grammar

variable {level : Level} {u : List Stamped}

theorem read_rule : level.rule.Read u ↔ ∃ e, Phrase (.level level e) u := by
  cases level <;> rfl

theorem operand_of_read (h : level.operandRule.Read u) : ∃ e, Phrase (.operand level e) u := by
  unfold operandRule at h
  cases ht : level.tighter with
  | some tighter =>
    rw [ht] at h
    obtain ⟨e, he⟩ := read_rule.1 h
    exact ⟨e, .operandLevel ht he⟩
  | none =>
    rw [ht] at h
    obtain ⟨e, he⟩ := h
    exact ⟨e, .operandUnary ht he⟩

theorem operator_of_reads (h : level.operatorForm.Reads u) :
    ∃ t, u = [t] ∧ t.token.kind ∈ level.operators := by
  cases level <;> simp only [operatorForm, reads_or, reads_token] at h <;>
    simp only [operators, List.mem_cons, List.not_mem_nil, or_false] <;> grind

theorem chain_of_reads (h : (level.operatorForm ++ .rule level.operandRule).many.Reads u) :
    ∀ left, ∃ e, Phrase (.chain level left e) u := by
  refine reads_many_induction (p := fun u => ∀ left, ∃ e, Phrase (.chain level left e) u) h
    (fun left => ⟨left, .chainStop⟩) ?_
  intro v w hv ih left
  simp only [reads_append, reads_rule] at hv
  obtain ⟨_, v, rfl, ho, hr⟩ := hv
  obtain ⟨operator, rfl, hk⟩ := operator_of_reads ho
  obtain ⟨right, hr⟩ := operand_of_read hr
  obtain ⟨e, he⟩ := ih (level.combine left operator.token right)
  exact ⟨e, .chainStep hk hr he⟩

theorem read_of_form (level : Level) (h : level.rule.form.Reads u) : level.rule.Read u := by
  rw [form_rule] at h
  simp only [reads_append, reads_rule] at h
  obtain ⟨v, w, rfl, hv, hw⟩ := h
  obtain ⟨first, hfirst⟩ := operand_of_read hv
  obtain ⟨e, he⟩ := chain_of_reads hw first
  exact read_rule.2 ⟨e, .level hfirst he⟩

end Level

namespace Grammar

section Rules

variable {n : Nat} {u v w : List Stamped}

theorem declarations_of_reads (h : (Form.rule .declaration).many.Reads u) :
    ∃ ss, Phrase (.declarations ss) u := by
  refine reads_many_induction (p := fun u => ∃ ss, Phrase (.declarations ss) u) h
    ⟨[], .declarationsNone⟩ ?_
  rintro v w hv ⟨ss, hss⟩
  obtain ⟨s, hs⟩ := reads_rule.1 hv
  exact ⟨s :: ss, .declarationsMore hs hss⟩

theorem methods_of_reads (h : (Form.rule .function).many.Reads u) :
    ∃ decls, Phrase (.methods decls) u := by
  refine reads_many_induction (p := fun u => ∃ decls, Phrase (.methods decls) u) h
    ⟨[], .methodsNone⟩ ?_
  rintro v w hv ⟨decls, hdecls⟩
  obtain ⟨decl, hdecl⟩ := reads_rule.1 hv
  exact ⟨decl :: decls, .methodsMore hdecl hdecls⟩

theorem arguments_of_reads (h : (Form.rule .arguments).opt.Reads u) :
    ∃ args, Phrase (.arguments args) u := by
  simp only [reads_opt, reads_rule] at h
  obtain rfl | ⟨args, h⟩ := h
  · exact ⟨[], .argumentsNone⟩
  · exact ⟨args, .argumentsSome h⟩

theorem parameters_of_reads (h : (Form.rule .parameters).opt.Reads u) :
    ∃ params, Phrase (.parameters params) u := by
  simp only [reads_opt, reads_rule] at h
  obtain rfl | ⟨params, h⟩ := h
  · exact ⟨[], .parametersNone⟩
  · exact ⟨params, .parametersSome h⟩

theorem optional_of_reads (h : (Form.rule .expression).opt.Reads u) :
    ∃ e, Phrase (.optional e) u := by
  simp only [reads_opt, reads_rule] at h
  obtain rfl | ⟨e, h⟩ := h
  · exact ⟨none, .optionalNone⟩
  · exact ⟨some e, .optionalSome h⟩

theorem suffixes_of_reads (h : suffix.many.Reads u) :
    ∀ callee, ∃ e, Phrase (.suffixes callee e) u := by
  refine reads_many_induction (p := fun u => ∀ callee, ∃ e, Phrase (.suffixes callee e) u) h
    (fun callee => ⟨callee, .suffixesStop⟩) ?_
  intro v w hv ih callee
  simp only [suffix, reads_or, reads_append, reads_token] at hv
  obtain ⟨_, _, rfl, ⟨_, a, rfl, ⟨opening, rfl, ho⟩, ha⟩, paren, rfl, hp⟩ |
    ⟨_, _, rfl, ⟨dot, rfl, hd⟩, name, rfl, hn⟩ := hv
  · obtain ⟨args, hargs⟩ := arguments_of_reads ha
    obtain ⟨e, he⟩ := ih (.call callee paren.token args)
    have h := Phrase.suffixesCall ho hargs hp he
    exact ⟨e, by simpa using h⟩
  · obtain ⟨e, he⟩ := ih (.get callee name.token)
    exact ⟨e, .suffixesGet hd hn he⟩

theorem read_program (h : Rule.program.form.Reads u) : Rule.program.Read u := by
  simp only [Rule.form, reads_append, reads_token] at h
  obtain ⟨v, _, rfl, hv, last, rfl, hl⟩ := h
  obtain ⟨ss, hss⟩ := declarations_of_reads hv
  exact ⟨ss, v, last, rfl, hl, hss⟩

theorem read_declaration (h : Rule.declaration.form.Reads u) : Rule.declaration.Read u := by
  simp only [Rule.form, reads_or, reads_rule] at h
  obtain ((h | h) | ⟨s, keyword, v, rfl, hk, hs⟩) | ⟨isOpen, s, hs⟩ := h
  · exact h
  · exact h
  · exact ⟨s, .varDeclaration hk hs⟩
  · exact ⟨s, .statement hs⟩

theorem read_classDecl (h : Rule.classDecl.form.Reads u) : Rule.classDecl.Read u := by
  simp only [Rule.form, reads_append, reads_token, reads_opt] at h
  obtain ⟨_, _, rfl, ⟨_, v, rfl, ⟨_, _, rfl, ⟨_, x, rfl, ⟨_, _, rfl, ⟨keyword, rfl, hk⟩, name, rfl,
    hn⟩, hx⟩, left, rfl, hl⟩, hv⟩, right, rfl, hr⟩ := h
  obtain ⟨methods, hm⟩ := methods_of_reads hv
  have hsuper : ∃ superclass, Phrase (.superclass superclass) x := by
    obtain rfl | ⟨_, _, rfl, ⟨less, rfl, hless⟩, parent, rfl, hp⟩ := hx
    · exact ⟨none, .superclassNone⟩
    · exact ⟨_, .superclassSome hless hp⟩
  obtain ⟨superclass, hs⟩ := hsuper
  have h := Phrase.classDeclaration hk hn hs hl hm hr
  exact ⟨_, by simpa using h⟩

theorem read_funDecl (h : Rule.funDecl.form.Reads u) : Rule.funDecl.Read u := by
  simp only [Rule.form, reads_append, reads_token, reads_rule] at h
  obtain ⟨_, v, rfl, ⟨keyword, rfl, hk⟩, decl, hd⟩ := h
  exact ⟨_, .functionDeclaration hk hd⟩

theorem read_function (h : Rule.function.form.Reads u) : Rule.function.Read u := by
  simp only [Rule.form, reads_append, reads_token, reads_rule] at h
  obtain ⟨_, _, rfl, ⟨_, _, rfl, ⟨_, x, rfl, ⟨_, _, rfl, ⟨name, rfl, hn⟩, opening, rfl, ho⟩, hx⟩,
    closing, rfl, hc⟩, body, left, v, right, rfl, hl, hv, hr⟩ := h
  obtain ⟨params, hp⟩ := parameters_of_reads hx
  have h := Phrase.function hn ho hp hc hl hv hr
  exact ⟨_, by simpa using h⟩

theorem read_varDecl (h : Rule.varDecl.form.Reads u) : Rule.varDecl.Read u := by
  simp only [Rule.form, reads_append, reads_token, reads_opt, reads_rule] at h
  obtain ⟨_, _, rfl, ⟨_, x, rfl, ⟨_, _, rfl, ⟨keyword, rfl, hk⟩, name, rfl, hn⟩, hx⟩, semicolon,
    rfl, hs⟩ := h
  obtain rfl | ⟨_, v, rfl, ⟨equal, rfl, he⟩, e, hv⟩ := hx
  · exact ⟨_, keyword, _, by simp, hk, .varPlain hn hs⟩
  · exact ⟨_, keyword, _, by simp, hk, .varInit hn he hv hs⟩

theorem read_statement (h : Rule.statement.form.Reads u) : Rule.statement.Read u := by
  simp only [Rule.form, reads_or, reads_rule] at h
  obtain ((((⟨s, hs⟩ | h) | h) | h) | h) | ⟨body, left, v, right, rfl, hl, hv, hr⟩ := h
  · exact ⟨false, s, .expressionForm hs⟩
  · exact h
  · exact h
  · exact h
  · exact h
  · exact ⟨false, _, .block hl hv hr⟩

theorem read_exprStmt (h : Rule.exprStmt.form.Reads u) : Rule.exprStmt.Read u := by
  simp only [Rule.form, reads_append, reads_token, reads_rule] at h
  obtain ⟨v, _, rfl, ⟨e, hv⟩, semicolon, rfl, hs⟩ := h
  exact ⟨_, .expressionStatement hv hs⟩

theorem initializer_of_reads
    (h : (.rule .varDecl ||| .rule .exprStmt ||| .token .semicolon : Form).Reads u) :
    ∃ init, Phrase (.initializer init) u := by
  simp only [reads_or, reads_token, reads_rule] at h
  obtain (⟨s, keyword, v, rfl, hk, hs⟩ | ⟨s, hs⟩) | ⟨semicolon, rfl, hs⟩ := h
  · exact ⟨some s, .initializerVar hk hs⟩
  · exact ⟨some s, .initializerExpression hs⟩
  · exact ⟨none, .initializerNone hs⟩

theorem read_forStmt (h : Rule.forStmt.form.Reads u) : Rule.forStmt.Read u := by
  simp only [Rule.form, reads_append (b := .rule .statement), reads_append (b := .token _),
    reads_append (b := .opt _), reads_append (b := _ ||| _), reads_token, reads_rule] at h
  obtain ⟨_, x, rfl, ⟨_, _, rfl, ⟨_, c, rfl, ⟨_, _, rfl, ⟨_, b, rfl, ⟨_, a, rfl, ⟨_, _, rfl,
    ⟨keyword, rfl, hk⟩, opening, rfl, ho⟩, ha⟩, hb⟩, semicolon, rfl, hs⟩, hc⟩, closing, rfl, hclose⟩,
    isOpen, body, hbody⟩ := h
  obtain ⟨init, hinit⟩ := initializer_of_reads ha
  obtain ⟨condition, hcond⟩ := optional_of_reads hb
  obtain ⟨increment, hinc⟩ := optional_of_reads hc
  have h := Phrase.forLoop hk ho hinit hcond hs hinc hclose hbody
  exact ⟨isOpen, _, by simpa using h⟩

/-- What an `else` after a statement does: it makes an open one longer. -/
def Attaches : Shape → List Stamped → Prop
  | .statement true _, u => ∀ (other : Stamped) (noOpen : Bool) (no : Stmt) (w : List Stamped),
      other.token.kind = .kwElse → Phrase (.statement noOpen no) w →
      ∃ isOpen s, Phrase (.statement isOpen s) (u ++ other :: w)
  | _, _ => True

theorem attaches {shape : Shape} (h : Phrase shape u) : Attaches shape u := by
  induction h with
  | @forLoop keyword opening semicolon closing _ _ _ bodyOpen body _ _ _ _ hk ho hi hcond hs hinc
      hc hbody _ _ _ ih =>
    cases bodyOpen with
    | false => trivial
    | true =>
      intro other noOpen no w he hno
      obtain ⟨isOpen, s, hs'⟩ := ih other noOpen no w he hno
      have h := Phrase.forLoop hk ho hi hcond hs hinc hc hs'
      exact ⟨isOpen, _, by simpa using h⟩
  | @ifThen keyword opening closing _ yesOpen yes _ _ hk ho hcond hc hyes _ ih =>
    intro other noOpen no w he hno
    cases yesOpen with
    | false =>
      have h := Phrase.ifElse hk ho hcond hc hyes he hno
      exact ⟨noOpen, _, by simpa using h⟩
    | true =>
      obtain ⟨isOpen, s, hs⟩ := ih other noOpen no w he hno
      have h := Phrase.ifThen hk ho hcond hc hs
      exact ⟨true, _, by simpa using h⟩
  | @ifElse keyword opening closing middle _ lastOpen yes last _ _ _ hk ho hcond hc hyes hm hlast _
      _ ih =>
    cases lastOpen with
    | false => trivial
    | true =>
      intro other noOpen no w he hno
      obtain ⟨isOpen, s, hs⟩ := ih other noOpen no w he hno
      have h := Phrase.ifElse hk ho hcond hc hyes hm hs
      exact ⟨isOpen, _, by simpa using h⟩
  | @whileLoop keyword opening closing _ bodyOpen body _ _ hk ho hcond hc hbody _ ih =>
    cases bodyOpen with
    | false => trivial
    | true =>
      intro other noOpen no w he hno
      obtain ⟨isOpen, s, hs⟩ := ih other noOpen no w he hno
      have h := Phrase.whileLoop hk ho hcond hc hs
      exact ⟨isOpen, _, by simpa using h⟩
  | _ => trivial

theorem read_ifStmt (h : Rule.ifStmt.form.Reads u) : Rule.ifStmt.Read u := by
  simp only [Rule.form, reads_append, reads_token, reads_opt, reads_rule] at h
  obtain ⟨_, x, rfl, ⟨_, v, rfl, ⟨_, _, rfl, ⟨_, c, rfl, ⟨_, _, rfl, ⟨keyword, rfl, hk⟩, opening,
    rfl, ho⟩, e, hcond⟩, closing, rfl, hc⟩, yesOpen, yes, hyes⟩, hx⟩ := h
  obtain rfl | ⟨_, w, rfl, ⟨other, rfl, he⟩, noOpen, no, hno⟩ := hx
  · have h := Phrase.ifThen hk ho hcond hc hyes
    exact ⟨true, _, by simpa using h⟩
  · cases yesOpen with
    | false =>
      have h := Phrase.ifElse hk ho hcond hc hyes he hno
      exact ⟨noOpen, _, by simpa using h⟩
    | true =>
      obtain ⟨isOpen, s, hs⟩ := attaches hyes other noOpen no w he hno
      have h := Phrase.ifThen hk ho hcond hc hs
      exact ⟨true, _, by simpa using h⟩

theorem read_returnStmt (h : Rule.returnStmt.form.Reads u) : Rule.returnStmt.Read u := by
  simp only [Rule.form, reads_append (b := .token _), reads_append (b := .opt _), reads_token] at h
  obtain ⟨_, _, rfl, ⟨_, v, rfl, ⟨keyword, rfl, hk⟩, hv⟩, semicolon, rfl, hs⟩ := h
  obtain ⟨value, hvalue⟩ := optional_of_reads hv
  exact ⟨false, _, .ret hk hvalue hs⟩

theorem read_whileStmt (h : Rule.whileStmt.form.Reads u) : Rule.whileStmt.Read u := by
  simp only [Rule.form, reads_append, reads_token, reads_rule] at h
  obtain ⟨_, v, rfl, ⟨_, _, rfl, ⟨_, c, rfl, ⟨_, _, rfl, ⟨keyword, rfl, hk⟩, opening, rfl, ho⟩, e,
    hcond⟩, closing, rfl, hc⟩, isOpen, body, hbody⟩ := h
  have h := Phrase.whileLoop hk ho hcond hc hbody
  exact ⟨isOpen, _, by simpa using h⟩

theorem read_block (h : Rule.block.form.Reads u) : Rule.block.Read u := by
  simp only [Rule.form, reads_append, reads_token] at h
  obtain ⟨_, _, rfl, ⟨_, v, rfl, ⟨left, rfl, hl⟩, hv⟩, right, rfl, hr⟩ := h
  obtain ⟨ss, hss⟩ := declarations_of_reads hv
  exact ⟨ss, left, v, right, rfl, hl, hss, hr⟩

theorem read_assignment (h : Rule.assignment.form.Reads u) : Rule.assignment.Read u := by
  simp only [Rule.form, reads_or, reads_append, reads_token, reads_opt, reads_rule] at h
  obtain ⟨_, v, rfl, ⟨_, _, rfl, ⟨x, _, rfl, hx, name, rfl, hn⟩, equal, rfl, he⟩, value, hv⟩ | ⟨e, h⟩ := h
  · obtain rfl | ⟨object, _, rfl, ⟨e, ho⟩, dot, rfl, hd⟩ := hx
    · exact ⟨_, .assign hn he hv⟩
    · have h := Phrase.set ho hd hn he hv
      exact ⟨_, by simpa using h⟩
  · exact ⟨e, .plain h⟩

theorem read_unary (h : Rule.unary.form.Reads u) : Rule.unary.Read u := by
  simp only [Rule.form, reads_or, reads_append, reads_token, reads_rule] at h
  obtain ⟨x, v, rfl, ho, e, hv⟩ | ⟨e, h⟩ := h
  · have ho : ∃ t : Stamped, x = [t] ∧ t.token.kind ∈ [TokenKind.bang, TokenKind.minus] := by
      obtain ⟨t, rfl, hk⟩ | ⟨t, rfl, hk⟩ := ho
      · exact ⟨t, rfl, by simp [hk]⟩
      · exact ⟨t, rfl, by simp [hk]⟩
    obtain ⟨operator, rfl, hk⟩ := ho
    exact ⟨_, .unary hk hv⟩
  · exact ⟨e, .unaryCall h⟩

theorem read_call (h : Rule.call.form.Reads u) : Rule.call.Read u := by
  obtain ⟨v, w, rfl, hv, hw⟩ := reads_append.1 h
  obtain ⟨first, hfirst⟩ := reads_rule.1 hv
  obtain ⟨e, he⟩ := suffixes_of_reads hw first
  exact ⟨e, .call hfirst he⟩

theorem read_primary (h : Rule.primary.form.Reads u) : Rule.primary.Read u := by
  simp only [Rule.form, reads_or, reads_append, reads_token, reads_rule] at h
  have hconstant (kind : TokenKind) (hkind : kind ∈ Constant.kinds)
      (ht : ∃ t : Stamped, u = [t] ∧ t.token.kind = kind) : ∃ e, Phrase (.primary e) u := by
    obtain ⟨t, rfl, rfl⟩ := ht
    exact ⟨_, .constant hkind⟩
  obtain (((((((h | h) | h) | h) | h) | ⟨keyword, rfl, hk⟩) | ⟨name, rfl, hn⟩) |
    ⟨_, _, rfl, ⟨_, v, rfl, ⟨opening, rfl, ho⟩, e, hv⟩, closing, rfl, hc⟩) |
    ⟨_, _, rfl, ⟨_, _, rfl, ⟨keyword, rfl, hk⟩, dot, rfl, hd⟩, method, rfl, hm⟩ := h
  · exact hconstant _ (by decide) h
  · exact hconstant _ (by decide) h
  · exact hconstant _ (by decide) h
  · exact hconstant _ (by decide) h
  · exact hconstant _ (by decide) h
  · exact ⟨_, .thisRef hk⟩
  · exact ⟨_, .var hn⟩
  · exact ⟨_, .grouping ho hv hc⟩
  · exact ⟨_, .superRef hk hd hm⟩

/-! ## Lists with a limit -/

/-- The entries of a list after a first one. -/
theorem exists_list_of_repeats {α : Type} (item : Form) (shape : Nat → List α → Shape)
    (p : α → List Stamped → Prop)
    (hitem : ∀ n u, item.Read n u → n = 1 ∧ ∃ a, p a u)
    (last : ∀ index a u, index < maxArity → p a u → Phrase (shape index [a]) u)
    (more : ∀ (index : Nat) (a : α) (as : List α) (comma : Stamped) (u v : List Stamped),
      index < maxArity → p a u → comma.token.kind = .comma → Phrase (shape (index + 1) as) v →
      Phrase (shape index (a :: as)) (u ++ comma :: v))
    (h : Repeats (Form.token .comma ++ item).Read n w) :
    ∀ (index : Nat) (a : α) (u : List Stamped), index + 1 + n ≤ maxArity → p a u →
      ∃ as, Phrase (shape index as) (u ++ w) := by
  induction h with
  | done =>
    intro index a u hn ha
    exact ⟨[a], by simpa using last index a u (by omega) ha⟩
  | again hfirst _ ih =>
    intro index a u hn ha
    obtain ⟨k, m, _, v, rfl, rfl, ⟨rfl, comma, rfl, hc⟩, hb⟩ := hfirst
    obtain ⟨rfl, b, hb⟩ := hitem _ _ hb
    simp only [entries] at hn
    obtain ⟨as, has⟩ := ih (index + 1) b v (by omega) hb
    have h := more index a as comma u _ (by omega) ha hc has
    exact ⟨a :: as, by simpa using h⟩

theorem read_arguments (h : Rule.arguments.form.Read n u) (hn : n ≤ maxArity) :
    Rule.arguments.Read u := by
  obtain ⟨k, m, v, w, rfl, rfl, ⟨rfl, e, he⟩, hw⟩ := h
  exact exists_list_of_repeats (.rule .expression) .argumentList
    (fun e u => Phrase (.expression e) u)
    (fun _ _ h => h)
    (fun _ _ _ hi h => .argumentLast hi h)
    (fun _ _ _ _ _ _ hi h hc hs => .argumentMore hi h hc hs)
    hw 0 e v (by omega) he

theorem read_parameters (h : Rule.parameters.form.Read n u) (hn : n ≤ maxArity) :
    Rule.parameters.Read u := by
  obtain ⟨k, m, v, w, rfl, rfl, ⟨rfl, t, rfl, ht⟩, hw⟩ := h
  have hlist := exists_list_of_repeats (.token .identifier) .parameterList
    (fun param u => ∃ t : Stamped, u = [t] ∧ t.token = param ∧ t.token.kind = .identifier)
    (fun _ _ ⟨hn, t, hu, hk⟩ => ⟨hn, t.token, t, hu, rfl, hk⟩)
    (fun _ _ _ hi ⟨t, hu, ht, hk⟩ => by subst hu ht; exact .parameterLast hi hk)
    (fun _ _ _ _ _ _ hi ⟨t, hu, ht, hk⟩ hc hs => by subst hu ht; exact .parameterMore hi hk hc hs)
    hw 0 t.token [t]
  simp only [entries] at hn
  exact hlist (by omega) ⟨t, rfl, rfl, ht⟩

end Rules

/-! ## What derivations spell -/

/-- What the form of a rule reads, the rule reads, unless it is a list that is too long. -/
theorem read_of_form {r : Rule} {n : Nat} {u : List Stamped} (h : r.form.Read n u)
    (hn : r = .parameters ∨ r = .arguments → n ≤ maxArity) : r.Read u := by
  have hreads : r.form.Reads u := ⟨n, h⟩
  cases r with
  | program => exact read_program hreads
  | declaration => exact read_declaration hreads
  | classDecl => exact read_classDecl hreads
  | funDecl => exact read_funDecl hreads
  | function => exact read_function hreads
  | varDecl => exact read_varDecl hreads
  | statement => exact read_statement hreads
  | exprStmt => exact read_exprStmt hreads
  | forStmt => exact read_forStmt hreads
  | ifStmt => exact read_ifStmt hreads
  | returnStmt => exact read_returnStmt hreads
  | whileStmt => exact read_whileStmt hreads
  | block => exact read_block hreads
  | parameters => exact read_parameters h (hn (.inl rfl))
  | expression => exact reads_rule.1 hreads
  | assignment => exact read_assignment hreads
  | logicOr => exact Level.or.read_of_form hreads
  | logicAnd => exact Level.and.read_of_form hreads
  | equality => exact Level.equality.read_of_form hreads
  | comparison => exact Level.comparison.read_of_form hreads
  | term => exact Level.term.read_of_form hreads
  | factor => exact Level.factor.read_of_form hreads
  | unary => exact read_unary hreads
  | call => exact read_call hreads
  | arguments => exact read_arguments h (hn (.inr rfl))
  | primary => exact read_primary hreads

theorem map_eq_singleton {u : List Stamped} {kind : TokenKind}
    (h : u.map (·.token.kind) = [kind]) : ∃ t, u = [t] ∧ t.token.kind = kind := by
  obtain ⟨t, rfl, ht⟩ := List.map_eq_singleton_iff.1 h
  exact ⟨t, rfl, ht⟩

/-- Tokens that a derivation spells are read as phrases. -/
theorem read_of_derives {form : Form} {ts : List Tree} (h : Derives form ts)
    (hw : Tree.AllListsWithin maxArity ts) {u : List Stamped}
    (hu : u.map (·.token.kind) = Tree.yieldAll ts) : form.Read (entries ts) u := by
  induction h generalizing u with
  | token =>
    simp only [Tree.yieldAll, Tree.yield, List.append_nil] at hu
    exact ⟨rfl, map_eq_singleton hu⟩
  | rule _ ih =>
    simp only [Tree.yieldAll, Tree.yield, List.append_nil] at hu
    obtain ⟨⟨hn, hchildren⟩, -⟩ := hw
    exact ⟨rfl, read_of_form (ih hchildren hu) hn⟩
  | @seq a b ts us _ _ iha ihb =>
    rw [yieldAll_append] at hu
    obtain ⟨v, w, rfl, hv, hw'⟩ := List.map_eq_append_iff.1 hu
    obtain ⟨hts, hus⟩ := (allListsWithin_append ts us).1 hw
    exact ⟨_, _, v, w, entries_append ts us, rfl, iha hts hv, ihb hus hw'⟩
  | first _ ih => exact .inl (ih hw hu)
  | second _ ih => exact .inr (ih hw hu)
  | without =>
    simp only [Tree.yieldAll, List.map_eq_nil_iff] at hu
    exact .inl ⟨rfl, hu⟩
  | present _ ih => exact .inr (ih hw hu)
  | done =>
    simp only [Tree.yieldAll, List.map_eq_nil_iff] at hu
    subst hu
    exact .done
  | @again a ts us _ _ ih ihMore =>
    rw [yieldAll_append] at hu
    obtain ⟨v, w, rfl, hv, hw'⟩ := List.map_eq_append_iff.1 hu
    obtain ⟨hts, hus⟩ := (allListsWithin_append ts us).1 hw
    rw [entries_append]
    exact .again (ih hts hv) (ihMore hus hw')

end Grammar

/-! ## Programs -/

theorem Stamped.map_ofTokens (n : RefId) (ts : List Token) :
    (Stamped.ofTokens n ts).map (·.token) = ts := by
  induction ts generalizing n with
  | nil => rfl
  | cons t ts ih => simp [Stamped.ofTokens, ih]

/-- No errors are a parse without complaints. -/
theorem Parse.errors_eq_nil {first : RefId} {tokens : List Token} :
    (Parse.ofTokens first tokens).errors = [] ↔
      ∃ ss, Parser.Accepts Parser.program (Stamped.ofTokens first (Token.body tokens)) ss [] := by
  obtain ⟨ss, complaints, h⟩ := Parser.program_eq_ok (Stamped.ofTokens first (Token.body tokens))
  simp only [Parse.errors, Parse.ofTokens, Parser.Accepts, h, List.map_eq_nil_iff]
  constructor
  · rintro rfl
    exact ⟨ss, rfl⟩
  · rintro ⟨ss', h'⟩
    cases h'
    rfl

open Grammar in
/-- A token list parses without an error just when, up to its end of input, the rules derive it from
`program` with every list of parameters and arguments short enough. -/
theorem Parse.errors_eq_nil_iff_derives (first : RefId) (tokens : List Token) :
    (Parse.ofTokens first tokens).errors = [] ↔
      ∃ t, Derives (.rule .program) [t] ∧
        t.yield = (Token.body tokens).map Token.kind ++ [.eof] ∧ t.ListsWithin maxArity := by
  let body := Stamped.ofTokens first (Token.body tokens)
  let last : Stamped := ⟨.endOfInput 1, 0⟩
  have hkinds : (body ++ [last]).map (·.token.kind) =
      (Token.body tokens).map Token.kind ++ [.eof] := by
    rw [List.map_append, ← Stamped.map_ofTokens first (Token.body tokens), List.map_map]
    rfl
  rw [Parse.errors_eq_nil]
  constructor
  · rintro ⟨ss, h⟩
    have hphrase : Phrase (.declarations ss) body := (Parser.phrase_of_accepts_program h).2
    have hspelled : Spelled (.rule .program) (body ++ [last]) :=
      Spelled.rule (Spelled.seq (spelled hphrase) (spelled_token rfl)) (by decide)
    obtain ⟨n, ts, hts, -, hy, hw⟩ := hspelled
    cases hts with
    | rule hts =>
      refine ⟨_, .rule hts, ?_, hw.1⟩
      rw [← hkinds, ← hy]
      simp [Tree.yieldAll]
  · rintro ⟨t, ht, hy, hw⟩
    have hu : (body ++ [last]).map (·.token.kind) = Tree.yieldAll [t] := by
      rw [hkinds, ← hy]
      simp [Tree.yieldAll]
    obtain ⟨-, ss, v, last', hv, -, hss⟩ := read_of_derives ht ⟨hw, trivial⟩ hu
    obtain rfl : body = v := List.append_inj_left' hv rfl
    exact ⟨ss, Parser.accepts_program hss⟩

end Lox
