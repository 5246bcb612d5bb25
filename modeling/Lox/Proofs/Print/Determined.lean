import Lox.Proofs.Print.Reading

/-!
# Lox.Proofs.Print.Determined

The text of a parsed statement determines it, up to the numbers of its references and the lines of
its tokens (`Parse.text_eq_iff`). Its words are plain (`Stmt.plain_nested`), so the text has one
reading as nested words, and the statement is read back from these.
-/

namespace Lox

open Nested (AllPlain PlainText isPlain)
open Scan (IsLexeme)

/-! ## Plain words -/

theorem isPlain_of_continuesWord {c : Char} (h : Scan.continuesWord c = true) :
    isPlain c = true := by
  simp only [isPlain, Bool.and_eq_true, bne_iff_ne]
  refine ⟨⟨?_, ?_⟩, ?_⟩ <;> rintro rfl <;> cases h

theorem isPlain_of_isDigit {c : Char} (h : c.isDigit = true) : isPlain c = true := by
  simp only [isPlain, Bool.and_eq_true, bne_iff_ne]
  refine ⟨⟨?_, ?_⟩, ?_⟩ <;> rintro rfl <;> cases h

/-- Parentheses are no plain words, and a string need not be one. -/
theorem Scan.IsLexeme.isPlain {text : List Char} {kind : TokenKind} {literal : Option Literal}
    (h : IsLexeme text kind literal) (hk : kind ∉ [.leftParen, .rightParen, .string]) :
    ∀ c ∈ text, Nested.isPlain c = true := by
  cases h with
  | @symbol w _ h =>
    have hall : ∀ p ∈ symbols, p.2 ∈ [.leftParen, .rightParen, .string] ∨
        p.1.toList.all Nested.isPlain = true := by decide
    exact List.all_eq_true.1 ((hall _ h).resolve_left hk)
  | @keyword w _ h =>
    have hall : ∀ p ∈ TokenKind.keywords, p.1.toList.all Nested.isPlain = true := by decide
    exact List.all_eq_true.1 (hall _ h)
  | identifier hc hcs =>
    have hstart : Scan.continuesWord _ = true := continuesWord_of_startsWord hc
    exact List.forall_mem_cons.2
      ⟨isPlain_of_continuesWord hstart, fun d hd => isPlain_of_continuesWord (hcs d hd)⟩
  | integer _ hd => exact fun c hc => isPlain_of_isDigit (hd c hc)
  | decimal _ _ hd =>
    rw [List.forall_mem_append] at hd
    refine List.forall_mem_append.2 ⟨fun c hc => isPlain_of_isDigit (hd.1 c hc), ?_⟩
    exact List.forall_mem_cons.2 ⟨rfl, fun c hc => isPlain_of_isDigit (hd.2 c hc)⟩
  | string => simp at hk

theorem Token.Is.plain {kinds : List TokenKind} {t : Token} (h : t.Is kinds)
    (hkinds : ∀ kind ∈ kinds, kind ∉ [.leftParen, .rightParen, .string]) :
    (Nested.word t.lexeme).Plain := by
  refine ⟨?_, h.2.lexeme.isPlain (hkinds _ h.1)⟩
  obtain ⟨c, cs, htext, -⟩ := h.2.lexeme.reads
  rw [htext]
  exact List.cons_ne_nil _ _

theorem Nested.plain_word {w : String} (hne : w.toList.isEmpty = false)
    (h : w.toList.all isPlain = true) : (word w).Plain :=
  ⟨List.isEmpty_eq_false_iff.1 hne, List.all_eq_true.1 h⟩

theorem Nested.plain_form {head : String} {items : List Nested} (hhead : (word head).Plain)
    (hitems : AllPlain items) : (form head items).Plain := ⟨nofun, hhead, hitems⟩

theorem Constant.plain_text {c : Constant} (h : c.Legible) : (Nested.word c.text).Plain := by
  cases c with
  | number x =>
    obtain ⟨text, htext, hlexeme⟩ := NumberText.exists_literal_numeral h
    obtain ⟨d, ds, rfl, -⟩ := NumberText.exists_digit_of_isLexeme hlexeme
    have hplain := hlexeme.isPlain (by decide)
    rw [Constant.text, htext]
    refine ⟨?_, ?_⟩
    · rw [String.toList_ofList]
      split <;> exact List.cons_ne_nil _ _
    · rw [PlainText, String.toList_ofList]
      split
      · exact List.forall_mem_cons.2 ⟨rfl, hplain⟩
      · exact hplain
  | string s => exact h.elim
  | bool b => cases b <;> exact Nested.plain_word rfl rfl
  | nil => exact Nested.plain_word rfl rfl

open Nested (plain_word plain_form)

mutual

theorem Expr.plain_nested : ∀ {e : Expr}, e.Legible → e.nested.Plain
  | .constant c, h => Constant.plain_text h
  | .grouping e, h => plain_form (plain_word rfl rfl) ⟨Expr.plain_nested h, trivial⟩
  | .unary operator e, h =>
    plain_form (h.1.plain (by decide)) ⟨Expr.plain_nested h.2, trivial⟩
  | .binary l operator r, h =>
    plain_form (h.1.plain (by decide))
      ⟨Expr.plain_nested h.2.1, Expr.plain_nested h.2.2, trivial⟩
  | .logical l operator r, h =>
    plain_form (h.1.plain (by decide))
      ⟨Expr.plain_nested h.2.1, Expr.plain_nested h.2.2, trivial⟩
  | .var _ name, h => Token.Is.plain h (by decide)
  | .assign _ name value, h =>
    plain_form (plain_word rfl rfl) ⟨h.1.plain (by decide), Expr.plain_nested h.2, trivial⟩
  | .call callee paren args, h =>
    plain_form (plain_word rfl rfl)
      ⟨Expr.plain_nested h.1, Expr.allPlain_nestedOfList h.2.2⟩
  | .get object name, h =>
    plain_form (plain_word rfl rfl) ⟨Expr.plain_nested h.1, h.2.plain (by decide), trivial⟩
  | .set object name value, h =>
    plain_form (plain_word rfl rfl)
      ⟨plain_form (plain_word rfl rfl)
        ⟨Expr.plain_nested h.1, h.2.1.plain (by decide), trivial⟩,
      Expr.plain_nested h.2.2, trivial⟩
  | .thisRef _ _, _ => plain_word rfl rfl
  | .superRef _ _ method, h =>
    plain_form (plain_word rfl rfl) ⟨h.2.plain (by decide), trivial⟩

theorem Expr.allPlain_nestedOfList : ∀ {es : List Expr}, Expr.AllLegible es →
    AllPlain (Expr.nestedOfList es)
  | [], _ => trivial
  | _ :: _, h => ⟨Expr.plain_nested h.1, Expr.allPlain_nestedOfList h.2⟩

end

theorem Token.allPlain_words : ∀ {params : List Token}, (∀ p ∈ params, p.Is [.identifier]) →
    AllPlain (params.map fun p => .word p.lexeme)
  | [], _ => trivial
  | p :: _, h =>
    ⟨(h p List.mem_cons_self).plain (by decide),
      allPlain_words fun q hq => h q (List.mem_cons_of_mem p hq)⟩

mutual

theorem Stmt.plain_nested : ∀ {s : Stmt}, s.Legible → s.nested.Plain
  | .expression e, h => plain_form (plain_word rfl rfl) ⟨Expr.plain_nested h, trivial⟩
  | .var name none, h => plain_form (plain_word rfl rfl) ⟨h.1.plain (by decide), trivial⟩
  | .var name (some init), h =>
    plain_form (plain_word rfl rfl)
      ⟨h.1.plain (by decide), Expr.plain_nested (h.2 init rfl), trivial⟩
  | .block body, h => plain_form (plain_word rfl rfl) (Stmt.allPlain_nestedOfList h)
  | .ifThen condition yes, h =>
    plain_form (plain_word rfl rfl) ⟨Expr.plain_nested h.1, Stmt.plain_nested h.2, trivial⟩
  | .ifElse condition yes no, h =>
    plain_form (plain_word rfl rfl)
      ⟨Expr.plain_nested h.1, Stmt.plain_nested h.2.1, Stmt.plain_nested h.2.2, trivial⟩
  | .loop condition body, h =>
    plain_form (plain_word rfl rfl) ⟨Expr.plain_nested h.1, Stmt.plain_nested h.2, trivial⟩
  | .function decl, h => FunctionDecl.plain_nested (plain_word rfl rfl) h
  | .ret keyword none, _ => plain_form (plain_word rfl rfl) trivial
  | .ret keyword (some value), h =>
    plain_form (plain_word rfl rfl) ⟨Expr.plain_nested (h.2 value rfl), trivial⟩
  | .cls name none methods, h =>
    plain_form (plain_word rfl rfl)
      ⟨h.1.plain (by decide), FunctionDecl.allPlain_nestedOfList h.2.2⟩
  | .cls name (some superclass) methods, h =>
    plain_form (plain_word rfl rfl)
      ⟨h.1.plain (by decide), plain_word rfl rfl, Expr.plain_nested (h.2.1 superclass rfl),
        FunctionDecl.allPlain_nestedOfList h.2.2⟩

theorem Stmt.allPlain_nestedOfList : ∀ {ss : List Stmt}, Stmt.AllLegible ss →
    AllPlain (Stmt.nestedOfList ss)
  | [], _ => trivial
  | _ :: _, h => ⟨Stmt.plain_nested h.1, Stmt.allPlain_nestedOfList h.2⟩

theorem FunctionDecl.plain_nested {head : String} (hhead : (Nested.word head).Plain) :
    ∀ {decl : FunctionDecl}, decl.Legible → (decl.nested head).Plain
  | ⟨_, _, _⟩, h =>
    plain_form hhead ⟨⟨(h.1.plain (by decide)).2, Token.allPlain_words h.2.1⟩,
      Stmt.allPlain_nestedOfList h.2.2⟩

theorem FunctionDecl.allPlain_nestedOfList : ∀ {ds : List FunctionDecl},
    FunctionDecl.AllLegible ds → AllPlain (FunctionDecl.nestedOfList ds)
  | [], _ => trivial
  | _ :: _, h => ⟨FunctionDecl.plain_nested (plain_word rfl rfl) h.1,
      FunctionDecl.allPlain_nestedOfList h.2⟩

end

/-! ## Texts -/

/-- Legible statements with the same text are the same but for numbers and lines. -/
theorem Stmt.relabel_eq_of_text_eq {s s' : Stmt} (h : s.Legible) (h' : s'.Legible)
    (htext : s.text = s'.text) : s.relabel .erase = s'.relabel .erase := by
  have hchars : s.nested.chars ++ [] = s'.nested.chars ++ [] := by
    rw [Stmt.chars_nested, Stmt.chars_nested, htext]
  obtain ⟨hnested, -⟩ := Nested.eq_of_chars_append (Stmt.plain_nested h) (Stmt.plain_nested h')
    Nested.closed_nil Nested.closed_nil hchars
  have hread := Stmt.read_nested h
  rw [hnested, Stmt.read_nested h'] at hread
  exact (Reading.stmt.inj hread).symm

section

variable (r : Relabel)

mutual

/-- A text says nothing about numbers and lines. -/
theorem Expr.text_relabel : ∀ e : Expr, (e.relabel r).text = e.text
  | .constant _ | .var _ _ | .thisRef _ _ | .superRef _ _ _ | .unparsed => rfl
  | .grouping e => by simp [relabel, text, e.text_relabel]
  | .unary op e => by simp [relabel, text, e.text_relabel, Token.relabel]
  | .binary l op r' => by simp [relabel, text, l.text_relabel, r'.text_relabel, Token.relabel]
  | .logical l op r' => by simp [relabel, text, l.text_relabel, r'.text_relabel, Token.relabel]
  | .assign _ name value => by simp [relabel, text, value.text_relabel, Token.relabel]
  | .call callee _ args => by
    simp [relabel, text, callee.text_relabel, Expr.spacedTexts_relabelList args]
  | .get object name => by simp [relabel, text, object.text_relabel, Token.relabel]
  | .set object name value => by
    simp [relabel, text, object.text_relabel, value.text_relabel, Token.relabel]

theorem Expr.spacedTexts_relabelList : ∀ es : List Expr,
    Expr.spacedTexts (Expr.relabelList r es) = Expr.spacedTexts es
  | [] => rfl
  | e :: es => by
    simp [relabelList, spacedTexts, e.text_relabel, Expr.spacedTexts_relabelList es]

end

theorem Token.map_lexeme_relabel (ts : List Token) :
    (ts.map (Token.relabel r)).map Token.lexeme = ts.map Token.lexeme := by
  rw [List.map_map]
  rfl

mutual

theorem Stmt.text_relabel : ∀ s : Stmt, (s.relabel r).text = s.text
  | .expression e => by simp [Stmt.relabel, Stmt.text, e.text_relabel]
  | .var name none => rfl
  | .var name (some init) => by
    simp [Stmt.relabel, Stmt.text, init.text_relabel, Token.relabel]
  | .block body => by simp [Stmt.relabel, Stmt.text, Stmt.spacedTexts_relabelList body]
  | .ifThen c yes => by simp [Stmt.relabel, Stmt.text, c.text_relabel, yes.text_relabel]
  | .ifElse c yes no => by
    simp [Stmt.relabel, Stmt.text, c.text_relabel, yes.text_relabel, no.text_relabel]
  | .loop c body => by simp [Stmt.relabel, Stmt.text, c.text_relabel, body.text_relabel]
  | .function decl => by simp [Stmt.relabel, Stmt.text, FunctionDecl.text_relabel _ decl]
  | .ret _ none => rfl
  | .ret _ (some value) => by simp [Stmt.relabel, Stmt.text, value.text_relabel]
  | .cls name none methods => by
    simp [Stmt.relabel, Stmt.text, FunctionDecl.spacedTexts_relabelList methods, Token.relabel]
  | .cls name (some superclass) methods => by
    simp [Stmt.relabel, Stmt.text, superclass.text_relabel,
      FunctionDecl.spacedTexts_relabelList methods, Token.relabel]

theorem Stmt.spacedTexts_relabelList : ∀ ss : List Stmt,
    Stmt.spacedTexts (Stmt.relabelList r ss) = Stmt.spacedTexts ss
  | [] => rfl
  | s :: ss => by
    simp [Stmt.relabelList, Stmt.spacedTexts, s.text_relabel, Stmt.spacedTexts_relabelList ss]

theorem FunctionDecl.text_relabel (word : String) : ∀ decl : FunctionDecl,
    (decl.relabel r).text word = decl.text word
  | ⟨name, params, body⟩ => by
    rw [FunctionDecl.relabel, FunctionDecl.text, FunctionDecl.text, Token.map_lexeme_relabel,
      Stmt.spacedTexts_relabelList body]
    rfl

theorem FunctionDecl.spacedTexts_relabelList : ∀ ds : List FunctionDecl,
    FunctionDecl.spacedTexts (FunctionDecl.relabelList r ds) = FunctionDecl.spacedTexts ds
  | [] => rfl
  | d :: ds => by
    simp [FunctionDecl.relabelList, FunctionDecl.spacedTexts, FunctionDecl.text_relabel _ d,
      FunctionDecl.spacedTexts_relabelList ds]

end

end

/-! ## Parses -/

namespace Parse

/-- The source parses without an error, with its references numbered from `first` on, and has no
string and no infinite number in it. -/
structure Printable (first : RefId) (source : String) : Prop where
  errors : (ofTokens first (Token.scan source)).errors = []
  noString : ∀ t ∈ Token.scan source, t.kind ≠ .string
  finite : ∀ t ∈ Token.scan source, ∀ x, t.literal = some (.number x) → x.isFinite = true

theorem legible_of_mem {first : RefId} {source : String} (h : Printable first source) {s : Stmt}
    (hs : s ∈ (ofTokens first (Token.scan source)).statements) : s.Legible := by
  have hlegible : Stmt.AllLegible (ofTokens first (Token.scan source)).statements := by
    refine (phrase_of_errors h.errors).legible fun t ht => ?_
    have hmem : t.token ∈ (Stamped.ofTokens first (Token.body (Token.scan source))).map (·.token) :=
      List.mem_map_of_mem ht
    rw [Stamped.map_ofTokens] at hmem
    have hscan : t.token ∈ Token.scan source := (List.takeWhile_sublist _).mem hmem
    have hne : (t.token.kind != .eof) = true :=
      @List.mem_takeWhile_imp Token (fun u => u.kind != .eof) _ _ hmem
    exact ⟨Scan.isLexeme_of_mem_scan hscan (bne_iff_ne.1 hne), h.noString _ hscan, h.finite _ hscan⟩
  exact hlegible.of_mem hs

/-- The text of a statement says all about it but the numbers of its references and the lines of its
tokens. -/
theorem text_eq_iff {first first' : RefId} {source source' : String} (h : Printable first source)
    (h' : Printable first' source') {s s' : Stmt}
    (hs : s ∈ (ofTokens first (Token.scan source)).statements)
    (hs' : s' ∈ (ofTokens first' (Token.scan source')).statements) :
    s.text = s'.text ↔ s.relabel .erase = s'.relabel .erase := by
  refine ⟨Stmt.relabel_eq_of_text_eq (legible_of_mem h hs) (legible_of_mem h' hs'), ?_⟩
  intro herase
  rw [← Stmt.text_relabel .erase s, herase, Stmt.text_relabel]

/-- The same statement on one line and on two, with other numbers. -/
theorem text_eq_iff_lines :
    Printable 0 "x.y = -f(a) < b;" ∧ Printable 7 "x.y = -f(a)\n< b;" ∧
      ∃ s ∈ (ofTokens 0 (Token.scan "x.y = -f(a) < b;")).statements,
        ∃ s' ∈ (ofTokens 7 (Token.scan "x.y = -f(a)\n< b;")).statements,
          s.text = "(; (= (. x y) (< (- (call f a)) b)))" ∧ s.text = s'.text ∧
            s.relabel .erase = s'.relabel .erase := by
  have hprintable {first : RefId} {source : String}
      (herrors : (ofTokens first (Token.scan source)).errors = [])
      (hliterals : (Token.scan source).all (fun t => t.kind != .string && t.literal.isNone) = true) :
      Printable first source := by
    simp only [List.all_eq_true, Bool.and_eq_true, bne_iff_ne, Option.isNone_iff_eq_none]
      at hliterals
    refine ⟨herrors, fun t ht => (hliterals t ht).1, fun t ht x hx => ?_⟩
    rw [(hliterals t ht).2] at hx
    cases hx
  have h : Printable 0 "x.y = -f(a) < b;" := hprintable (by cbv) (by cbv)
  have h' : Printable 7 "x.y = -f(a)\n< b;" := hprintable (by cbv) (by cbv)
  have htexts : (ofTokens 0 (Token.scan "x.y = -f(a) < b;")).statements.map Stmt.text =
      ["(; (= (. x y) (< (- (call f a)) b)))"] := by cbv
  have htexts' : (ofTokens 7 (Token.scan "x.y = -f(a)\n< b;")).statements.map Stmt.text =
      ["(; (= (. x y) (< (- (call f a)) b)))"] := by cbv
  obtain ⟨s, hs, htext⟩ := List.map_eq_singleton_iff.1 htexts
  obtain ⟨s', hs', htext'⟩ := List.map_eq_singleton_iff.1 htexts'
  have hmem : s ∈ (ofTokens 0 (Token.scan "x.y = -f(a) < b;")).statements :=
    hs ▸ List.mem_singleton_self s
  have hmem' : s' ∈ (ofTokens 7 (Token.scan "x.y = -f(a)\n< b;")).statements :=
    hs' ▸ List.mem_singleton_self s'
  have hsame : s.text = s'.text := htext.trans htext'.symm
  exact ⟨h, h', s, hmem, s', hmem', htext, hsame, (text_eq_iff h h' hmem hmem').1 hsame⟩

end Parse

end Lox
