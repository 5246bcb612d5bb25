import Lox.Proofs.Number.ReadBack
import Lox.Proofs.Parse.ForLoop
import Lox.Proofs.Print.Legible
import Lox.Proofs.Print.Nested

/-!
# Lox.Proofs.Print.Reading

Trees read back from nested words (`Expr.read_nested`, `Stmt.read_nested`), with no numbers and no
lines. A word is scanned, and a form is known by its head and its items: an assignment to a property
has an access where one to a variable has a word, an operator with one operand is a prefix, and `and`
and `or` are the logical operators.
-/

namespace Lox

open Scan (IsLexeme)

/-! ## Words -/

/-- The token that a word scans to. -/
def Token.ofText (w : String) : Token :=
  match w.toList with
  | [] => .endOfInput 0
  | c :: cs =>
    match (Scan.item c cs).found with
    | .ok (kind, literal) => { kind := kind, lexeme := w, literal := literal, line := 0 }
    | .error _ => .endOfInput 0

theorem Token.ofText_of_isLexeme {w : String} {kind : TokenKind} {literal : Option Literal}
    (h : IsLexeme w.toList kind literal) :
    Token.ofText w = { kind := kind, lexeme := w, literal := literal, line := 0 } := by
  obtain ⟨c, cs, htext, hreads⟩ := h.reads
  have hitem := hreads.item [] nofun
  rw [List.append_nil] at hitem
  simp only [ofText, htext, hitem]

theorem Token.Legible.ofText_lexeme {t : Token} (h : t.Legible) :
    Token.ofText t.lexeme = t.relabel .erase :=
  Token.ofText_of_isLexeme h.lexeme

namespace NumberText

def ofNumeral (text : List Char) : Float :=
  match (Token.ofText (String.ofList text)).literal with
  | some (.number x) => x
  | _ => 0

/-- The number that a literal stands for, with its sign. -/
def ofLiteral (w : String) : Float :=
  match w.toList with
  | '-' :: text => -ofNumeral text
  | text => ofNumeral text

theorem ofNumeral_of_isLexeme {text : List Char} {k : Nat}
    (h : IsLexeme text .number (some (Decimal.literal k))) :
    ofNumeral text = Binary64.ofOrdinal k := by
  rw [← String.toList_ofList (l := text)] at h
  rw [ofNumeral, Token.ofText_of_isLexeme h]
  rfl

theorem exists_digit_of_isLexeme {text : List Char} {literal : Option Literal}
    (h : IsLexeme text .number literal) : ∃ c cs, text = c :: cs ∧ c.isDigit = true := by
  cases h with
  | symbol h => simp [Scan.symbols] at h
  | keyword h => simp [TokenKind.keywords] at h
  | integer hne hd =>
    obtain ⟨c, cs, rfl⟩ := List.exists_cons_of_ne_nil hne
    exact ⟨c, cs, rfl, hd c List.mem_cons_self⟩
  | decimal hw hf hd =>
    obtain ⟨c, cs, rfl⟩ := List.exists_cons_of_ne_nil hw
    exact ⟨c, _, rfl, hd c List.mem_cons_self⟩

/-- A finite number is read back from its text as a literal, so no two have the same. -/
theorem ofLiteral_literal {x : Float} (hx : x.isFinite = true) : ofLiteral (literal x) = x := by
  obtain ⟨text, htext, hlexeme⟩ := exists_literal_numeral hx
  have hx := Binary64.ofOrdinal_ordinal hx
  rw [ofLiteral, htext, String.toList_ofList]
  split at hx
  · rename_i hsign
    rw [if_pos hsign]
    simpa [ofNumeral_of_isLexeme hlexeme] using hx
  · rename_i hsign
    obtain ⟨c, cs, rfl, hc⟩ := exists_digit_of_isLexeme hlexeme
    rw [if_neg hsign]
    split
    · rename_i h
      cases h
      cases hc
    · simpa [ofNumeral_of_isLexeme hlexeme] using hx

end NumberText

/-- The expression that is printed as one word. -/
def Expr.ofWord (w : String) : Expr :=
  match (Token.ofText w).kind with
  | .kwTrue => .constant (.bool true)
  | .kwFalse => .constant (.bool false)
  | .kwNil => .constant .nil
  | .kwThis => .thisRef 0 (Token.ofText w)
  | .number | .minus => .constant (.number (NumberText.ofLiteral w))
  | _ => .var 0 (Token.ofText w)

theorem Expr.ofWord_literal {x : Float} (hx : x.isFinite = true) :
    Expr.ofWord (NumberText.literal x) = .constant (.number x) := by
  have hkind : (Token.ofText (NumberText.literal x)).kind = .minus ∨
      (Token.ofText (NumberText.literal x)).kind = .number := by
    obtain ⟨text, htext, hlexeme⟩ := NumberText.exists_literal_numeral hx
    rw [htext]
    split
    · left
      simp [Token.ofText, Scan.item, Scan.punctuation?]
    · right
      rw [← String.toList_ofList (l := text)] at hlexeme
      rw [Token.ofText_of_isLexeme hlexeme]
  rw [ofWord]
  obtain hkind | hkind := hkind <;> simp only [hkind, NumberText.ofLiteral_literal hx]

/-- What some nested words stand for. -/
inductive Reading where
  | word (w : String)
  | signature (name : Token) (params : List Token)
  | expr (e : Expr)
  | stmt (s : Stmt)

namespace Reading

def toExpr : Reading → Expr
  | word w => .ofWord w
  | expr e => e
  | _ => .unparsed

def toStmt : Reading → Stmt
  | stmt s => s
  | _ => .placeholder

def toDecl : Reading → FunctionDecl
  | stmt (.function decl) => decl
  | _ => default

def toName : Reading → Token
  | word w => Token.ofText w
  | _ => default

/-- The form with a head and the readings of its items. -/
def ofForm (head : String) (items : List Reading) : Reading :=
  match head, items with
  | "group", [e] => .expr (.grouping e.toExpr)
  | "call", callee :: args =>
    .expr (.call callee.toExpr (Token.ofText ")") (args.map toExpr))
  | ".", [object, name] => .expr (.get object.toExpr name.toName)
  | "super", [method] => .expr (.superRef 0 (Token.ofText "super") method.toName)
  | "=", [.word name, value] => .expr (.assign 0 (Token.ofText name) value.toExpr)
  | "=", [.expr (.get object name), value] => .expr (.set object name value.toExpr)
  | ";", [e] => .stmt (.expression e.toExpr)
  | "var", [name] => .stmt (.var name.toName none)
  | "var", [name, init] => .stmt (.var name.toName (some init.toExpr))
  | "block", body => .stmt (.block (body.map toStmt))
  | "if", [c, yes] => .stmt (.ifThen c.toExpr yes.toStmt)
  | "if", [c, yes, no] => .stmt (.ifElse c.toExpr yes.toStmt no.toStmt)
  | "while", [c, body] => .stmt (.loop c.toExpr body.toStmt)
  | "fun", .signature name params :: body | "method", .signature name params :: body =>
    .stmt (.function ⟨name, params, body.map toStmt⟩)
  | "return", [] => .stmt (.ret (Token.ofText "return") none)
  | "return", [value] => .stmt (.ret (Token.ofText "return") (some value.toExpr))
  | "class", name :: .word "<" :: superclass :: methods =>
    .stmt (.cls name.toName (some superclass.toExpr) (methods.map toDecl))
  | "class", name :: methods => .stmt (.cls name.toName none (methods.map toDecl))
  | "and", [l, r] | "or", [l, r] => .expr (.logical l.toExpr (Token.ofText head) r.toExpr)
  | operator, [e] => .expr (.unary (Token.ofText operator) e.toExpr)
  | operator, [l, r] => .expr (.binary l.toExpr (Token.ofText operator) r.toExpr)
  | _, _ => .expr .unparsed

def ofItems : List Reading → Reading
  | .word head :: items => ofForm head items
  | _ => .expr .unparsed

/-- A list with a name is a signature. -/
def ofList (name : String) (items : List Reading) : Reading :=
  if name = "" then ofItems items else .signature (Token.ofText name) (items.map toName)

end Reading

namespace Nested

mutual

def read : Nested → Reading
  | word w => .word w
  | list name items => .ofList name (readAll items)

def readAll : List Nested → List Reading
  | [] => []
  | n :: ns => n.read :: readAll ns

end

theorem read_form (head : String) (items : List Nested) :
    (form head items).read = .ofForm head (readAll items) := rfl

end Nested

/-! ## Legible words -/

/-- How tokens of some kinds are spelled that have one spelling each. -/
def TokenKind.spellings (kinds : List TokenKind) : List String :=
  ((Scan.symbols ++ TokenKind.keywords).filter fun p => kinds.contains p.2).map Prod.fst

/-- No name, number or string. -/
def TokenKind.isFixed (kind : TokenKind) : Bool :=
  kind != .identifier && kind != .number && kind != .string

namespace Token

theorem Is.lexeme_mem {kinds : List TokenKind} {t : Token} (h : t.Is kinds)
    (hkinds : kinds.all TokenKind.isFixed = true) : t.lexeme ∈ TokenKind.spellings kinds := by
  obtain ⟨hk, hlexeme, -, -⟩ := h
  have hfixed := List.all_eq_true.1 hkinds t.kind hk
  have hspelled {w : String} (hmem : (w, t.kind) ∈ Scan.symbols ++ TokenKind.keywords)
      (hw : w.toList = t.lexeme.toList) : t.lexeme ∈ TokenKind.spellings kinds := by
    obtain rfl := Nested.eq_of_toList_eq hw
    exact List.mem_map.2 ⟨_, List.mem_filter.2 ⟨hmem, by simpa using hk⟩, rfl⟩
  generalize t.lexeme.toList = text at hlexeme hspelled
  generalize t.literal = literal at hlexeme
  generalize t.kind = kind at hlexeme hspelled hfixed
  cases hlexeme with
  | symbol h => exact hspelled (List.mem_append_left _ h) rfl
  | keyword h => exact hspelled (List.mem_append_right _ h) rfl
  | identifier | integer | decimal | string => cases hfixed

/-- A token of a kind with one spelling. -/
theorem Is.ofText_eq {kind : TokenKind} {t : Token} {w : String} (h : t.Is [kind])
    (hw : TokenKind.spellings [kind] = [w]) (hkind : kind.isFixed = true) :
    Token.ofText w = t.relabel .erase := by
  have hmem := h.lexeme_mem (by rw [List.all_cons, hkind]; rfl)
  rw [hw, List.mem_singleton] at hmem
  rw [← hmem, h.2.ofText_lexeme]

end Token

theorem Token.ofText_keyword {w : String} {kind : TokenKind}
    (h : (w, kind) ∈ TokenKind.keywords) :
    Token.ofText w = { kind := kind, lexeme := w, literal := none, line := 0 } :=
  Token.ofText_of_isLexeme (.keyword h)

/-! ## Reading back -/

namespace Reading

theorem ofForm_unary {operator : Token} (h : operator.Is Operator.unaryKinds) (e : Reading) :
    ofForm operator.lexeme [e] = .expr (.unary (operator.relabel .erase) e.toExpr) := by
  have hmem : operator.lexeme ∈ ["-", "!"] := h.lexeme_mem rfl
  rw [← h.2.ofText_lexeme]
  simp only [List.mem_cons, List.not_mem_nil, or_false] at hmem
  obtain h | h := hmem <;> rw [h] <;> rfl

theorem ofForm_binary {operator : Token} (h : operator.Is Operator.binaryKinds) (l r : Reading) :
    ofForm operator.lexeme [l, r] =
      .expr (.binary l.toExpr (operator.relabel .erase) r.toExpr) := by
  have hmem : operator.lexeme ∈ ["-", "+", "/", "*", "!=", "==", ">", ">=", "<", "<="] :=
    h.lexeme_mem rfl
  rw [← h.2.ofText_lexeme]
  simp only [List.mem_cons, List.not_mem_nil, or_false] at hmem
  obtain h | h | h | h | h | h | h | h | h | h := hmem <;> rw [h] <;> rfl

theorem ofForm_logical {operator : Token} (h : operator.Is Operator.logicalKinds) (l r : Reading) :
    ofForm operator.lexeme [l, r] =
      .expr (.logical l.toExpr (operator.relabel .erase) r.toExpr) := by
  have hmem : operator.lexeme ∈ ["and", "or"] := h.lexeme_mem rfl
  rw [← h.2.ofText_lexeme]
  simp only [List.mem_cons, List.not_mem_nil, or_false] at hmem
  obtain h | h := hmem <;> rw [h] <;> rfl

end Reading

theorem Constant.ofWord_text {c : Constant} (h : c.Legible) :
    Expr.ofWord c.text = .constant c := by
  cases c with
  | number x => exact Expr.ofWord_literal h
  | string s => exact h.elim
  | bool b =>
    cases b with
    | false =>
      rw [text, if_neg Bool.false_ne_true, Expr.ofWord,
        @Token.ofText_keyword _ .kwFalse (by simp [TokenKind.keywords])]
    | true =>
      rw [text, if_pos rfl, Expr.ofWord,
        @Token.ofText_keyword _ .kwTrue (by simp [TokenKind.keywords])]
  | nil =>
    rw [text, Expr.ofWord, @Token.ofText_keyword _ .kwNil (by simp [TokenKind.keywords])]

theorem Token.Is.ofWord_lexeme {name : Token} (h : name.Is [.identifier]) :
    Expr.ofWord name.lexeme = .var 0 (name.relabel .erase) := by
  have hkind : (name.relabel .erase).kind = .identifier := List.mem_singleton.1 h.1
  rw [Expr.ofWord, h.2.ofText_lexeme, hkind]

open Nested (read_form readAll)

mutual

theorem Expr.read_nested : ∀ {e : Expr}, e.Legible →
    e.nested.read.toExpr = e.relabel .erase
  | .constant c, h => Constant.ofWord_text h
  | .grouping e, h => congrArg grouping (Expr.read_nested h)
  | .unary operator e, h => by
    rw [nested, read_form, readAll, readAll, Reading.ofForm_unary h.1]
    exact congrArg (unary _) (Expr.read_nested h.2)
  | .binary l operator r, h => by
    rw [nested, read_form, readAll, readAll, readAll, Reading.ofForm_binary h.1]
    exact congrArg₂ (binary · _ ·) (Expr.read_nested h.2.1) (Expr.read_nested h.2.2)
  | .logical l operator r, h => by
    rw [nested, read_form, readAll, readAll, readAll, Reading.ofForm_logical h.1]
    exact congrArg₂ (logical · _ ·) (Expr.read_nested h.2.1) (Expr.read_nested h.2.2)
  | .var _ name, h => Token.Is.ofWord_lexeme h
  | .assign _ name value, h =>
    congrArg₂ (assign 0) h.1.2.ofText_lexeme (Expr.read_nested h.2)
  | .call callee paren args, h => by
    have hparen := h.2.1.ofText_eq (w := ")") rfl rfl
    rw [relabel, ← hparen, ← Expr.read_nested h.1, ← Expr.readAll_nestedOfList h.2.2]
    rfl
  | .get object name, h => congrArg₂ get (Expr.read_nested h.1) h.2.2.ofText_lexeme
  | .set object name value, h => by
    rw [relabel, ← Expr.read_nested h.1, ← h.2.1.2.ofText_lexeme, ← Expr.read_nested h.2.2]
    rfl
  | .thisRef _ keyword, h => by
    have hkeyword := Token.Is.ofText_eq (w := "this") h rfl rfl
    have hkind : (keyword.relabel .erase).kind = .kwThis := List.mem_singleton.1 h.1
    show Expr.ofWord "this" = _
    rw [ofWord, hkeyword, hkind]
    rfl
  | .superRef _ keyword method, h => by
    have hkeyword := h.1.ofText_eq (w := "super") rfl rfl
    exact congrArg₂ (superRef 0) hkeyword h.2.2.ofText_lexeme

theorem Expr.readAll_nestedOfList : ∀ {es : List Expr}, Expr.AllLegible es →
    (readAll (Expr.nestedOfList es)).map Reading.toExpr = Expr.relabelList .erase es
  | [], _ => rfl
  | _ :: _, h => congrArg₂ List.cons (Expr.read_nested h.1) (Expr.readAll_nestedOfList h.2)

end

/-- A list with a name is read as a signature. -/
theorem Token.Is.read_signature {name : Token} {params : List Token} (h : name.Is [.identifier])
    (hparams : ∀ p ∈ params, p.Is [.identifier]) :
    (Nested.list name.lexeme (params.map fun p => .word p.lexeme)).read =
      .signature (name.relabel .erase) (params.map (Token.relabel .erase)) := by
  have hname : name.lexeme ≠ "" := by
    intro hempty
    obtain ⟨c, cs, htext, -⟩ := h.2.lexeme.reads
    rw [hempty] at htext
    cases htext
  have hread : (readAll (params.map fun p => .word p.lexeme)).map Reading.toName =
      params.map (Token.relabel .erase) := by
    induction params with
    | nil => rfl
    | cons p params ih =>
      rw [List.forall_mem_cons] at hparams
      exact congrArg₂ List.cons hparams.1.2.ofText_lexeme (ih hparams.2)
  rw [Nested.read, Reading.ofList, if_neg hname, hread, h.2.ofText_lexeme]

namespace Reading

theorem map_toStmt_stmt (ss : List Stmt) : (ss.map stmt).map toStmt = ss := by
  rw [List.map_map]
  exact List.map_id ss

theorem map_toDecl_function (ds : List FunctionDecl) :
    (ds.map fun d => stmt (.function d)).map toDecl = ds := by
  rw [List.map_map]
  exact List.map_id ds

theorem ofForm_block (body : List Stmt) :
    ofForm "block" (body.map stmt) = stmt (.block body) :=
  congrArg (fun ss => stmt (.block ss)) (map_toStmt_stmt body)

theorem ofForm_function {head : String} (h : head ∈ ["fun", "method"]) (name : Token)
    (params : List Token) (body : List Stmt) :
    ofForm head (signature name params :: body.map stmt) =
      stmt (.function ⟨name, params, body⟩) := by
  have hbody := congrArg (fun ss => stmt (.function ⟨name, params, ss⟩)) (map_toStmt_stmt body)
  simp only [List.mem_cons, List.not_mem_nil, or_false] at h
  obtain rfl | rfl := h <;> exact hbody

/-- What follows the name of a class is not taken for a superclass if it is a method. -/
theorem ofForm_class (name : Reading) (methods : List FunctionDecl) :
    ofForm "class" (name :: methods.map fun d => stmt (.function d)) =
      stmt (.cls name.toName none methods) := by
  have hmethods :=
    congrArg (fun ds => stmt (.cls name.toName none ds)) (map_toDecl_function methods)
  cases methods <;> exact hmethods

theorem ofForm_subclass (name superclass : Reading) (methods : List FunctionDecl) :
    ofForm "class"
        (name :: word "<" :: superclass :: methods.map fun d => stmt (.function d)) =
      stmt (.cls name.toName (some superclass.toExpr) methods) :=
  congrArg (fun ds => stmt (.cls name.toName (some superclass.toExpr) ds))
    (map_toDecl_function methods)

end Reading

mutual

theorem Stmt.read_nested : ∀ {s : Stmt}, s.Legible →
    s.nested.read = .stmt (s.relabel .erase)
  | .expression e, h => by
    rw [Stmt.relabel, ← Expr.read_nested h]
    rfl
  | .var name none, h => by
    rw [Stmt.relabel, ← h.1.2.ofText_lexeme]
    rfl
  | .var name (some init), h => by
    rw [Stmt.relabel, ← h.1.2.ofText_lexeme, Option.map_some, ← Expr.read_nested (h.2 init rfl)]
    rfl
  | .block body, h => by
    rw [Stmt.nested, read_form, Stmt.readAll_nestedOfList h, Reading.ofForm_block]
    rfl
  | .ifThen condition yes, h => by
    rw [Stmt.nested, read_form, readAll, readAll, readAll, Stmt.read_nested h.2, Stmt.relabel,
      ← Expr.read_nested h.1]
    rfl
  | .ifElse condition yes no, h => by
    rw [Stmt.nested, read_form, readAll, readAll, readAll, readAll, Stmt.read_nested h.2.1,
      Stmt.read_nested h.2.2, Stmt.relabel, ← Expr.read_nested h.1]
    rfl
  | .loop condition body, h => by
    rw [Stmt.nested, read_form, readAll, readAll, readAll, Stmt.read_nested h.2, Stmt.relabel,
      ← Expr.read_nested h.1]
    rfl
  | .function decl, h => FunctionDecl.read_nested (by simp) h
  | .ret keyword none, h => by
    rw [Stmt.relabel, ← h.1.ofText_eq (w := "return") rfl rfl]
    rfl
  | .ret keyword (some value), h => by
    rw [Stmt.relabel, ← h.1.ofText_eq (w := "return") rfl rfl, Option.map_some,
      ← Expr.read_nested (h.2 value rfl)]
    rfl
  | .cls name none methods, h => by
    rw [Stmt.nested, read_form, readAll, FunctionDecl.readAll_nestedOfList h.2.2,
      Reading.ofForm_class, Stmt.relabel, ← h.1.2.ofText_lexeme]
    rfl
  | .cls name (some superclass) methods, h => by
    rw [Stmt.nested, read_form, readAll, readAll, readAll, FunctionDecl.readAll_nestedOfList h.2.2,
      Nested.read, Nested.read, Reading.ofForm_subclass, Stmt.relabel, ← h.1.2.ofText_lexeme,
      Option.map_some, ← Expr.read_nested (h.2.1 superclass rfl)]
    rfl

theorem Stmt.readAll_nestedOfList : ∀ {ss : List Stmt}, Stmt.AllLegible ss →
    readAll (Stmt.nestedOfList ss) = (Stmt.relabelList .erase ss).map .stmt
  | [], _ => rfl
  | _ :: _, h => congrArg₂ List.cons (Stmt.read_nested h.1) (Stmt.readAll_nestedOfList h.2)

theorem FunctionDecl.read_nested {head : String} (hhead : head ∈ ["fun", "method"]) :
    ∀ {decl : FunctionDecl}, decl.Legible →
      (decl.nested head).read = .stmt (.function (decl.relabel .erase))
  | ⟨name, params, body⟩, h => by
    rw [FunctionDecl.nested, read_form, readAll, Token.Is.read_signature h.1 h.2.1,
      Stmt.readAll_nestedOfList h.2.2, Reading.ofForm_function hhead]
    rfl

theorem FunctionDecl.readAll_nestedOfList : ∀ {ds : List FunctionDecl},
    FunctionDecl.AllLegible ds → readAll (FunctionDecl.nestedOfList ds) =
      (FunctionDecl.relabelList .erase ds).map fun d => .stmt (.function d)
  | [], _ => rfl
  | _ :: _, h => congrArg₂ List.cons (FunctionDecl.read_nested (by simp) h.1)
      (FunctionDecl.readAll_nestedOfList h.2)

end

end Lox
