import Lox.Program.Print
import Lox.Proofs.Token.Lexeme

/-!
# Lox.Proofs.Print.Nested

The text of a tree as words in nested parentheses. Such a text has one reading
(`Nested.eq_of_chars_append`), whatever the words are, as long as no word has a space or a
parenthesis in it: a word ends where one of these follows, and the parenthesis that is open ends the
list. The text of every expression and statement is of this kind (`Expr.chars_nested`,
`Stmt.chars_nested`).
-/

namespace Lox

open Scan (StopsAt takeWhile_append_of_stopsAt)

/-- A word, or a list with a name right before its parenthesis. -/
inductive Nested where
  | word (w : String)
  | list (name : String) (items : List Nested)

namespace Nested

/-- A list without a name whose first item is a word. -/
def form (head : String) (items : List Nested) : Nested := list "" (word head :: items)

mutual

/-- Items are set apart by a space; the first has none before it. -/
def chars : Nested → List Char
  | word w => w.toList
  | list name items => name.toList ++ '(' :: ((spaced items).drop 1 ++ [')'])

/-- A space before each. -/
def spaced : List Nested → List Char
  | [] => []
  | n :: ns => ' ' :: (n.chars ++ spaced ns)

end

/-! ## One reading -/

def isPlain (c : Char) : Bool := c != ' ' && c != '(' && c != ')'

/-- Words that are plain all through. -/
def PlainText (w : String) : Prop := ∀ c ∈ w.toList, isPlain c = true

mutual

/-- All words are plain, and none is empty but for the name of a list. -/
def Plain : Nested → Prop
  | word w => w.toList ≠ [] ∧ PlainText w
  | list name items => PlainText name ∧ AllPlain items

def AllPlain : List Nested → Prop
  | [] => True
  | n :: ns => n.Plain ∧ AllPlain ns

end

/-- What may stand after an item. -/
def Closed (rest : List Char) : Prop := ∀ c ∈ rest.head?, c = ' ' ∨ c = ')'

theorem Closed.stopsAt {rest : List Char} (h : Closed rest) : StopsAt isPlain rest := by
  intro c hc
  obtain rfl | rfl := h c hc <;> rfl

theorem closed_nil : Closed [] := nofun

theorem closed_spaced (ns : List Nested) (rest : List Char) :
    Closed (spaced ns ++ ')' :: rest) := by
  intro c hc
  cases ns with
  | nil =>
    cases hc
    exact .inr rfl
  | cons n ns =>
    cases hc
    exact .inl rfl

/-- No item starts like something that closes one. -/
theorem Plain.chars_append_ne {n : Nested} (h : n.Plain) (rest : List Char) :
    ∀ c ∈ (n.chars ++ rest).head?, c ≠ ')' := by
  intro c hc
  cases n with
  | word w =>
    rw [chars, List.head?_append_of_ne_nil _ h.1] at hc
    have hplain := h.2 c (List.mem_of_mem_head? hc)
    rintro rfl
    cases hplain
  | list name items =>
    rw [chars] at hc
    cases hname : name.toList with
    | nil =>
      rw [hname] at hc
      cases hc
      decide
    | cons d ds =>
      rw [hname] at hc
      have hplain := h.1 d (by rw [hname]; exact List.mem_cons_self)
      cases hc
      rintro rfl
      cases hplain

theorem eq_of_toList_eq {w w' : String} (h : w.toList = w'.toList) : w = w' := by
  rw [← String.ofList_toList (s := w), h, String.ofList_toList]

/-- A plain text ends where something plain does not follow. -/
theorem eq_of_plainText_append {w w' : String} {rest rest' : List Char} (hw : PlainText w)
    (hw' : PlainText w') (hrest : StopsAt isPlain rest) (hrest' : StopsAt isPlain rest')
    (h : w.toList ++ rest = w'.toList ++ rest') : w = w' ∧ rest = rest' := by
  obtain ⟨htake, hdrop⟩ := takeWhile_append_of_stopsAt hw hrest
  obtain ⟨htake', hdrop'⟩ := takeWhile_append_of_stopsAt hw' hrest'
  rw [h] at htake hdrop
  exact ⟨eq_of_toList_eq (htake.symm.trans htake'), hdrop.symm.trans hdrop'⟩

theorem stopsAt_opening (rest : List Char) : StopsAt isPlain ('(' :: rest) := by
  intro c hc
  cases hc
  rfl

/-- No item is a word in one reading and a list in another. -/
theorem word_append_ne {w name : String} {items rest rest' : List Char} (hw : PlainText w)
    (hname : PlainText name) (hrest : Closed rest) :
    w.toList ++ rest ≠ name.toList ++ '(' :: items ++ rest' := by
  intro h
  rw [List.append_assoc] at h
  obtain ⟨-, rfl⟩ := eq_of_plainText_append hw hname hrest.stopsAt (stopsAt_opening _) h
  obtain hc | hc := hrest '(' rfl <;> cases hc

theorem drop_spaced_cons (n : Nested) (ns : List Nested) :
    (spaced (n :: ns)).drop 1 = n.chars ++ spaced ns := rfl

/-- The items of a list up to its closing parenthesis, from a space after each. -/
theorem eq_of_drop_spaced {ns ns' : List Nested} {rest rest' : List Char} (hns : AllPlain ns)
    (hns' : AllPlain ns')
    (h : (spaced ns).drop 1 ++ ')' :: rest = (spaced ns').drop 1 ++ ')' :: rest') :
    spaced ns ++ ')' :: rest = spaced ns' ++ ')' :: rest' := by
  cases ns with
  | nil =>
    cases ns' with
    | nil => exact h
    | cons n ns' =>
      have hhead := hns'.1.chars_append_ne (spaced ns' ++ ')' :: rest')
      rw [← List.append_assoc, ← drop_spaced_cons, ← h] at hhead
      exact absurd rfl (hhead ')' rfl)
  | cons n ns =>
    cases ns' with
    | nil =>
      have hhead := hns.1.chars_append_ne (spaced ns ++ ')' :: rest)
      rw [← List.append_assoc, ← drop_spaced_cons, h] at hhead
      exact absurd rfl (hhead ')' rfl)
    | cons n' ns' => exact congrArg (' ' :: ·) h

mutual

/-- A text that starts with an item and closes it there can be read in one way only. -/
theorem eq_of_chars_append : ∀ {n n' : Nested} {rest rest' : List Char}, n.Plain → n'.Plain →
    Closed rest → Closed rest' → n.chars ++ rest = n'.chars ++ rest' → n = n' ∧ rest = rest'
  | .word w, .word w', rest, rest', hn, hn', hrest, hrest', h => by
    obtain ⟨rfl, rfl⟩ := eq_of_plainText_append hn.2 hn'.2 hrest.stopsAt hrest'.stopsAt h
    exact ⟨rfl, rfl⟩
  | .word w, .list name items, rest, rest', hn, hn', hrest, hrest', h =>
    absurd h (word_append_ne hn.2 hn'.1 hrest)
  | .list name items, .word w, rest, rest', hn, hn', hrest, hrest', h =>
    absurd h.symm (word_append_ne hn'.2 hn.1 hrest')
  | .list name items, .list name' items', rest, rest', hn, hn', hrest, hrest', h => by
    simp only [chars, List.append_assoc, List.cons_append] at h
    obtain ⟨rfl, hitems⟩ :=
      eq_of_plainText_append hn.1 hn'.1 (stopsAt_opening _) (stopsAt_opening _) h
    obtain ⟨rfl, rfl⟩ := eq_of_spaced_append hn.2 hn'.2
      (eq_of_drop_spaced hn.2 hn'.2 (List.cons.inj hitems).2)
    exact ⟨rfl, rfl⟩

theorem eq_of_spaced_append : ∀ {ns ns' : List Nested} {rest rest' : List Char}, AllPlain ns →
    AllPlain ns' → spaced ns ++ ')' :: rest = spaced ns' ++ ')' :: rest' → ns = ns' ∧ rest = rest'
  | [], [], rest, rest', _, _, h => ⟨rfl, (List.cons.inj h).2⟩
  | [], _ :: _, rest, rest', _, _, h => absurd (List.cons.inj h).1 (by decide)
  | _ :: _, [], rest, rest', _, _, h => absurd (List.cons.inj h).1 (by decide)
  | n :: ns, n' :: ns', rest, rest', hns, hns', h => by
    simp only [spaced, List.append_assoc, List.cons_append] at h
    obtain ⟨rfl, hmore⟩ := eq_of_chars_append hns.1 hns'.1 (closed_spaced ns rest)
      (closed_spaced ns' rest') (List.cons.inj h).2
    obtain ⟨rfl, rfl⟩ := eq_of_spaced_append hns.2 hns'.2 hmore
    exact ⟨rfl, rfl⟩

end

end Nested

/-! ## Trees -/

open Nested (word form list)

mutual

def Expr.nested : Expr → Nested
  | .constant c => word c.text
  | .grouping e => form "group" [e.nested]
  | .unary operator e => form operator.lexeme [e.nested]
  | .binary l operator r | .logical l operator r => form operator.lexeme [l.nested, r.nested]
  | .var _ name => word name.lexeme
  | .assign _ name value => form "=" [word name.lexeme, value.nested]
  | .call callee _ args => form "call" (callee.nested :: Expr.nestedOfList args)
  | .get object name => form "." [object.nested, word name.lexeme]
  | .set object name value =>
    form "=" [form "." [object.nested, word name.lexeme], value.nested]
  | .thisRef _ _ => word "this"
  | .superRef _ _ method => form "super" [word method.lexeme]
  | .unparsed => word "<error>"

def Expr.nestedOfList : List Expr → List Nested
  | [] => []
  | e :: es => e.nested :: Expr.nestedOfList es

end

mutual

def Stmt.nested : Stmt → Nested
  | .expression e => form ";" [e.nested]
  | .var name none => form "var" [word name.lexeme]
  | .var name (some init) => form "var" [word name.lexeme, init.nested]
  | .block body => form "block" (Stmt.nestedOfList body)
  | .ifThen c yes => form "if" [c.nested, yes.nested]
  | .ifElse c yes no => form "if" [c.nested, yes.nested, no.nested]
  | .loop c body => form "while" [c.nested, body.nested]
  | .function decl => decl.nested "fun"
  | .ret _ none => form "return" []
  | .ret _ (some value) => form "return" [value.nested]
  | .cls name none methods =>
    form "class" (word name.lexeme :: FunctionDecl.nestedOfList methods)
  | .cls name (some superclass) methods =>
    form "class" (word name.lexeme :: word "<" :: superclass.nested ::
      FunctionDecl.nestedOfList methods)

def Stmt.nestedOfList : List Stmt → List Nested
  | [] => []
  | s :: ss => s.nested :: Stmt.nestedOfList ss

def FunctionDecl.nested (head : String) : FunctionDecl → Nested
  | ⟨name, params, body⟩ =>
    form head (list name.lexeme (params.map fun p => word p.lexeme) :: Stmt.nestedOfList body)

def FunctionDecl.nestedOfList : List FunctionDecl → List Nested
  | [] => []
  | d :: ds => d.nested "method" :: FunctionDecl.nestedOfList ds

end

namespace Nested

theorem chars_form (head : String) (items : List Nested) :
    (form head items).chars = '(' :: (head.toList ++ (spaced items ++ [')'])) := by
  simp [form, chars, spaced]

end Nested

mutual

theorem Expr.chars_nested : ∀ e : Expr, e.nested.chars = e.text.toList
  | .constant c => by simp [nested, text, Nested.chars]
  | .grouping e => by simp [nested, text, Nested.chars_form, Nested.spaced, e.chars_nested]
  | .unary op e => by simp [nested, text, Nested.chars_form, Nested.spaced, e.chars_nested]
  | .binary l op r => by
    simp [nested, text, Nested.chars_form, Nested.spaced, l.chars_nested, r.chars_nested]
  | .logical l op r => by
    simp [nested, text, Nested.chars_form, Nested.spaced, l.chars_nested, r.chars_nested]
  | .var _ name => by simp [nested, text, Nested.chars]
  | .assign _ name value => by
    simp [nested, text, Nested.chars_form, Nested.chars, Nested.spaced, value.chars_nested]
  | .call callee _ args => by
    simp [nested, text, Nested.chars_form, Nested.spaced, callee.chars_nested,
      Expr.spaced_nestedOfList args]
  | .get object name => by
    simp [nested, text, Nested.chars_form, Nested.chars, Nested.spaced, object.chars_nested]
  | .set object name value => by
    simp [nested, text, Nested.chars_form, Nested.chars, Nested.spaced, object.chars_nested,
      value.chars_nested]
  | .thisRef _ _ => by simp [nested, text, Nested.chars]
  | .superRef _ _ method => by simp [nested, text, Nested.chars_form, Nested.chars, Nested.spaced]
  | .unparsed => by simp [nested, text, Nested.chars]

theorem Expr.spaced_nestedOfList : ∀ es : List Expr,
    Nested.spaced (Expr.nestedOfList es) = (Expr.spacedTexts es).toList
  | [] => rfl
  | e :: es => by
    simp [nestedOfList, spacedTexts, Nested.spaced, e.chars_nested, Expr.spaced_nestedOfList es]

end

namespace Nested

/-- Words with a space between them. -/
theorem drop_spaced_words (ws : List String) :
    (spaced (ws.map word)).drop 1 = (" ".intercalate ws).toList := by
  induction ws with
  | nil => rfl
  | cons w ws ih =>
    cases ws with
    | nil => simp [chars, spaced]
    | cons v vs =>
      rw [List.map_cons, drop_spaced_cons, String.intercalate_cons_cons]
      simp [← ih, chars, spaced]

end Nested

mutual

theorem Stmt.chars_nested : ∀ s : Stmt, s.nested.chars = s.text.toList
  | .expression e => by simp [Stmt.nested, Stmt.text, Nested.chars_form, Nested.spaced, e.chars_nested]
  | .var name none => by simp [Stmt.nested, Stmt.text, Nested.chars_form, Nested.chars, Nested.spaced]
  | .var name (some init) => by
    simp [Stmt.nested, Stmt.text, Nested.chars_form, Nested.chars, Nested.spaced, init.chars_nested]
  | .block body => by simp [Stmt.nested, Stmt.text, Nested.chars_form, Stmt.spaced_nestedOfList body]
  | .ifThen c yes => by
    simp [Stmt.nested, Stmt.text, Nested.chars_form, Nested.spaced, c.chars_nested, yes.chars_nested]
  | .ifElse c yes no => by
    simp [Stmt.nested, Stmt.text, Nested.chars_form, Nested.spaced, c.chars_nested, yes.chars_nested,
      no.chars_nested]
  | .loop c body => by
    simp [Stmt.nested, Stmt.text, Nested.chars_form, Nested.spaced, c.chars_nested, body.chars_nested]
  | .function decl => decl.chars_nested "fun"
  | .ret _ none => by simp [Stmt.nested, Stmt.text, Nested.chars_form, Nested.spaced]
  | .ret _ (some value) => by
    simp [Stmt.nested, Stmt.text, Nested.chars_form, Nested.spaced, value.chars_nested]
  | .cls name none methods => by
    simp [Stmt.nested, Stmt.text, Nested.chars_form, Nested.chars, Nested.spaced,
      FunctionDecl.spaced_nestedOfList methods]
  | .cls name (some superclass) methods => by
    simp [Stmt.nested, Stmt.text, Nested.chars_form, Nested.chars, Nested.spaced, superclass.chars_nested,
      FunctionDecl.spaced_nestedOfList methods]

theorem Stmt.spaced_nestedOfList : ∀ ss : List Stmt,
    Nested.spaced (Stmt.nestedOfList ss) = (Stmt.spacedTexts ss).toList
  | [] => rfl
  | s :: ss => by
    simp [Stmt.nestedOfList, Stmt.spacedTexts, Nested.spaced, s.chars_nested, Stmt.spaced_nestedOfList ss]

theorem FunctionDecl.chars_nested (head : String) : ∀ decl : FunctionDecl,
    (decl.nested head).chars = (decl.text head).toList
  | ⟨name, params, body⟩ => by
    have hparams := Nested.drop_spaced_words (params.map Token.lexeme)
    rw [List.map_map] at hparams
    simp [FunctionDecl.nested, FunctionDecl.text, Nested.chars_form, Nested.chars, Nested.spaced,
      Stmt.spaced_nestedOfList body, ← hparams, Function.comp_def]

theorem FunctionDecl.spaced_nestedOfList : ∀ ds : List FunctionDecl,
    Nested.spaced (FunctionDecl.nestedOfList ds) = (FunctionDecl.spacedTexts ds).toList
  | [] => rfl
  | d :: ds => by
    simp [FunctionDecl.nestedOfList, FunctionDecl.spacedTexts, Nested.spaced,
      d.chars_nested "method", FunctionDecl.spaced_nestedOfList ds]

end

end Lox
