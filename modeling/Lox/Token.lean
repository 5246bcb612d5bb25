/-!
# Lox.Token

The words of Lox. A token has a kind, the text it was written with, the value that text spells
(for numbers and strings only) and the line on which the text ends.
-/

namespace Lox

inductive TokenKind where
  | leftParen | rightParen | leftBrace | rightBrace
  | comma | dot | minus | plus | semicolon | slash | star
  | bang | bangEqual | equal | equalEqual | greater | greaterEqual | less | lessEqual
  | identifier | string | number
  | kwAnd | kwClass | kwElse | kwFalse | kwFun | kwFor | kwIf | kwNil | kwOr
  | kwReturn | kwSuper | kwThis | kwTrue | kwVar | kwWhile
  | eof
  deriving DecidableEq, Repr, Inhabited

namespace TokenKind

/-- The kind's name in token listings. -/
def name : TokenKind → String
  | leftParen => "LEFT_PAREN"
  | rightParen => "RIGHT_PAREN"
  | leftBrace => "LEFT_BRACE"
  | rightBrace => "RIGHT_BRACE"
  | comma => "COMMA"
  | dot => "DOT"
  | minus => "MINUS"
  | plus => "PLUS"
  | semicolon => "SEMICOLON"
  | slash => "SLASH"
  | star => "STAR"
  | bang => "BANG"
  | bangEqual => "BANG_EQUAL"
  | equal => "EQUAL"
  | equalEqual => "EQUAL_EQUAL"
  | greater => "GREATER"
  | greaterEqual => "GREATER_EQUAL"
  | less => "LESS"
  | lessEqual => "LESS_EQUAL"
  | identifier => "IDENTIFIER"
  | string => "STRING"
  | number => "NUMBER"
  | kwAnd => "AND"
  | kwClass => "CLASS"
  | kwElse => "ELSE"
  | kwFalse => "FALSE"
  | kwFun => "FUN"
  | kwFor => "FOR"
  | kwIf => "IF"
  | kwNil => "NIL"
  | kwOr => "OR"
  | kwReturn => "RETURN"
  | kwSuper => "SUPER"
  | kwThis => "THIS"
  | kwTrue => "TRUE"
  | kwVar => "VAR"
  | kwWhile => "WHILE"
  | eof => "EOF"

/-- Every kind, in the order of declaration. -/
def all : List TokenKind :=
  [leftParen, rightParen, leftBrace, rightBrace, comma, dot, minus, plus, semicolon, slash, star,
   bang, bangEqual, equal, equalEqual, greater, greaterEqual, less, lessEqual,
   identifier, string, number,
   kwAnd, kwClass, kwElse, kwFalse, kwFun, kwFor, kwIf, kwNil, kwOr,
   kwReturn, kwSuper, kwThis, kwTrue, kwVar, kwWhile, eof]

theorem mem_all (k : TokenKind) : k ∈ all := by
  cases k <;> decide

/-- The kind listed under a name. -/
def ofName? (text : String) : Option TokenKind :=
  all.find? fun k => k.name == text

/-- Words that are never identifiers, with their kinds. -/
def keywords : List (String × TokenKind) :=
  [("and", kwAnd), ("class", kwClass), ("else", kwElse), ("false", kwFalse), ("fun", kwFun),
   ("for", kwFor), ("if", kwIf), ("nil", kwNil), ("or", kwOr), ("return", kwReturn),
   ("super", kwSuper), ("this", kwThis), ("true", kwTrue), ("var", kwVar), ("while", kwWhile)]

/-- The kind of a word: its keyword, if it spells one exactly, else an identifier. -/
def ofWord (word : String) : TokenKind :=
  (keywords.lookup word).getD identifier

end TokenKind

/-- The value that a number or string token spells. -/
inductive Literal where
  | number (x : Float)
  | string (s : String)
  deriving Inhabited

structure Token where
  kind : TokenKind
  lexeme : String
  literal : Option Literal := none
  line : Nat := 1
  deriving Inhabited

/-- The token that ends every input. -/
def Token.endOfInput (line : Nat) : Token :=
  { kind := .eof, lexeme := "", literal := none, line := line }

end Lox
