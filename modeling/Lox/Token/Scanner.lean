import Lox.Token.Cursor

/-!
# Lox.Token.Scanner

Scanning byte by byte. A scanner knows where the lexeme at hand starts, how far it has looked, and on
which line; it goes over blanks and comments in rounds of their own. What it looks for is ASCII, so it
never decodes a character but one that it does not know.

A round has no result where a byte is asked for that is not there, or a text that does not start and
stop between characters. That never comes about: a scanner answers what the cursor answers
(`Scanner.answer_eq`).
-/

namespace Lox
namespace Scan

structure Scanner where
  source : String
  /-- The first byte of the lexeme at hand. -/
  start : Nat
  /-- The byte after the last one looked at. -/
  curr : Nat
  line : Nat

abbrev Scanning := StateT Scanner Option

namespace Scanner

def new (source : String) : Scanner := { source := source, start := 0, curr := 0, line := 1 }

def bytes (s : Scanner) : List UInt8 := s.source.toByteArray.data.toList

def isAtEnd (s : Scanner) : Bool := s.bytes.length ≤ s.curr

/-- The next byte, zero at the end. -/
def peek (s : Scanner) : UInt8 := s.bytes[s.curr]?.getD 0

/-- The byte after the next one, zero at the end. -/
def peekNext (s : Scanner) : UInt8 := s.bytes[s.curr + 1]?.getD 0

/-- The source from `start` up to but without `stop`, if both lie between characters. -/
def cut (s : Scanner) (start stop : Nat) : Option String :=
  if String.Pos.Raw.isValid s.source ⟨start⟩ && String.Pos.Raw.isValid s.source ⟨stop⟩ then
    String.fromUTF8? (s.source.toByteArray.extract start stop)
  else none

/-- Goes on as long as there are bytes of some kind. -/
def advanceWhile (p : UInt8 → Bool) (s : Scanner) : Scanner :=
  if h : s.curr < s.bytes.length then
    if p s.bytes[s.curr] then advanceWhile p { s with curr := s.curr + 1 } else s
  else s
termination_by s.bytes.length - s.curr
decreasing_by exact Nat.sub_succ_lt_self _ _ h

/-- Goes to the next quote or to the end, counting lines. -/
def advanceToQuote (s : Scanner) : Scanner :=
  if h : s.curr < s.bytes.length then
    let b := s.bytes[s.curr]
    if b == '"'.toUInt8 then s
    else
      let line := if b == '\n'.toUInt8 then s.line + 1 else s.line
      advanceToQuote { s with curr := s.curr + 1, line := line }
  else s
termination_by s.bytes.length - s.curr
decreasing_by exact Nat.sub_succ_lt_self _ _ h

/-- Goes to the next line feed or to the end. -/
def advanceToLineFeed (s : Scanner) : Scanner :=
  match (s.bytes.drop s.curr).findIdx? (· == '\n'.toUInt8) with
  | some i => { s with curr := s.curr + i }
  | none => { s with curr := s.bytes.length }

end Scanner

def isDigitByte (b : UInt8) : Bool := (Char.ofUInt8 b).isDigit

def isWordByte (b : UInt8) : Bool := continuesWord (Char.ofUInt8 b)

/-- The number that a text of digits, with or without a fraction, spells. -/
def decimalValue (text : String) : Float :=
  let fraction := text.toList.dropWhile Char.isDigit
  numberValue (text.toList.takeWhile Char.isDigit) (fraction.drop 1)

namespace Scanning

open Scanner

def advance : Scanning UInt8 := fun s =>
  s.bytes[s.curr]?.map fun b => (b, { s with curr := s.curr + 1 })

/-- Takes the next byte if it is of this character. -/
def matchByte (expected : Char) : Scanning Bool := do
  let s ← get
  if !s.isAtEnd && s.peek == expected.toUInt8 then
    let _ ← advance
    pure true
  else pure false

def lexeme : Scanning String := fun s => (s.cut s.start s.curr).map fun text => (text, s)

/-- What a round comes to: an error, or a token, or neither where it was a blank or a comment. -/
abbrev Found := Except LexProblem (Option (TokenKind × Option Literal))

def found (kind : TokenKind) (literal : Option Literal) : Found := .ok (some (kind, literal))

def string : Scanning Found := do
  modify advanceToQuote
  if (← get).isAtEnd then pure (.error .unterminatedString)
  else
    let _ ← advance
    let s ← get
    let value ← s.cut (s.start + 1) (s.curr - 1)
    pure (found .string (some (.string value)))

/-- A point without a digit after it is left alone. -/
def number : Scanning Found := do
  modify (advanceWhile isDigitByte)
  let s ← get
  if s.peek == '.'.toUInt8 && isDigitByte s.peekNext then
    let _ ← advance
    modify (advanceWhile isDigitByte)
  let text ← lexeme
  pure (found .number (some (.number (decimalValue text))))

def word : Scanning Found := do
  modify (advanceWhile isWordByte)
  let text ← lexeme
  pure (found (.ofWord text) none)

/-- Goes on to the end of the character that the lexeme starts with. -/
def unexpected : Scanning Found := do
  let s ← get
  let text ← s.cut s.start s.bytes.length
  let c := text.toList.head?.getD '\ufffd'
  set { s with curr := s.start + c.utf8Size }
  pure (.error (.unexpectedCharacter c))

/-- What is left of a round after its first byte. -/
def roundAfter (c : Char) : Scanning Found := do
  if c == '\n' then
    modify fun s => { s with line := s.line + 1 }
    pure (.ok none)
  else if isBlank c then pure (.ok none)
  else if c == '/' then
    if ← matchByte '/' then
      modify advanceToLineFeed
      pure (.ok none)
    else pure (found .slash none)
  else
    match punctuation? c, comparison? c with
    | some kind, _ => pure (found kind none)
    | none, some (alone, withEqual) =>
      if ← matchByte '=' then pure (found withEqual none) else pure (found alone none)
    | none, none =>
      if c == '"' then string
      else if c.isDigit then number
      else if startsWord c then word
      else unexpected

def round : Scanning Found := do
  let b ← advance
  roundAfter (Char.ofUInt8 b)

/-- Rounds up to the next item, as many as there are bytes left and one more for their end. After the
end there is nothing. -/
def nextIn : Nat → Scanning (Option Span)
  | 0 => failure
  | n + 1 => do
    let s ← get
    if s.bytes.length < s.curr then pure none
    else if s.bytes.length = s.curr then
      set { s with curr := s.curr + 1 }
      pure (some ⟨s.curr, s.curr, .ok (Token.endOfInput s.line)⟩)
    else
      set { s with start := s.curr }
      match ← round with
      | .error problem =>
        let s ← get
        pure (some ⟨s.start, s.curr, .error (.lex s.line problem)⟩)
      | .ok none => nextIn n
      | .ok (some (kind, literal)) =>
        let text ← lexeme
        let s ← get
        pure (some ⟨s.start, s.curr, .ok ⟨kind, text, literal, s.line⟩⟩)

/-- One call. -/
def next : Scanning (Option Span) := fun s => nextIn (s.bytes.length + 1 - s.curr + 1) s

end Scanning

/-- The answer to the call that `n` calls come before. -/
def Scanner.answer (s : Scanner) : Nat → Option (Option Span)
  | 0 => (Scanning.next s).map Prod.fst
  | n + 1 => (Scanning.next s).bind fun r => r.2.answer n

end Scan
end Lox
