import Lox.Decimal.Binary64
import Lox.Error

/-!
# Lox.Token.Scan

Scanning cuts the source into pieces. A piece is a gap of blanks and comments followed by the text of
one item, a token or an error; gaps and texts, one after the other, are the source. The last piece
holds what follows the last item, and stands for the end of the input.
-/

namespace Lox
namespace Scan

/-- A stretch of source: a gap, then the text of one item. -/
structure Piece where
  gap : List Char
  text : List Char
  /-- The line on which the text ends. -/
  line : Nat
  found : Except LexProblem (TokenKind × Option Literal)

def isBlank (c : Char) : Bool :=
  c == ' ' || c == '\r' || c == '\t' || c == '\n'

/-- The first character of an identifier or keyword; only ASCII letters count. -/
def startsWord (c : Char) : Bool := c.isAlpha || c == '_'

def continuesWord (c : Char) : Bool := c.isAlphanum || c == '_'

def newlines (cs : List Char) : Nat := cs.count '\n'

/-- Splits off the longest gap. The flag tells whether a comment is running; a comment ends before
the next newline. -/
def splitGap : Bool → List Char → List Char × List Char
  | _, [] => ([], [])
  | true, c :: cs =>
    let r := splitGap (c != '\n') cs
    (c :: r.1, r.2)
  | false, c :: cs =>
    if isBlank c then
      let r := splitGap false cs
      (c :: r.1, r.2)
    else if c == '/' && cs.head? == some '/' then
      let r := splitGap true cs
      (c :: r.1, r.2)
    else ([], c :: cs)

/-- The kind of a character that is a token by itself, whatever follows. -/
def punctuation? : Char → Option TokenKind
  | '(' => some .leftParen
  | ')' => some .rightParen
  | '\x7b' => some .leftBrace
  | '\x7d' => some .rightBrace
  | ',' => some .comma
  | '.' => some .dot
  | '-' => some .minus
  | '+' => some .plus
  | ';' => some .semicolon
  | '*' => some .star
  | '/' => some .slash
  | _ => none

/-- The kinds of a character that may take an equals sign with it: alone, and with the sign. -/
def comparison? : Char → Option (TokenKind × TokenKind)
  | '!' => some (.bang, .bangEqual)
  | '=' => some (.equal, .equalEqual)
  | '<' => some (.less, .lessEqual)
  | '>' => some (.greater, .greaterEqual)
  | _ => none

/-- The rest of an item after its first character, and the source after the item. -/
structure Step where
  taken : List Char
  rest : List Char
  found : Except LexProblem (TokenKind × Option Literal)

def digitsValue (ds : List Char) : Nat :=
  ds.foldl (fun n d => 10 * n + (d.toNat - '0'.toNat)) 0

/-- The number nearest to `whole.fraction`. -/
def numberValue (whole fraction : List Char) : Float :=
  Binary64.ofOrdinal
    (Binary64.nearest (digitsValue (whole ++ fraction)) (Nat.pow 10 fraction.length))

/-- A fraction needs a digit after its point; a point without one is left alone. -/
def splitFraction : List Char → List Char × List Char
  | '.' :: d :: cs =>
    if d.isDigit then (d :: cs.takeWhile Char.isDigit, cs.dropWhile Char.isDigit)
    else ([], '.' :: d :: cs)
  | cs => ([], cs)

def number (c : Char) (cs : List Char) : Step :=
  let whole := cs.takeWhile Char.isDigit
  let r := splitFraction (cs.dropWhile Char.isDigit)
  { taken := whole ++ (if r.1.isEmpty then [] else '.' :: r.1)
    rest := r.2
    found := .ok (.number, some (.number (numberValue (c :: whole) r.1))) }

def word (c : Char) (cs : List Char) : Step :=
  let more := cs.takeWhile continuesWord
  { taken := more
    rest := cs.dropWhile continuesWord
    found := .ok (TokenKind.ofWord (String.ofList (c :: more)), none) }

/-- A string runs to the next quote, over line breaks too; without one it takes all that is left. -/
def string (cs : List Char) : Step :=
  let body := cs.takeWhile (· != '"')
  match cs.dropWhile (· != '"') with
  | [] => { taken := body, rest := [], found := .error .unterminatedString }
  | q :: rest =>
    { taken := body ++ [q]
      rest := rest
      found := .ok (.string, some (.string (String.ofList body))) }

/-- One item, given its first character. -/
def item (c : Char) (cs : List Char) : Step :=
  match punctuation? c with
  | some kind => { taken := [], rest := cs, found := .ok (kind, none) }
  | none =>
    match comparison? c with
    | some (alone, withEqual) =>
      match cs with
      | '=' :: rest => { taken := ['='], rest := rest, found := .ok (withEqual, none) }
      | _ => { taken := [], rest := cs, found := .ok (alone, none) }
    | none =>
      if c == '"' then string cs
      else if c.isDigit then number c cs
      else if startsWord c then word c cs
      else { taken := [], rest := cs, found := .error (.unexpectedCharacter c) }

/-! ## Nothing is lost -/

theorem splitGap_append (comment : Bool) (cs : List Char) :
    (splitGap comment cs).1 ++ (splitGap comment cs).2 = cs := by
  induction cs generalizing comment with
  | nil => rfl
  | cons c cs ih =>
    cases comment with
    | true => simp [splitGap, ih]
    | false =>
      simp only [splitGap]
      split
      · simp [ih]
      · split
        · simp [ih]
        · rfl

theorem splitFraction_append (cs : List Char) :
    (if (splitFraction cs).1.isEmpty then [] else '.' :: (splitFraction cs).1) ++
      (splitFraction cs).2 = cs := by
  unfold splitFraction
  split
  · split
    · simp [List.takeWhile_append_dropWhile]
    · rfl
  · rfl

theorem item_append (c : Char) (cs : List Char) : (item c cs).taken ++ (item c cs).rest = cs := by
  unfold item
  split
  · rfl
  · split
    · split <;> rfl
    · split
      · unfold string
        split
        · rename_i h
          simpa [h] using List.takeWhile_append_dropWhile (p := (· != '"')) (l := cs)
        · rename_i q rest h
          have := List.takeWhile_append_dropWhile (p := (· != '"')) (l := cs)
          rw [h] at this
          simpa using this
      · split
        · simp only [number, List.append_assoc, splitFraction_append]
          exact List.takeWhile_append_dropWhile
        · split
          · exact List.takeWhile_append_dropWhile
          · rfl

theorem item_rest_length (c : Char) (cs : List Char) : (item c cs).rest.length ≤ cs.length := by
  have h := congrArg List.length (item_append c cs)
  rw [List.length_append] at h
  omega

theorem splitGap_length (comment : Bool) (cs : List Char) :
    (splitGap comment cs).2.length ≤ cs.length := by
  have h := congrArg List.length (splitGap_append comment cs)
  rw [List.length_append] at h
  omega

/-! ## The scan -/

/-- The pieces of `cs`, of which the first starts on `line`. -/
def piecesFrom (line : Nat) (cs : List Char) : List Piece :=
  match splitGap false cs, splitGap_length false cs with
  | (gap, []), _ =>
    [{ gap := gap, text := [], line := line + newlines gap, found := .ok (.eof, none) }]
  | (gap, c :: rest), shorter =>
    have : (item c rest).rest.length < cs.length :=
      Nat.lt_of_le_of_lt (item_rest_length c rest) shorter
    let step := item c rest
    let line := line + newlines gap + newlines (c :: step.taken)
    { gap := gap, text := c :: step.taken, line := line, found := step.found } ::
      piecesFrom line step.rest
termination_by cs.length

theorem piecesFrom_of_nil (line : Nat) {cs gap : List Char} (h : splitGap false cs = (gap, [])) :
    piecesFrom line cs =
      [{ gap := gap, text := [], line := line + newlines gap, found := .ok (.eof, none) }] := by
  unfold piecesFrom
  split
  · rename_i heq _
    rw [h] at heq
    cases heq
    rfl
  · rename_i heq _
    rw [h] at heq
    cases heq

theorem piecesFrom_of_cons (line : Nat) {cs gap rest : List Char} {c : Char}
    (h : splitGap false cs = (gap, c :: rest)) :
    piecesFrom line cs =
      { gap := gap, text := c :: (item c rest).taken,
        line := line + newlines gap + newlines (c :: (item c rest).taken),
        found := (item c rest).found } ::
      piecesFrom (line + newlines gap + newlines (c :: (item c rest).taken))
        (item c rest).rest := by
  rw [piecesFrom]
  split
  · rename_i heq _
    rw [h] at heq
    cases heq
  · rename_i heq _
    rw [h] at heq
    cases heq
    rfl

def pieces (source : String) : List Piece := piecesFrom 1 source.toList

def Piece.item (p : Piece) : Except Error Token :=
  match p.found with
  | .ok (kind, literal) =>
    .ok { kind := kind, lexeme := String.ofList p.text, literal := literal, line := p.line }
  | .error problem => .error (.lex p.line problem)

/-- Tokens and errors in the order of the source; the last is the token for its end. -/
def items (source : String) : List (Except Error Token) := (pieces source).map Piece.item

def token? : Except Error Token → Option Token
  | .ok t => some t
  | .error _ => none

def error? : Except Error Token → Option Error
  | .ok _ => none
  | .error e => some e

end Scan

/-- The tokens of a source text, errors left out. -/
def Token.scan (source : String) : List Token := (Scan.items source).filterMap Scan.token?

/-- The lexical errors of a source text. -/
def Token.scanErrors (source : String) : List Error := (Scan.items source).filterMap Scan.error?

end Lox
