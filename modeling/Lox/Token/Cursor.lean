import Lox.Token.Scan

/-!
# Lox.Token.Cursor

The scan one item at a time: a cursor answers each call with the next item and the range of bytes the
item takes up in the source, and after the item for the end of the input with nothing.
-/

namespace Lox
namespace Scan

/-- The number of bytes that characters take up in UTF-8. -/
def byteSize : List Char → Nat
  | [] => 0
  | c :: cs => c.utf8Size + byteSize cs

/-- The first piece of `cs`, and what is left for the pieces after it, if any. -/
def firstPiece (line : Nat) (cs : List Char) : Piece × Option (List Char) :=
  match splitGap false cs with
  | (gap, []) => (⟨gap, [], line + newlines gap, .ok (.eof, none)⟩, none)
  | (gap, c :: rest) =>
    let step := item c rest
    let line := line + newlines gap + newlines (c :: step.taken)
    (⟨gap, c :: step.taken, line, step.found⟩, some step.rest)

/-- An item with the bytes it takes up, from `start` up to but without `stop`. -/
structure Span where
  start : Nat
  stop : Nat
  item : Except Error Token

/-- Where a scan stands. -/
structure Cursor where
  /-- The bytes scanned so far. -/
  offset : Nat
  line : Nat
  /-- What is still to be scanned; nothing once the end of the input has been answered. -/
  left : Option (List Char)

namespace Cursor

def start (source : String) : Cursor := { offset := 0, line := 1, left := some source.toList }

/-- One call. -/
def next (c : Cursor) : Option Span × Cursor :=
  match c.left with
  | none => (none, c)
  | some cs =>
    let (piece, left) := firstPiece c.line cs
    let start := c.offset + byteSize piece.gap
    let stop := start + byteSize piece.text
    (some ⟨start, stop, piece.item⟩, ⟨stop, piece.line, left⟩)

/-- The answer to the call that `n` calls come before. -/
def answer : Cursor → Nat → Option Span
  | c, 0 => c.next.1
  | c, n + 1 => c.next.2.answer n

end Cursor
end Scan
end Lox
