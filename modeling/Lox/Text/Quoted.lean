import Lox.Text.Printable

/-!
# Lox.Text.Quoted

A string between double quotes, for inspection: quotes, backslashes and line breaks are escaped, and
what cannot be printed is shown by its code point.
-/

namespace Lox
namespace Text

def quoteChar (c : Char) : List Char :=
  if c = '"' then ['\\', '"']
  else if c = '\\' then ['\\', '\\']
  else if c = '\n' then ['\\', 'n']
  else if c = '\r' then ['\\', 'r']
  else if c = '\t' then ['\\', 't']
  else if c.toNat = 0 then ['\\', '0']
  else if isPrintable c then [c]
  else '\\' :: 'u' :: '\x7b' :: (Nat.toDigits 16 c.toNat ++ ['\x7d'])

def quoted (s : String) : String :=
  String.ofList ('"' :: s.toList.flatMap quoteChar ++ ['"'])

/-- A file name between double quotes; here apostrophes are escaped too. -/
def quotedName (s : String) : String :=
  let quote (c : Char) : List Char := if c = '\'' then ['\\', c] else quoteChar c
  String.ofList ('"' :: s.toList.flatMap quote ++ ['"'])

end Text
end Lox
