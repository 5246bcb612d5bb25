import Lox.NumberText
import Lox.Text.Json
import Lox.Token

/-!
# Lox.Token.Text

Token listings: one line of text, or one JSON object, per token.
-/

namespace Lox

/-- A literal as listings show it; strings stand without their quotes. -/
def Literal.text : Literal → String
  | .number x => NumberText.literal x
  | .string s => s

namespace Token

/-- Kind, lexeme and literal, the last `null` for a token without one. -/
def text (t : Token) : String :=
  t.kind.name ++ " " ++ t.lexeme ++ " " ++ (t.literal.map Literal.text).getD "null"

/-- The name and the value of a literal's only field in JSON. -/
def literalField : Literal → String × String
  | .number x => ("Number", NumberText.json x)
  | .string s => ("String", Json.string s)

/-- The token as JSON on one line. -/
def json (t : Token) : String :=
  let literal :=
    match t.literal.map literalField with
    | none => "null"
    | some (name, value) => "\x7b" ++ Json.string name ++ ":" ++ value ++ "\x7d"
  "\x7b\"token_type\":" ++ Json.string t.kind.name ++ ",\"lexeme\":" ++ Json.string t.lexeme ++
    ",\"literal\":" ++ literal ++ ",\"line\":" ++ toString t.line ++ "\x7d"

/-- The token as JSON over several lines, one level inside a list. -/
def prettyJson (t : Token) : String :=
  let literal :=
    match t.literal.map literalField with
    | none => "null"
    | some (name, value) => "\x7b\n      " ++ Json.string name ++ ": " ++ value ++ "\n    \x7d"
  "  \x7b\n    \"token_type\": " ++ Json.string t.kind.name ++
    ",\n    \"lexeme\": " ++ Json.string t.lexeme ++
    ",\n    \"literal\": " ++ literal ++
    ",\n    \"line\": " ++ toString t.line ++ "\n  \x7d"

/-- A token list as a JSON array, a token under the other. -/
def listJson (ts : List Token) : String :=
  if ts.isEmpty then "[]"
  else "[\n" ++ ",\n".intercalate (ts.map prettyJson) ++ "\n]"

end Token
end Lox
