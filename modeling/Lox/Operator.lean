import Lox.World

/-!
# Lox.Operator

What the operators do with values.
-/

namespace Lox

namespace Operator

variable {ε : Type}

/-- Anything may be compared with nil. Other values must be of one kind, and a kind whose values have
no identity of their own. -/
def equal (left right : Value ε) (operator : Token) : Except RuntimeProblem Bool :=
  match left, right with
  | .nil, .nil => .ok true
  | .nil, _ => .ok false
  | _, .nil => .ok false
  | .number a, .number b => .ok (a == b)
  | .string a, .string b => .ok (a == b)
  | .bool a, .bool b => .ok (a == b)
  | l, r => .error (.incomparable l.typeName r.typeName operator.lexeme)

/-- Adds numbers or joins strings. -/
def add : Value ε → Value ε → Except RuntimeProblem (Value ε)
  | .number a, .number b => .ok (.number (a + b))
  | .string a, .string b => .ok (.string (a ++ b))
  | .number _, r => .error (.addendNotNumber r.typeName)
  | .string _, r => .error (.addendNotString r.typeName)
  | l, _ => .error (.addendInvalid l.typeName)

def onNumbers (f : Float → Float → Value ε) :
    Value ε → Value ε → Except RuntimeProblem (Value ε)
  | .number a, .number b => .ok (f a b)
  | _, _ => .error .operandsNotNumbers

def unary (operator : Token) (operand : Value ε) : Except RuntimeProblem (Value ε) :=
  match operator.kind with
  | .minus =>
    match operand with
    | .number x => .ok (.number (-x))
    | _ => .error .operandNotNumber
  | .bang => .ok (.bool !operand.isTruthy)
  | _ => .error (.unknownUnary operator.lexeme)

def binary (left : Value ε) (operator : Token) (right : Value ε) :
    Except RuntimeProblem (Value ε) :=
  match operator.kind with
  | .equalEqual => (equal left right operator).map .bool
  | .bangEqual => (equal left right operator).map fun b => .bool !b
  | .plus => add left right
  | .minus => onNumbers (fun a b => .number (a - b)) left right
  | .star => onNumbers (fun a b => .number (a * b)) left right
  | .slash => onNumbers (fun a b => .number (a / b)) left right
  | .greater => onNumbers (fun a b => .bool (decide (a > b))) left right
  | .greaterEqual => onNumbers (fun a b => .bool (decide (a ≥ b))) left right
  | .less => onNumbers (fun a b => .bool (decide (a < b))) left right
  | .lessEqual => onNumbers (fun a b => .bool (decide (a ≤ b))) left right
  | _ => .error (.unknownBinary operator.lexeme left.typeName right.typeName)

/-- Whether the left operand of `or`, or else of `and`, settles the result. -/
def isDecided (operator : Token) (left : Value ε) : Bool :=
  if operator.kind = .kwOr then left.isTruthy else !left.isTruthy

end Operator

end Lox
