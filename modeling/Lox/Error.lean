import Lox.Token

/-!
# Lox.Error

Everything that can go wrong, as causes; wording and place are added by `Error.text`. Each kind of
problem has a `custom` case for one that a caller words itself.
-/

namespace Lox

inductive LexProblem where
  | unexpectedCharacter (c : Char)
  | unterminatedString
  | custom (text : String)
  deriving DecidableEq, Repr, Inhabited

def LexProblem.message : LexProblem → String
  | unexpectedCharacter c => "Unexpected character: " ++ String.singleton c
  | unterminatedString => "Unterminated string."
  | custom text => text

/-- Functions and methods follow one grammar; only the messages tell them apart. -/
inductive FunctionKind where
  | function
  | method
  deriving DecidableEq, Repr, Inhabited

def FunctionKind.name : FunctionKind → String
  | function => "function"
  | method => "method"

/-- What the grammar demands where something else stands. -/
inductive Expected where
  | className
  | superclassName
  | classBody
  | classEnd
  | functionName (kind : FunctionKind)
  | parameterList (kind : FunctionKind)
  | parameterName
  | parametersEnd
  | functionBody (kind : FunctionKind)
  | variableName
  | varEnd
  | forClauses
  | loopConditionEnd
  | forClausesEnd
  | expressionEnd
  | ifCondition
  | ifConditionEnd
  | whileCondition
  | whileConditionEnd
  | returnEnd
  | blockEnd
  | propertyName
  | argumentsEnd
  | superDot
  | superMethodName
  | groupingEnd
  | expression
  deriving DecidableEq, Repr, Inhabited

def Expected.message : Expected → String
  | className => "Expect class name."
  | superclassName => "Expect superclass name."
  | classBody => "Expect '\x7b' before class body."
  | classEnd => "Expect '\x7d' after class body."
  | functionName kind => "Expect " ++ kind.name ++ " name."
  | parameterList kind => "Expect '(' after " ++ kind.name ++ " name."
  | parameterName => "Expect parameter name."
  | parametersEnd => "Expect ')' after parameters."
  | functionBody kind => "Expect '\x7b' before " ++ kind.name ++ " body."
  | variableName => "Expect variable name."
  | varEnd => "Expect ';' after variable declaration."
  | forClauses => "Expect '(' after 'for'."
  | loopConditionEnd => "Expect ';' after loop condition."
  | forClausesEnd => "Expect ')' after for clauses."
  | expressionEnd => "Expect ';' after expression."
  | ifCondition => "Expect '(' after 'if'."
  | ifConditionEnd => "Expect ')' after if condition."
  | whileCondition => "Expect '(' after 'while'."
  | whileConditionEnd => "Expect ')' after condition."
  | returnEnd => "Expect ';' after return value."
  | blockEnd => "Expect '\x7d' after block."
  | propertyName => "Expect property name after '.'."
  | argumentsEnd => "Expect ')' after arguments."
  | superDot => "Expect '.' after 'super'."
  | superMethodName => "Expect superclass method name."
  | groupingEnd => "Expect ')' after expression."
  | expression => "Expect expression."

inductive ParseProblem where
  | expected (what : Expected)
  | tooManyParameters
  | tooManyArguments
  | invalidAssignmentTarget
  | custom (text : String)
  deriving DecidableEq, Repr, Inhabited

def ParseProblem.message : ParseProblem → String
  | expected what => what.message
  | tooManyParameters => "Can't have more than 255 parameters."
  | tooManyArguments => "Can't have more than 255 arguments."
  | invalidAssignmentTarget => "Invalid assignment target."
  | custom text => text

inductive ResolveProblem where
  | returnAtTopLevel
  | valueFromInitializer
  | selfInheritance
  | thisOutsideClass
  | superOutsideClass
  | superWithoutSuperclass
  | alreadyDeclared
  | readInOwnInitializer
  | custom (text : String)
  deriving DecidableEq, Repr, Inhabited

def ResolveProblem.message : ResolveProblem → String
  | returnAtTopLevel => "Can't return from top-level code."
  | valueFromInitializer => "Can't return a value from an initializer."
  | selfInheritance => "A class can't inherit from itself."
  | thisOutsideClass => "Can't use 'this' outside of a class."
  | superOutsideClass => "Can't use 'super' outside of a class."
  | superWithoutSuperclass => "Can't use 'super' in a class with no superclass."
  | alreadyDeclared => "Already a variable with this name in this scope."
  | readInOwnInitializer => "Can't read local variable in its own initializer."
  | custom text => text

/-- The kinds of value that messages tell apart. -/
inductive TypeName where
  | nil
  | boolean
  | number
  | string
  | function
  | cls
  | object
  deriving DecidableEq, Repr, Inhabited

def TypeName.text : TypeName → String
  | nil => "nil"
  | boolean => "boolean"
  | number => "number"
  | string => "string"
  | function => "function"
  | cls => "class"
  | object => "instance"

inductive RuntimeProblem where
  /-- No frame outward from the one searched binds the name. -/
  | undefinedVariable (name : String)
  /-- The one frame that should bind the name does not. -/
  | unboundLocal (name : String)
  | undefinedProperty (name : String)
  | operandNotNumber
  | operandsNotNumbers
  | addendNotNumber (right : TypeName)
  | addendNotString (right : TypeName)
  | addendInvalid (left : TypeName)
  | incomparable (left right : TypeName) (operator : String)
  | unknownUnary (operator : String)
  | unknownBinary (operator : String) (left right : TypeName)
  | notCallable
  | wrongArity (expected given : Nat)
  | noProperties
  | noFields
  | superclassNotClass
  | superOutsideClass
  | invalidSuper
  | unparsedExpression
  | custom (text : String)
  deriving DecidableEq, Repr, Inhabited

def RuntimeProblem.message : RuntimeProblem → String
  | undefinedVariable name | unboundLocal name => "Undefined variable '" ++ name ++ "'."
  | undefinedProperty name => "Undefined property '" ++ name ++ "'."
  | operandNotNumber => "Operand must be a number."
  | operandsNotNumbers => "Operands must be numbers."
  | addendNotNumber right => "Right operand of '+' must be a number, got " ++ right.text ++ "."
  | addendNotString right => "Right operand of '+' must be a string, got " ++ right.text ++ "."
  | addendInvalid left =>
    "Left operand of '+' must be a number or a string, got " ++ left.text ++ "."
  | incomparable left right operator =>
    "Cannot compare " ++ left.text ++ " with " ++ right.text ++ " using '" ++ operator ++ "'."
  | unknownUnary operator => "Unknown unary operator '" ++ operator ++ "'."
  | unknownBinary operator left right =>
    "Unknown binary operator '" ++ operator ++ "' for " ++ left.text ++ " and " ++ right.text ++ "."
  | notCallable => "Can only call functions and classes."
  | wrongArity expected given =>
    "Expected " ++ toString expected ++ " arguments but got " ++ toString given ++ "."
  | noProperties => "Only instances have properties."
  | noFields => "Only instances have fields."
  | superclassNotClass => "Superclass must be a class."
  | superOutsideClass => "Can't use 'super' outside of a class."
  | invalidSuper => "Invalid 'super' binding."
  | unparsedExpression => "Cannot evaluate an expression that failed to parse."
  | custom text => text

/-- Failures of the sink that printed text goes to. -/
inductive SinkProblem where
  | full
  | flushFailed
  | custom (text : String)
  deriving DecidableEq, Repr, Inhabited

def SinkProblem.message : SinkProblem → String
  | full => "sink full"
  | flushFailed => "flush failed"
  | custom text => text

inductive Error where
  | lex (line : Nat) (problem : LexProblem)
  | parse (token : Token) (problem : ParseProblem)
  | resolve (token : Token) (problem : ResolveProblem)
  | runtime (problem : RuntimeProblem)
  | sink (problem : SinkProblem)
  deriving Inhabited

namespace Error

/-- How a message names the token it blames. -/
def blame (token : Token) : String :=
  if token.kind = .eof then " at end" else " at '" ++ token.lexeme ++ "'"

def located (line : Nat) (place message : String) : String :=
  "[line " ++ toString line ++ "] Error" ++ place ++ ": " ++ message

/-- The error as the user reads it. Runtime errors carry no line. -/
def text : Error → String
  | lex line problem => located line "" problem.message
  | parse token problem => located token.line (blame token) problem.message
  | resolve token problem => located token.line (blame token) problem.message
  | runtime problem => "Error: " ++ problem.message
  | sink problem => problem.message

/-- Static errors are found before anything runs. -/
def isStatic : Error → Bool
  | lex _ _ | parse _ _ | resolve _ _ => true
  | runtime _ | sink _ => false

/-- A failing sink is neither a static nor a runtime error. -/
def isRuntime : Error → Bool
  | runtime _ => true
  | _ => false

end Error
end Lox
