import Lox.Program.Parse
import Mathlib

/-!
# Lox.Proofs.Parse.Phrase

The grammar with the trees it stands for. `Phrase shape used` says that the tokens `used`, written
where the grammar has the place `shape`, stand for the tree in `shape`. There is one shape for each
production. Left-associative operators, calls and property accesses are collected from the left, as
in the tree: `chain level left e` is what may follow `left` so that all of it is `e`.

An `else` belongs to the nearest `if`: a statement that could take one more `else` at its end is
marked `open`, and no such statement is the first branch of an `if` with an `else`.
-/

namespace Lox

/-- A place in the grammar with the tree that stands there. -/
inductive Shape where
  | expression (e : Expr)
  | level (level : Level) (e : Expr)
  | operand (level : Level) (e : Expr)
  | chain (level : Level) (left e : Expr)
  | unary (e : Expr)
  | call (e : Expr)
  | suffixes (callee e : Expr)
  | arguments (args : List Expr)
  | argumentList (index : Nat) (args : List Expr)
  | primary (e : Expr)
  | optional (e : Option Expr)
  | superclass (e : Option Expr)
  | parameters (params : List Token)
  | parameterList (index : Nat) (params : List Token)
  | function (decl : FunctionDecl)
  | methods (decls : List FunctionDecl)
  | varRest (s : Stmt)
  | expressionStatement (s : Stmt)
  | initializer (s : Option Stmt)
  | statement (isOpen : Bool) (s : Stmt)
  | declaration (s : Stmt)
  | declarations (ss : List Stmt)

/-- The kinds of the tokens that are constants by themselves. -/
def Constant.kinds : List TokenKind := [.kwFalse, .kwTrue, .kwNil, .number, .string]

/-- The constant that a token of one of these kinds stands for. -/
def Constant.ofConstantToken (t : Token) : Constant :=
  match t.kind with
  | .kwFalse => .bool false
  | .kwTrue => .bool true
  | .kwNil => .nil
  | _ => .ofToken t

inductive Phrase : Shape → List Stamped → Prop where
  | plain {e : Expr} {u : List Stamped} : Phrase (.level .or e) u → Phrase (.expression e) u
  | assign {name equal : Stamped} {value : Expr} {u : List Stamped} :
      name.token.kind = .identifier → equal.token.kind = .equal → Phrase (.expression value) u →
      Phrase (.expression (.assign name.id name.token value)) (name :: equal :: u)
  | set {object value : Expr} {dot name equal : Stamped} {u v : List Stamped} :
      Phrase (.call object) u → dot.token.kind = .dot → name.token.kind = .identifier →
      equal.token.kind = .equal → Phrase (.expression value) v →
      Phrase (.expression (.set object name.token value)) (u ++ dot :: name :: equal :: v)
  | level {level : Level} {first e : Expr} {u v : List Stamped} :
      Phrase (.operand level first) u → Phrase (.chain level first e) v →
      Phrase (.level level e) (u ++ v)
  | operandLevel {level tighter : Level} {e : Expr} {u : List Stamped} :
      level.tighter = some tighter → Phrase (.level tighter e) u → Phrase (.operand level e) u
  | operandUnary {level : Level} {e : Expr} {u : List Stamped} :
      level.tighter = none → Phrase (.unary e) u → Phrase (.operand level e) u
  | chainStop {level : Level} {e : Expr} : Phrase (.chain level e e) []
  | chainStep {level : Level} {operator : Stamped} {left right e : Expr} {u v : List Stamped} :
      operator.token.kind ∈ level.operators → Phrase (.operand level right) u →
      Phrase (.chain level (level.combine left operator.token right) e) v →
      Phrase (.chain level left e) (operator :: (u ++ v))
  | unary {operator : Stamped} {e : Expr} {u : List Stamped} :
      operator.token.kind ∈ [TokenKind.bang, TokenKind.minus] → Phrase (.unary e) u →
      Phrase (.unary (.unary operator.token e)) (operator :: u)
  | unaryCall {e : Expr} {u : List Stamped} : Phrase (.call e) u → Phrase (.unary e) u
  | call {first e : Expr} {u v : List Stamped} :
      Phrase (.primary first) u → Phrase (.suffixes first e) v → Phrase (.call e) (u ++ v)
  | suffixesStop {e : Expr} : Phrase (.suffixes e e) []
  | suffixesCall {callee e : Expr} {opening paren : Stamped} {args : List Expr}
      {u v : List Stamped} :
      opening.token.kind = .leftParen → Phrase (.arguments args) u →
      paren.token.kind = .rightParen → Phrase (.suffixes (.call callee paren.token args) e) v →
      Phrase (.suffixes callee e) (opening :: (u ++ paren :: v))
  | suffixesGet {object e : Expr} {dot name : Stamped} {u : List Stamped} :
      dot.token.kind = .dot → name.token.kind = .identifier →
      Phrase (.suffixes (.get object name.token) e) u →
      Phrase (.suffixes object e) (dot :: name :: u)
  | argumentsNone : Phrase (.arguments []) []
  | argumentsSome {args : List Expr} {u : List Stamped} :
      Phrase (.argumentList 0 args) u → Phrase (.arguments args) u
  | argumentLast {index : Nat} {e : Expr} {u : List Stamped} :
      index < maxArity → Phrase (.expression e) u → Phrase (.argumentList index [e]) u
  | argumentMore {index : Nat} {e : Expr} {es : List Expr} {comma : Stamped} {u v : List Stamped} :
      index < maxArity → Phrase (.expression e) u → comma.token.kind = .comma →
      Phrase (.argumentList (index + 1) es) v →
      Phrase (.argumentList index (e :: es)) (u ++ comma :: v)
  | constant {t : Stamped} :
      t.token.kind ∈ Constant.kinds →
      Phrase (.primary (.constant (.ofConstantToken t.token))) [t]
  | superRef {keyword dot method : Stamped} :
      keyword.token.kind = .kwSuper → dot.token.kind = .dot → method.token.kind = .identifier →
      Phrase (.primary (.superRef keyword.id keyword.token method.token)) [keyword, dot, method]
  | thisRef {keyword : Stamped} :
      keyword.token.kind = .kwThis →
      Phrase (.primary (.thisRef keyword.id keyword.token)) [keyword]
  | var {name : Stamped} :
      name.token.kind = .identifier → Phrase (.primary (.var name.id name.token)) [name]
  | grouping {opening closing : Stamped} {e : Expr} {u : List Stamped} :
      opening.token.kind = .leftParen → Phrase (.expression e) u →
      closing.token.kind = .rightParen →
      Phrase (.primary (.grouping e)) (opening :: (u ++ [closing]))
  | optionalNone : Phrase (.optional none) []
  | optionalSome {e : Expr} {u : List Stamped} :
      Phrase (.expression e) u → Phrase (.optional (some e)) u
  | superclassNone : Phrase (.superclass none) []
  | superclassSome {less name : Stamped} :
      less.token.kind = .less → name.token.kind = .identifier →
      Phrase (.superclass (some (.var name.id name.token))) [less, name]
  | parametersNone : Phrase (.parameters []) []
  | parametersSome {params : List Token} {u : List Stamped} :
      Phrase (.parameterList 0 params) u → Phrase (.parameters params) u
  | parameterLast {index : Nat} {param : Stamped} :
      index < maxArity → param.token.kind = .identifier →
      Phrase (.parameterList index [param.token]) [param]
  | parameterMore {index : Nat} {param comma : Stamped} {params : List Token} {u : List Stamped} :
      index < maxArity → param.token.kind = .identifier → comma.token.kind = .comma →
      Phrase (.parameterList (index + 1) params) u →
      Phrase (.parameterList index (param.token :: params)) (param :: comma :: u)
  | function {name opening closing left right : Stamped} {params : List Token} {body : List Stmt}
      {u v : List Stamped} :
      name.token.kind = .identifier → opening.token.kind = .leftParen →
      Phrase (.parameters params) u → closing.token.kind = .rightParen →
      left.token.kind = .leftBrace → Phrase (.declarations body) v →
      right.token.kind = .rightBrace →
      Phrase (.function ⟨name.token, params, body⟩)
        (name :: opening :: (u ++ closing :: left :: (v ++ [right])))
  | methodsNone : Phrase (.methods []) []
  | methodsMore {decl : FunctionDecl} {decls : List FunctionDecl} {u v : List Stamped} :
      Phrase (.function decl) u → Phrase (.methods decls) v →
      Phrase (.methods (decl :: decls)) (u ++ v)
  | varPlain {name semicolon : Stamped} :
      name.token.kind = .identifier → semicolon.token.kind = .semicolon →
      Phrase (.varRest (.var name.token none)) [name, semicolon]
  | varInit {name equal semicolon : Stamped} {e : Expr} {u : List Stamped} :
      name.token.kind = .identifier → equal.token.kind = .equal → Phrase (.expression e) u →
      semicolon.token.kind = .semicolon →
      Phrase (.varRest (.var name.token (some e))) (name :: equal :: (u ++ [semicolon]))
  | expressionStatement {e : Expr} {semicolon : Stamped} {u : List Stamped} :
      Phrase (.expression e) u → semicolon.token.kind = .semicolon →
      Phrase (.expressionStatement (.expression e)) (u ++ [semicolon])
  | initializerNone {semicolon : Stamped} :
      semicolon.token.kind = .semicolon → Phrase (.initializer none) [semicolon]
  | initializerVar {keyword : Stamped} {s : Stmt} {u : List Stamped} :
      keyword.token.kind = .kwVar → Phrase (.varRest s) u →
      Phrase (.initializer (some s)) (keyword :: u)
  | initializerExpression {s : Stmt} {u : List Stamped} :
      Phrase (.expressionStatement s) u → Phrase (.initializer (some s)) u
  | expressionForm {s : Stmt} {u : List Stamped} :
      Phrase (.expressionStatement s) u → Phrase (.statement false s) u
  | forLoop {keyword opening semicolon closing : Stamped} {init : Option Stmt}
      {condition increment : Option Expr} {isOpen : Bool} {body : Stmt} {u v w x : List Stamped} :
      keyword.token.kind = .kwFor → opening.token.kind = .leftParen →
      Phrase (.initializer init) u → Phrase (.optional condition) v →
      semicolon.token.kind = .semicolon → Phrase (.optional increment) w →
      closing.token.kind = .rightParen → Phrase (.statement isOpen body) x →
      Phrase (.statement isOpen (.ofFor init condition increment body))
        (keyword :: opening :: (u ++ (v ++ semicolon :: (w ++ closing :: x))))
  | ifThen {keyword opening closing : Stamped} {condition : Expr} {isOpen : Bool} {yes : Stmt}
      {u v : List Stamped} :
      keyword.token.kind = .kwIf → opening.token.kind = .leftParen →
      Phrase (.expression condition) u → closing.token.kind = .rightParen →
      Phrase (.statement isOpen yes) v →
      Phrase (.statement true (.ifThen condition yes)) (keyword :: opening :: (u ++ closing :: v))
  | ifElse {keyword opening closing other : Stamped} {condition : Expr} {isOpen : Bool}
      {yes no : Stmt} {u v w : List Stamped} :
      keyword.token.kind = .kwIf → opening.token.kind = .leftParen →
      Phrase (.expression condition) u → closing.token.kind = .rightParen →
      Phrase (.statement false yes) v → other.token.kind = .kwElse →
      Phrase (.statement isOpen no) w →
      Phrase (.statement isOpen (.ifElse condition yes no))
        (keyword :: opening :: (u ++ closing :: (v ++ other :: w)))
  | whileLoop {keyword opening closing : Stamped} {condition : Expr} {isOpen : Bool} {body : Stmt}
      {u v : List Stamped} :
      keyword.token.kind = .kwWhile → opening.token.kind = .leftParen →
      Phrase (.expression condition) u → closing.token.kind = .rightParen →
      Phrase (.statement isOpen body) v →
      Phrase (.statement isOpen (.loop condition body)) (keyword :: opening :: (u ++ closing :: v))
  | ret {keyword semicolon : Stamped} {value : Option Expr} {u : List Stamped} :
      keyword.token.kind = .kwReturn → Phrase (.optional value) u →
      semicolon.token.kind = .semicolon →
      Phrase (.statement false (.ret keyword.token value)) (keyword :: (u ++ [semicolon]))
  | block {left right : Stamped} {body : List Stmt} {u : List Stamped} :
      left.token.kind = .leftBrace → Phrase (.declarations body) u →
      right.token.kind = .rightBrace →
      Phrase (.statement false (.block body)) (left :: (u ++ [right]))
  | classDeclaration {keyword name left right : Stamped} {superclass : Option Expr}
      {methods : List FunctionDecl} {u v : List Stamped} :
      keyword.token.kind = .kwClass → name.token.kind = .identifier →
      Phrase (.superclass superclass) u → left.token.kind = .leftBrace →
      Phrase (.methods methods) v → right.token.kind = .rightBrace →
      Phrase (.declaration (.cls name.token superclass methods))
        (keyword :: name :: (u ++ left :: (v ++ [right])))
  | functionDeclaration {keyword : Stamped} {decl : FunctionDecl} {u : List Stamped} :
      keyword.token.kind = .kwFun → Phrase (.function decl) u →
      Phrase (.declaration (.function decl)) (keyword :: u)
  | varDeclaration {keyword : Stamped} {s : Stmt} {u : List Stamped} :
      keyword.token.kind = .kwVar → Phrase (.varRest s) u →
      Phrase (.declaration s) (keyword :: u)
  | statement {isOpen : Bool} {s : Stmt} {u : List Stamped} :
      Phrase (.statement isOpen s) u → Phrase (.declaration s) u
  | declarationsNone : Phrase (.declarations []) []
  | declarationsMore {s : Stmt} {ss : List Stmt} {u v : List Stamped} :
      Phrase (.declaration s) u → Phrase (.declarations ss) v →
      Phrase (.declarations (s :: ss)) (u ++ v)

end Lox
