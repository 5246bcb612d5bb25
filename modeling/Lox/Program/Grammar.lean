import Lox.Token

/-!
# Lox.Program.Grammar

The grammar of Lox in extended Backus-Naur form, and its derivation trees.

A form is derived to a list of trees, one for each token and each rule that stands in it. The lists
of parameters and of arguments are rules of their own, so their entries can be counted in a tree.
-/

namespace Lox
namespace Grammar

inductive Rule where
  | program
  | declaration | classDecl | funDecl | function | varDecl
  | statement | exprStmt | forStmt | ifStmt | returnStmt | whileStmt | block
  | parameters
  | expression | assignment | logicOr | logicAnd | equality | comparison | term | factor
  | unary | call | arguments | primary
  deriving DecidableEq, Repr

/-- The right side of a rule. -/
inductive Form where
  | token (kind : TokenKind)
  | rule (r : Rule)
  | seq (first second : Form)
  | alt (first second : Form)
  | opt (body : Form)
  | many (body : Form)

instance : Append Form := ⟨.seq⟩
instance : OrOp Form := ⟨.alt⟩

open Form in
/-- The rules as they are written down. -/
def Rule.form : Rule → Form
  | .program => many (rule .declaration) ++ token .eof
  | .declaration => rule .classDecl ||| rule .funDecl ||| rule .varDecl ||| rule .statement
  | .classDecl =>
    token .kwClass ++ token .identifier ++ opt (token .less ++ token .identifier) ++
      token .leftBrace ++ many (rule .function) ++ token .rightBrace
  | .funDecl => token .kwFun ++ rule .function
  | .function =>
    token .identifier ++ token .leftParen ++ opt (rule .parameters) ++ token .rightParen ++
      rule .block
  | .varDecl =>
    token .kwVar ++ token .identifier ++ opt (token .equal ++ rule .expression) ++ token .semicolon
  | .statement =>
    rule .exprStmt ||| rule .forStmt ||| rule .ifStmt ||| rule .returnStmt ||| rule .whileStmt |||
      rule .block
  | .exprStmt => rule .expression ++ token .semicolon
  | .forStmt =>
    token .kwFor ++ token .leftParen ++ (rule .varDecl ||| rule .exprStmt ||| token .semicolon) ++
      opt (rule .expression) ++ token .semicolon ++ opt (rule .expression) ++ token .rightParen ++
      rule .statement
  | .ifStmt =>
    token .kwIf ++ token .leftParen ++ rule .expression ++ token .rightParen ++ rule .statement ++
      opt (token .kwElse ++ rule .statement)
  | .returnStmt => token .kwReturn ++ opt (rule .expression) ++ token .semicolon
  | .whileStmt =>
    token .kwWhile ++ token .leftParen ++ rule .expression ++ token .rightParen ++ rule .statement
  | .block => token .leftBrace ++ many (rule .declaration) ++ token .rightBrace
  | .parameters => token .identifier ++ many (token .comma ++ token .identifier)
  | .expression => rule .assignment
  | .assignment =>
    opt (rule .call ++ token .dot) ++ token .identifier ++ token .equal ++ rule .assignment |||
      rule .logicOr
  | .logicOr => rule .logicAnd ++ many (token .kwOr ++ rule .logicAnd)
  | .logicAnd => rule .equality ++ many (token .kwAnd ++ rule .equality)
  | .equality =>
    rule .comparison ++ many ((token .bangEqual ||| token .equalEqual) ++ rule .comparison)
  | .comparison =>
    rule .term ++ many ((token .greater ||| token .greaterEqual ||| token .less |||
      token .lessEqual) ++ rule .term)
  | .term => rule .factor ++ many ((token .minus ||| token .plus) ++ rule .factor)
  | .factor => rule .unary ++ many ((token .slash ||| token .star) ++ rule .unary)
  | .unary => (token .bang ||| token .minus) ++ rule .unary ||| rule .call
  | .call =>
    rule .primary ++ many (token .leftParen ++ opt (rule .arguments) ++ token .rightParen |||
      token .dot ++ token .identifier)
  | .arguments => rule .expression ++ many (token .comma ++ rule .expression)
  | .primary =>
    token .number ||| token .string ||| token .kwTrue ||| token .kwFalse ||| token .kwNil |||
      token .kwThis ||| token .identifier ||| token .leftParen ++ rule .expression ++
      token .rightParen ||| token .kwSuper ++ token .dot ++ token .identifier

/-! ## Derivations -/

inductive Tree where
  | leaf (kind : TokenKind)
  | node (rule : Rule) (children : List Tree)

/-- The form is derived to these trees. -/
inductive Derives : Form → List Tree → Prop where
  | token {kind : TokenKind} : Derives (.token kind) [.leaf kind]
  | rule {r : Rule} {ts : List Tree} : Derives r.form ts → Derives (.rule r) [.node r ts]
  | seq {a b : Form} {ts us : List Tree} :
      Derives a ts → Derives b us → Derives (.seq a b) (ts ++ us)
  | first {a b : Form} {ts : List Tree} : Derives a ts → Derives (.alt a b) ts
  | second {a b : Form} {ts : List Tree} : Derives b ts → Derives (.alt a b) ts
  | without {a : Form} : Derives (.opt a) []
  | present {a : Form} {ts : List Tree} : Derives a ts → Derives (.opt a) ts
  | done {a : Form} : Derives (.many a) []
  | again {a : Form} {ts us : List Tree} :
      Derives a ts → Derives (.many a) us → Derives (.many a) (ts ++ us)

/-- The entries of a list: everything in it but the commas. -/
def entries : List Tree → Nat
  | [] => 0
  | .leaf .comma :: ts => entries ts
  | _ :: ts => entries ts + 1

namespace Tree

mutual

/-- The tokens of a tree from left to right. -/
def yield : Tree → List TokenKind
  | leaf kind => [kind]
  | node _ ts => yieldAll ts

def yieldAll : List Tree → List TokenKind
  | [] => []
  | t :: ts => t.yield ++ yieldAll ts

end

mutual

/-- No list of parameters or arguments in the tree has more than `n` entries. -/
def ListsWithin (n : Nat) : Tree → Prop
  | leaf _ => True
  | node r ts => (r = .parameters ∨ r = .arguments → entries ts ≤ n) ∧ AllListsWithin n ts

def AllListsWithin (n : Nat) : List Tree → Prop
  | [] => True
  | t :: ts => t.ListsWithin n ∧ AllListsWithin n ts

end

end Tree

end Grammar
end Lox
