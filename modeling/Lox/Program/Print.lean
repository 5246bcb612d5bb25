import Lox.NumberText
import Lox.Program

/-!
# Lox.Program.Print

Trees in parenthesised prefix form.
-/

namespace Lox

def Constant.text : Constant → String
  | .number x => NumberText.literal x
  | .string s => s
  | .bool b => if b then "true" else "false"
  | .nil => "nil"

mutual

def Expr.text : Expr → String
  | .constant c => c.text
  | .grouping e => "(group " ++ e.text ++ ")"
  | .unary op e => "(" ++ op.lexeme ++ " " ++ e.text ++ ")"
  | .binary l op r | .logical l op r => "(" ++ op.lexeme ++ " " ++ l.text ++ " " ++ r.text ++ ")"
  | .var _ name => name.lexeme
  | .assign _ name value => "(= " ++ name.lexeme ++ " " ++ value.text ++ ")"
  | .call callee _ args => "(call " ++ callee.text ++ Expr.spacedTexts args ++ ")"
  | .get object name => "(. " ++ object.text ++ " " ++ name.lexeme ++ ")"
  | .set object name value =>
    "(= (. " ++ object.text ++ " " ++ name.lexeme ++ ") " ++ value.text ++ ")"
  | .thisRef _ _ => "this"
  | .superRef _ _ method => "(super " ++ method.lexeme ++ ")"
  | .unparsed => "<error>"

/-- The texts of some expressions, a space before each. -/
def Expr.spacedTexts : List Expr → String
  | [] => ""
  | e :: es => " " ++ e.text ++ Expr.spacedTexts es

end

mutual

def Stmt.text : Stmt → String
  | .expression e => "(; " ++ e.text ++ ")"
  | .var name none => "(var " ++ name.lexeme ++ ")"
  | .var name (some init) => "(var " ++ name.lexeme ++ " " ++ init.text ++ ")"
  | .block body => "(block" ++ Stmt.spacedTexts body ++ ")"
  | .ifThen c yes => "(if " ++ c.text ++ " " ++ yes.text ++ ")"
  | .ifElse c yes no => "(if " ++ c.text ++ " " ++ yes.text ++ " " ++ no.text ++ ")"
  | .loop c body => "(while " ++ c.text ++ " " ++ body.text ++ ")"
  | .function decl => decl.text "fun"
  | .ret _ none => "(return)"
  | .ret _ (some value) => "(return " ++ value.text ++ ")"
  | .cls name none methods =>
    "(class " ++ name.lexeme ++ FunctionDecl.spacedTexts methods ++ ")"
  | .cls name (some superclass) methods =>
    "(class " ++ name.lexeme ++ " < " ++ superclass.text ++ FunctionDecl.spacedTexts methods ++ ")"

def Stmt.spacedTexts : List Stmt → String
  | [] => ""
  | s :: ss => " " ++ s.text ++ Stmt.spacedTexts ss

/-- A function or method; the word in front tells which. -/
def FunctionDecl.text (word : String) : FunctionDecl → String
  | ⟨name, params, body⟩ =>
    "(" ++ word ++ " " ++ name.lexeme ++ "(" ++ " ".intercalate (params.map Token.lexeme) ++ ")" ++
      Stmt.spacedTexts body ++ ")"

def FunctionDecl.spacedTexts : List FunctionDecl → String
  | [] => ""
  | d :: ds => " " ++ d.text "method" ++ FunctionDecl.spacedTexts ds

end

end Lox
