import Lox.Bindings
import Lox.Error
import Lox.NumberText
import Lox.Program
import Lox.Text.Quoted

/-!
# Lox.Value

Runtime values. Functions and classes are immutable and held as they are; what changes, the variables
that functions close over and the fields of instances, lives in memory and is referred to by number.

A function closes over an environment, whose type is a parameter of values: a frame of the store,
unless another is given.
-/

namespace Lox

/-- A frame of variables in the store. -/
abbrev FrameId := Nat

/-- A table of fields in the store. -/
abbrev ObjectId := Nat

/-- The functions that every program starts with. -/
inductive Native where
  | clock
  | print
  | str
  deriving DecidableEq, Repr, Inhabited

namespace Native

def all : List Native := [clock, print, str]

def name : Native → String
  | clock => "clock"
  | print => "print"
  | str => "str"

def arity : Native → Nat
  | clock => 0
  | print | str => 1

end Native

/-- A declaration with the environment it closes over. A bound method closes over an environment of
its own, which holds the receiver. -/
structure Closure (ε : Type := FrameId) where
  decl : FunctionDecl
  env : ε
  isInitializer : Bool
  deriving Inhabited

variable {ε : Type}

namespace Closure

def name (f : Closure ε) : String := f.decl.name.lexeme

def arity (f : Closure ε) : Nat := f.decl.arity

end Closure

inductive Class (ε : Type := FrameId) where
  | base (name : String) (methods : Bindings (Closure ε))
  | derived (name : String) (superclass : Class ε) (methods : Bindings (Closure ε))
  deriving Inhabited

namespace Class

def name : Class ε → String
  | base n _ | derived n _ _ => n

/-- A method of the class itself or else of the nearest superclass that has one. -/
def findMethod? (method : String) : Class ε → Option (Closure ε)
  | base _ methods => methods.find? method
  | derived _ superclass methods =>
    match methods.find? method with
    | some f => some f
    | none => findMethod? method superclass

/-- A class takes the arguments of its initializer. -/
def arity (c : Class ε) : Nat :=
  match c.findMethod? initializerName with
  | some f => f.arity
  | none => 0

end Class

inductive Value (ε : Type := FrameId) where
  | nil
  | bool (b : Bool)
  | number (x : Float)
  | string (s : String)
  | native (n : Native)
  | function (f : Closure ε)
  | cls (c : Class ε)
  | object (c : Class ε) (fields : ObjectId)
  deriving Inhabited

/-- A value that can be called. -/
inductive Callable (ε : Type := FrameId) where
  | native (n : Native)
  | function (f : Closure ε)
  | cls (c : Class ε)

def Callable.arity : Callable ε → Nat
  | native n => n.arity
  | function f => f.arity
  | cls c => c.arity

namespace Value

/-- Only `nil` and `false` are false. -/
def isTruthy : Value ε → Bool
  | nil | bool false => false
  | _ => true

def typeName : Value ε → TypeName
  | nil => .nil
  | bool _ => .boolean
  | number _ => .number
  | string _ => .string
  | native _ | function _ => .function
  | cls _ => .cls
  | object _ _ => .object

def callable? : Value ε → Option (Callable ε)
  | native n => some (.native n)
  | function f => some (.function f)
  | cls c => some (.cls c)
  | _ => none

/-- The value as `print` and `str` show it. -/
def text : Value ε → String
  | nil => "nil"
  | bool b => if b then "true" else "false"
  | number x => NumberText.value x
  | string s => s
  | native n => "<native fn " ++ n.name ++ ">"
  | function f => "<fn " ++ f.name ++ ">"
  | cls c => c.name
  | object c _ => c.name ++ " instance"

/-- The value for inspection: strings are quoted. -/
def inspect : Value ε → String
  | string s => Text.quoted s
  | v => v.text

/-- For functions, classes and instances, a text that always tells them apart from one another. -/
def objectText? : Value ε → Option String
  | native n => some ("<native fn " ++ n.name ++ ">")
  | function f => some ("<fn " ++ f.name ++ ">")
  | cls c => some ("<class " ++ c.name ++ ">")
  | object c _ => some ("<" ++ c.name ++ " instance>")
  | _ => none

end Value

def Value.ofConstant : Constant → Value ε
  | .number x => .number x
  | .string s => .string s
  | .bool b => .bool b
  | .nil => .nil

/-- The natives under their names. -/
def Native.bindings : Bindings (Value ε) :=
  Native.all.foldl (fun bs n => bs.insert n.name (.native n)) .empty

end Lox
