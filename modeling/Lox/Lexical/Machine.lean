import Lox.World

/-!
# Lox.Lexical.Machine

The memory of the lexical evaluator. Each time a local declaration is executed it gets a cell of its
own; which cell a name stands for is kept apart from memory, in a map that never changes. There are
no frames and no distances.
-/

namespace Lox
namespace Lexical

/-- A variable in memory. -/
abbrev CellId := Nat

/-- The local variables at a point of the program. A name that is not among them is global. -/
abbrev Names := Bindings CellId

/-- Where a program runs: outside all blocks and functions, declarations are global. -/
structure Scope where
  names : Names
  isTop : Bool

def Scope.top : Scope := { names := .empty, isTop := true }

/-- The scope of a block or a function body with these variables around it. -/
def Scope.within (names : Names) : Scope := { names := names, isTop := false }

structure Machine extends World where
  /-- A cell is empty until its declaration is complete. -/
  cells : Array (Option (Value Names))
  globals : Bindings (Value Names)
  objects : Array (Bindings (Value Names))

def Machine.initial (sink : Sink) (clock : Nat → Float) : Machine :=
  { toWorld := .initial sink clock, cells := #[], globals := Native.bindings, objects := #[] }

/-- The value of a cell, if it has one. -/
def Machine.read? (x : Machine) (c : CellId) : Option (Value Names) :=
  match x.cells[c]? with
  | some v => v
  | none => none

def Machine.field? (x : Machine) (o : ObjectId) (name : String) : Option (Value Names) :=
  match x.objects[o]? with
  | some fields => fields.find? name
  | none => none

abbrev Eval := Computation Machine

/-! ## Variables -/

/-- What a declaration declares. -/
inductive Place where
  | global
  | cell (c : CellId)

/-- A new cell holding a value. -/
def newCell (v : Value Names) : Eval CellId := fun x =>
  .done x.cells.size { x with cells := x.cells.push (some v) }

/-- Starts a declaration: inside a block or function the name stands for a new cell from here on. -/
def declare (scope : Scope) (name : String) : Eval (Place × Scope) := fun x =>
  if scope.isTop then .done (.global, scope) x
  else
    .done (.cell x.cells.size, { scope with names := scope.names.insert name x.cells.size })
      { x with cells := x.cells.push none }

/-- Completes a declaration. -/
def define (place : Place) (name : String) (v : Value Names) : Eval Unit := fun x =>
  match place with
  | .global => .done () { x with globals := x.globals.insert name v }
  | .cell c => .done () { x with cells := x.cells.setIfInBounds c (some v) }

/-- Declares names with values pairwise, as far as there are both. -/
def declareAll (names : Names) : List Token → List (Value Names) → Eval Names
  | p :: ps, v :: vs => do
    let c ← newCell v
    declareAll (names.insert p.lexeme c) ps vs
  | _, _ => pure names

def lookUp (names : Names) (name : String) : Eval (Value Names) := fun x =>
  match names.find? name with
  | some c =>
    match x.read? c with
    | some v => .done v x
    | none => .failed (.runtime (.unboundLocal name)) x
  | none =>
    match x.globals.find? name with
    | some v => .done v x
    | none => .failed (.runtime (.undefinedVariable name)) x

def assign (names : Names) (name : String) (v : Value Names) : Eval Unit := fun x =>
  match names.find? name with
  | some c => .done () { x with cells := x.cells.setIfInBounds c (some v) }
  | none =>
    match x.globals.find? name with
    | some _ => .done () { x with globals := x.globals.insert name v }
    | none => .failed (.runtime (.undefinedVariable name)) x

/-! ## Instances -/

def newObject (c : Class Names) : Eval (Value Names) := fun x =>
  .done (.object c x.objects.size) { x with objects := x.objects.push .empty }

def field? (o : ObjectId) (name : String) : Eval (Option (Value Names)) := fun x =>
  .done (x.field? o name) x

def setField (o : ObjectId) (name : String) (v : Value Names) : Eval Unit := fun x =>
  .done () { x with objects := x.objects.modify o fun fields => fields.insert name v }

/-- The method with one more variable around its body, `this`. -/
def bindMethod (f : Closure Names) (receiver : Value Names) : Eval (Closure Names) := do
  let c ← newCell receiver
  pure { f with env := f.env.insert "this" c }

/-! ## The outside -/

/-- A computation on the world alone. -/
def onWorld {α : Type} (c : Computation World α) : Eval α := fun x =>
  match c x.toWorld with
  | .done a w => .done a { x with toWorld := w }
  | .failed e w => .failed e { x with toWorld := w }
  | .outOfFuel => .outOfFuel

end Lexical
end Lox
