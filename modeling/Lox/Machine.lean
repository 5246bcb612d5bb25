import Lox.Scope
import Lox.Store
import Lox.World

/-!
# Lox.Machine

The state that a running program changes, and what an evaluation does with it step by step.
-/

namespace Lox

structure Machine extends World where
  store : Store
  /-- The frame of the global variables. -/
  globals : FrameId
  /-- The frame of the code that runs now. -/
  current : FrameId
  locals : Locals

namespace Machine

/-- The frame of a fresh machine. -/
def initialFrame : Frame := { bindings := Native.bindings, enclosing := none }

def initial (sink : Sink) (clock : Nat → Float) : Machine :=
  { toWorld := .initial sink clock
    store := { frames := #[initialFrame], objects := #[] }
    globals := 0
    current := 0
    locals := .empty }

end Machine

/-- A computation on the machine. -/
abbrev Eval := Computation Machine

namespace Eval

/-! ## Variables -/

def currentFrame : Eval FrameId := fun m => .done m.current m

/-- A new frame inside another. -/
def childFrame (enclosing : FrameId) : Eval FrameId := fun m =>
  let r := m.store.addFrame (some enclosing)
  .done r.1 { m with store := r.2 }

def defineIn (frame : FrameId) (name : String) (v : Value) : Eval Unit := fun m =>
  .done () { m with store := m.store.define frame name v }

/-- Binds a name in the current frame. -/
def define (name : String) (v : Value) : Eval Unit := fun m =>
  .done () { m with store := m.store.define m.current name v }

/-- Binds names to values pairwise, as far as there are both. -/
def defineAll (frame : FrameId) : List Token → List Value → Eval Unit
  | p :: ps, v :: vs => do
    defineIn frame p.lexeme v
    defineAll frame ps vs
  | _, _ => pure ()

/-- What a look-up found, or the failure of a look-up. -/
def found (v : Option Value) (otherwise : RuntimeProblem) : Eval Value := fun m =>
  match v with
  | some v => .done v m
  | none => .failed (.runtime otherwise) m

/-- A reference with a known distance reads that frame, any other one the globals. -/
def lookUp (id : RefId) (name : String) : Eval Value := fun m =>
  match m.locals.find? id with
  | some d => found (m.store.getAt? m.current d name) (.unboundLocal name) m
  | none => found (m.store.get? m.globals name) (.undefinedVariable name) m

/-- The value of a name in the frame at a distance from a given one. -/
def readAt (frame : FrameId) (distance : Nat) (name : String) : Eval Value := fun m =>
  found (m.store.getAt? frame distance name) (.unboundLocal name) m

/-- Writes to a frame, if there is one to write to. -/
def writeTo (target : Option FrameId) (name : String) (v : Value) (otherwise : RuntimeProblem) :
    Eval Unit := fun m =>
  match target with
  | some f => .done () { m with store := m.store.define f name v }
  | none => .failed (.runtime otherwise) m

/-- The counterpart of `lookUp` for assignments. -/
def assign (id : RefId) (name : String) (v : Value) : Eval Unit := fun m =>
  match m.locals.find? id with
  | some d => writeTo (m.store.ancestor? d m.current) name v (.unboundLocal name) m
  | none => writeTo (m.store.owner? m.globals name) name v (.undefinedVariable name) m

/-- Assigns to a name that the current frame or one outward must bind. -/
def assignOutward (name : String) (v : Value) : Eval Unit := fun m =>
  writeTo (m.store.owner? m.current name) name v (.unboundLocal name) m

def distanceOf? (id : RefId) : Eval (Option Nat) := fun m => .done (m.locals.find? id) m

/-- Runs a computation in another frame and comes back, however it ends. -/
@[inline]
def inFrame {α : Type} (frame : FrameId) (x : Eval α) : Eval α := fun m =>
  let previous := m.current
  match x { m with current := frame } with
  | .done a m => .done a { m with current := previous }
  | .failed e m => .failed e { m with current := previous }
  | .outOfFuel => .outOfFuel

/-! ## Instances -/

def newObject (c : Class) : Eval Value := fun m =>
  let r := m.store.addObject
  .done (.object c r.1) { m with store := r.2 }

def field? (o : ObjectId) (name : String) : Eval (Option Value) := fun m =>
  .done (m.store.field? o name) m

def setField (o : ObjectId) (name : String) (v : Value) : Eval Unit := fun m =>
  .done () { m with store := m.store.setField o name v }

/-- The method with one more frame around its body, where `this` is the receiver. -/
def bindMethod (f : Closure) (receiver : Value) : Eval Closure := do
  let frame ← childFrame f.env
  defineIn frame "this" receiver
  pure { f with env := frame }

/-! ## The outside -/

/-- A computation on the world alone. -/
def onWorld {α : Type} (x : Computation World α) : Eval α := fun m =>
  match x m.toWorld with
  | .done a w => .done a { m with toWorld := w }
  | .failed e w => .failed e { m with toWorld := w }
  | .outOfFuel => .outOfFuel

end Eval
end Lox
