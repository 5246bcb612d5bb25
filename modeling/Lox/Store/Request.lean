import Lox.Store
import Lox.World

/-!
# Lox.Store.Request

What can be asked of the frames in a store: to make a frame, and to read or write a name, either
wherever it is bound or at a distance. A request for a name that is not found fails.
-/

namespace Lox

inductive FrameRequest where
  /-- A frame that no other encloses. -/
  | root
  | child (enclosing : FrameId)
  | define (f : FrameId) (name : String) (v : Value)
  | get (f : FrameId) (name : String)
  | assign (f : FrameId) (name : String) (v : Value)
  | getAt (f : FrameId) (distance : Nat) (name : String)
  | assignAt (f : FrameId) (distance : Nat) (name : String) (v : Value)

/-- The frame that a request is about, if it is about one that is there already. -/
def FrameRequest.frame? : FrameRequest → Option FrameId
  | root => none
  | child f | define f _ _ | get f _ | assign f _ _ | getAt f _ _ | assignAt f _ _ _ => some f

inductive FrameReply where
  | frame (f : FrameId)
  | value (v : Value)
  | done

namespace Store

/-- Answers with the value of a name, if it has one. -/
def valueOf (name : String) (v? : Option Value) : Computation Store FrameReply := fun s =>
  match v? with
  | some v => .done (.value v) s
  | none => .failed (.runtime (.undefinedVariable name)) s

/-- Goes on with the store in which a name was written, if it was. -/
def written (name : String) (s? : Option Store) : Computation Store FrameReply := fun s =>
  match s? with
  | some s' => .done .done s'
  | none => .failed (.runtime (.undefinedVariable name)) s

def perform (request : FrameRequest) : Computation Store FrameReply := fun s =>
  match request with
  | .root => .done (.frame (s.addFrame none).1) (s.addFrame none).2
  | .child e => .done (.frame (s.addFrame (some e)).1) (s.addFrame (some e)).2
  | .define f name v => .done .done (s.define f name v)
  | .get f name => valueOf name (s.get? f name) s
  | .assign f name v => written name (s.assign? f name v) s
  | .getAt f distance name => valueOf name (s.getAt? f distance name) s
  | .assignAt f distance name v => written name (s.assignAt? f distance name v) s

end Store
end Lox
