import Lox.Value

/-!
# Lox.World

What a running program shares with the outside: where it prints to, and a clock. And computations,
which change a state: one ends in a value or an error, with the state as it then is, or has run out
of fuel.
-/

namespace Lox

/-- Where printed text goes. A sink may have room for a limited number of bytes only, and its flushes
may fail. -/
structure Sink where
  written : ByteArray := .empty
  room : Option Nat := none
  flushFails : Bool := false
  deriving Inhabited

namespace Sink

/-- Writes bytes as far as there is room for them. -/
def write (s : Sink) (bytes : ByteArray) : Sink × Option SinkProblem :=
  match s.room with
  | none => ({ s with written := s.written ++ bytes }, none)
  | some n =>
    if bytes.size ≤ n then
      ({ s with written := s.written ++ bytes, room := some (n - bytes.size) }, none)
    else
      ({ s with written := s.written ++ bytes.extract 0 n, room := some 0 }, some .full)

def flush (s : Sink) : Option SinkProblem := if s.flushFails then some .flushFailed else none

/-- Bytes as text. Where a full sink cut the last character short, a replacement character stands
for what is there of it. -/
def textOf (bytes : ByteArray) : String :=
  let shortened (n : Nat) : Option String := String.fromUTF8? (bytes.extract 0 (bytes.size - n))
  match shortened 0 with
  | some s => s
  | none => ((shortened 1 <|> shortened 2 <|> shortened 3).getD "") ++ "\ufffd"

/-- What was written after the first `start` bytes. -/
def textFrom (s : Sink) (start : Nat) : String :=
  textOf (s.written.extract start s.written.size)

end Sink

/-! ## Computations -/

inductive Outcome (σ α : Type) where
  | done (value : α) (state : σ)
  | failed (error : Error) (state : σ)
  | outOfFuel

/-- A computation on states of some type. -/
def Computation (σ α : Type) := σ → Outcome σ α

namespace Computation

variable {σ α β : Type}

@[always_inline, inline]
def bind (x : Computation σ α) (f : α → Computation σ β) : Computation σ β := fun s =>
  match x s with
  | .done a s => f a s
  | .failed e s => .failed e s
  | .outOfFuel => .outOfFuel

@[always_inline]
instance : Monad (Computation σ) where
  pure a := fun s => .done a s
  bind := Computation.bind

theorem bind_apply (x : Computation σ α) (f : α → Computation σ β) (s : σ) :
    (x >>= f) s =
      match x s with
      | .done a s => f a s
      | .failed e s => .failed e s
      | .outOfFuel => .outOfFuel := rfl

theorem bind_of_done {x : Computation σ α} {a : α} {s t : σ} (h : x s = .done a t)
    (f : α → Computation σ β) : (x >>= f) s = f a t := by
  rw [bind_apply, h]

/-- Where two computations in a row come to a good end, each of them does. -/
theorem exists_of_bind {x : Computation σ α} {f : α → Computation σ β} {b : β} {s t : σ}
    (h : (x >>= f) s = .done b t) : ∃ a s', x s = .done a s' ∧ f a s' = .done b t := by
  rw [bind_apply] at h
  cases hx : x s with
  | done a s' =>
    rw [hx] at h
    exact ⟨a, s', rfl, h⟩
  | failed e s' =>
    rw [hx] at h
    cases h
  | outOfFuel =>
    rw [hx] at h
    cases h

theorem bind_assoc {γ : Type} (x : Computation σ α) (f : α → Computation σ β)
    (g : β → Computation σ γ) : x >>= f >>= g = x >>= fun a => f a >>= g := by
  funext s
  simp only [bind_apply]
  cases x s <;> rfl

def exhausted : Computation σ α := fun _ => .outOfFuel

def fail (problem : RuntimeProblem) : Computation σ α := fun s => .failed (.runtime problem) s

def ofExcept : Except RuntimeProblem α → Computation σ α
  | .ok a => pure a
  | .error problem => fail problem

end Computation

/-! ## Output and clock -/

structure World where
  sink : Sink
  /-- What the clock shows at each reading. -/
  clock : Nat → Float
  /-- How often the clock has been read. -/
  readings : Nat

namespace World

def initial (sink : Sink) (clock : Nat → Float) : World :=
  { sink := sink, clock := clock, readings := 0 }

def write (text : String) : Computation World Unit := fun w =>
  let r := w.sink.write text.toUTF8
  let w := { w with sink := r.1 }
  match r.2 with
  | none => .done () w
  | some problem => .failed (.sink problem) w

def flush : Computation World Unit := fun w =>
  match w.sink.flush with
  | none => .done () w
  | some problem => .failed (.sink problem) w

/-- Text and newline are written apart, so a full sink can come between them. -/
def printLine (text : String) : Computation World Unit := do
  write text
  write "\n"
  flush

def readClock : Computation World Float := fun w =>
  .done (w.clock w.readings) { w with readings := w.readings + 1 }

end World

/-- Natives take their first argument only, and nil in its place if there is none. -/
def Native.run {ε : Type} (n : Native) (args : List (Value ε)) : Computation World (Value ε) :=
  match n with
  | .clock => do
    let seconds ← World.readClock
    pure (.number seconds)
  | .print => do
    World.printLine (args.headD .nil).text
    pure .nil
  | .str => pure (.string (args.headD .nil).text)

end Lox
