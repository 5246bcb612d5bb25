import Lox.Error

/-!
# Lox.Diagnostics

The errors held for the user, in the order in which they were reported.
-/

namespace Lox

structure Diagnostics where
  errors : List Error
  deriving Inhabited

namespace Diagnostics

def empty : Diagnostics := ⟨[]⟩

def report (d : Diagnostics) (e : Error) : Diagnostics := ⟨d.errors ++ [e]⟩

def reportAll (d : Diagnostics) (es : List Error) : Diagnostics := ⟨d.errors ++ es⟩

def hasError (d : Diagnostics) : Bool := !d.errors.isEmpty

def hasStaticError (d : Diagnostics) : Bool := d.errors.any Error.isStatic

def hasRuntimeError (d : Diagnostics) : Bool := d.errors.any Error.isRuntime

end Diagnostics
end Lox
