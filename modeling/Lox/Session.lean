import Lox.Diagnostics
import Lox.Eval
import Lox.Program.Parse
import Lox.Scope.Resolve
import Lox.Token.Scan

/-!
# Lox.Session

Source texts run one after the other on one machine. Nothing of a text runs while a static error is
held, be it from this text or from an earlier one; errors are held until a reset.
-/

namespace Lox

structure Session (μ : Type := Machine) where
  machine : μ
  diagnostics : Diagnostics
  /-- The first number not yet used for a reference. -/
  nextId : RefId

inductive RunStatus where
  | ok
  | staticError
  | runtimeError
  deriving DecidableEq, Repr

def RunStatus.exitCode : RunStatus → Nat
  | ok => 0
  | staticError => 65
  | runtimeError => 70

namespace Session

variable {μ : Type}

/-- A session on a fresh machine. -/
def ofMachine (m : μ) : Session μ := { machine := m, diagnostics := .empty, nextId := 0 }

def new (sink : Sink) (clock : Nat → Float) : Session := ofMachine (.initial sink clock)

def reset (s : Session μ) : Session μ := { s with diagnostics := .empty }

/-- Scans and parses one source text and checks it statically. There is a program to run only if no
static error is held. -/
def check (s : Session μ) (source : String) : Session μ × Option (List Stmt) :=
  let tokens := Token.scan source
  let parse := Parse.ofTokens s.nextId tokens
  let s := { s with
    nextId := Parse.nextId s.nextId tokens
    diagnostics := (s.diagnostics.reportAll (Token.scanErrors source)).reportAll parse.errors }
  if s.diagnostics.hasStaticError then (s, none)
  else
    let s := { s with diagnostics := s.diagnostics.reportAll (Resolve.errors parse.statements) }
    if s.diagnostics.hasStaticError then (s, none)
    else (s, some parse.statements)

/-- Runs one source text by the given interpreter; `none` if that runs out of fuel. -/
def runBy (interpret : List Stmt → Computation μ Unit) (s : Session μ) (source : String) :
    Option (Session μ × RunStatus) :=
  match s.check source with
  | (s, none) => some (s, .staticError)
  | (s, some program) =>
    match interpret program s.machine with
    | .done _ m => some ({ s with machine := m }, .ok)
    | .failed e m =>
      some ({ s with machine := m, diagnostics := s.diagnostics.report e }, .runtimeError)
    | .outOfFuel => none

/-- Runs one source text; `none` if the fuel does not suffice. -/
def run (fuel : Nat) (s : Session) (source : String) : Option (Session × RunStatus) :=
  s.runBy (fun program => Eval.interpret fuel program (.ofProgram program)) source

end Session
end Lox
