import Lox.CommandLine

/-!
# Lox.Main

The command line program: reads files and standard input, and prints what the command answers.
-/

namespace Lox
namespace Main

/-- More than any run can use up. -/
def fuel : Nat := Nat.pow 2 60

/-- A clock that starts at a number of microseconds and moves on by one at each reading. -/
def clockFrom (micros : Nat) (reading : Nat) : Float :=
  Float.ofNat (micros + reading) / 1000000.0

def now : IO (Nat → Float) := do
  let nanos ← IO.monoNanosNow
  pure (clockFrom (nanos / 1000))

/-- The problem behind an error of reading a file, told by its code where one kind covers two. -/
def problemOf : IO.Error → FileProblem
  | .inappropriateType _ code _ => if code = 20 then .notFolder else .isFolder
  | .invalidArgument .. => .nameTooLong
  | _ => .missing

def readFile (file : String) : IO (Except FileProblem String) := do
  try
    let bytes ← IO.FS.readBinFile file
    pure (textOf bytes)
  catch e => pure (.error (problemOf e))

def display (r : Report) : IO Unit := do
  let out ← IO.getStdout
  let err ← IO.getStderr
  out.putStr r.out
  out.flush
  err.putStr r.err
  err.flush

/-- Shows each answer before the next line is read. -/
partial def interact (s : Session) : IO UInt32 := do
  let out ← IO.getStdout
  out.putStr Command.promptText
  out.flush
  let input ← IO.getStdin
  let line ← try
      let text ← input.getLine
      pure (some text)
    catch _ => pure none
  match line with
  | none =>
    display (Command.failure FileProblem.notText.message none)
    pure 1
  | some "" => pure 0
  | some text =>
    let clock ← now
    match Command.promptStep fuel { s with machine := { s.machine with clock := clock } } text with
    | none => pure 1
    | some (s, r) =>
      display r
      interact s

def perform (c : Command) : IO UInt32 := do
  let clock ← now
  match c with
  | .prompt => interact (.new {} clock)
  | .version | .run _ | .tokenize _ _ | .parse _ =>
    let read ←
      match c with
      | .run file | .tokenize file _ | .parse file => readFile file
      | .prompt | .version => pure (.error .missing)
    match Command.report fuel clock (fun _ => read) .empty c with
    | none => pure 1
    | some r =>
      display r
      pure (UInt32.ofNat r.exitCode)

end Main
end Lox

def main (args : List String) : IO UInt32 := do
  match Lox.Command.ofWords? args with
  | some c => Lox.Main.perform c
  | none =>
    (← IO.getStderr).putStrLn "error: a command needs a file name"
    pure 2
