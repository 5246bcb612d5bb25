import Lox.CommandLine.Words
import Lox.Folder
import Lox.Program.Print
import Lox.Session
import Lox.Token.Text

/-!
# Lox.CommandLine

What each command prints. Files, standard input and the clock are handed in; a command answers with
its two outputs and its exit code.
-/

namespace Lox

structure Report where
  out : String := ""
  err : String := ""
  exitCode : Nat := 0

namespace Command

def versionText : String := "treelox 0.1.0\n"

def lines (texts : List String) : String :=
  texts.foldl (fun all t => all ++ t ++ "\n") ""

def errorLines (es : List Error) : String := lines (es.map Error.text)

/-- A failure outside the program text, with its cause if that is told apart. -/
def failure (what : String) (cause : Option String) : Report :=
  let because :=
    match cause with
    | none => ""
    | some c => "\n\nCaused by:\n    " ++ c
  { err := "Error: " ++ what ++ because ++ "\n", exitCode := 1 }

def fileFailure (file : String) (p : FileProblem) : Report :=
  let stage := if p.stopsOpening then "open" else "read"
  failure ("Failed to " ++ stage ++ " file " ++ Text.quotedName file) (some p.message)

/-- A file's text, or the report of why there is none. -/
def withText (file : String) (read : String → Except FileProblem String)
    (use : String → Option Report) : Option Report :=
  match read file with
  | .ok s => use s
  | .error p => some (fileFailure file p)

/-- Tokens are listed even if there were errors. -/
def tokenizeText (json : Bool) (source : String) : Report :=
  let tokens := Token.scan source
  let errors := Token.scanErrors source
  { out := if json then lines [Token.listJson tokens] else lines (tokens.map Token.text)
    err := errorLines errors
    exitCode := if errors.isEmpty then 0 else 65 }

/-- Trees are printed only if there were no errors. -/
def parseText (source : String) : Report :=
  let parse := Parse.ofTokens 0 (Token.scan source)
  let errors := Token.scanErrors source ++ parse.errors
  if errors.isEmpty then { out := lines (parse.statements.map Stmt.text) }
  else { err := errorLines errors, exitCode := 65 }

def runText (fuel : Nat) (clock : Nat → Float) (source : String) : Option Report :=
  match (Session.new {} clock).run fuel source with
  | none => none
  | some (s, status) =>
    some { out := s.machine.sink.textFrom 0
           err := errorLines s.diagnostics.errors
           exitCode := status.exitCode }

/-! ## The prompt -/

def promptText : String := "> "

/-- Runs one line of input and forgets its errors once they are shown. -/
def promptStep (fuel : Nat) (s : Session) (line : String) : Option (Session × Report) :=
  match s.run fuel line with
  | none => none
  | some (s', _) =>
    some (s'.reset,
      { out := s'.machine.sink.textFrom s.machine.sink.written.size
        err := errorLines s'.diagnostics.errors })

/-- The answers to some lines of input; a line that is not text ends the program. -/
def promptAll (fuel : Nat) (s : Session) : List (Except FileProblem String) → Option Report
  | [] => some { out := promptText }
  | .error p :: _ => some { failure p.message none with out := promptText }
  | .ok line :: rest =>
    match promptStep fuel s line with
    | none => none
    | some (s', shown) =>
      match promptAll fuel s' rest with
      | none => none
      | some later =>
        some { out := promptText ++ shown.out ++ later.out
               err := shown.err ++ later.err
               exitCode := later.exitCode }

/-- Cuts bytes after each newline. -/
def splitLines : List UInt8 → List (List UInt8)
  | [] => []
  | b :: bs =>
    if b = 10 then [b] :: splitLines bs
    else
      match splitLines bs with
      | [] => [[b]]
      | l :: ls => (b :: l) :: ls

def inputLines (bytes : ByteArray) : List (Except FileProblem String) :=
  (splitLines bytes.toList).map fun l => textOf ⟨l.toArray⟩

/-- What a command prints; `none` if the fuel does not suffice. -/
def report (fuel : Nat) (clock : Nat → Float) (read : String → Except FileProblem String)
    (input : ByteArray) : Command → Option Report
  | version => some { out := versionText }
  | tokenize file json => withText file read fun s => some (tokenizeText json s)
  | parse file => withText file read fun s => some (parseText s)
  | run file => withText file read (runText fuel clock)
  | prompt => promptAll fuel (.new {} clock) (inputLines input)

end Command
end Lox
