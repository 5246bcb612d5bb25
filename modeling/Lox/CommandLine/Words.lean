/-!
# Lox.CommandLine.Words

The words of a command line, and the command that they ask for.

A first word may name a command; otherwise the words name a script to run, or nothing, and then there
is a prompt. Flags start with a dash and may come once each, before or after the file. All words after
`--` are names, whatever they look like, and a dash alone is one too.
-/

namespace Lox

inductive Command where
  | run (file : String)
  | tokenize (file : String) (json : Bool)
  | parse (file : String)
  | prompt
  | version
  deriving DecidableEq, Repr

namespace Command

inductive Word where
  | flag (s : String)
  | name (s : String)
  deriving DecidableEq, Repr

namespace Word

def isFlag (s : String) : Bool :=
  match s.toList with
  | '-' :: _ :: _ => true
  | _ => false

def all : List String → List Word
  | [] => []
  | w :: ws =>
    if w = "--" then ws.map name
    else (if isFlag w then flag w else name w) :: all ws

/-- The short form answers whatever letters follow it. -/
def asksVersion : Word → Bool
  | flag s => s == "--version" || s.toList.take 2 == ['-', 'V']
  | name _ => false

end Word

/-- A flag of every command, which changes nothing that a command prints. -/
def logFlag : String := "--log"

def jsonFlag : String := "--json"

/-- What some words have given. -/
structure Given where
  flags : List String := []
  file : Option String := none

namespace Given

/-- One word more; `none` if there is no room for it. -/
def add? (allowed : List String) (g : Given) : Word → Option Given
  | .flag f =>
    if allowed.contains f && !g.flags.contains f then some { g with flags := f :: g.flags }
    else none
  | .name f =>
    if f.isEmpty || g.file.isSome then none
    else some { g with file := some f }

def ofWords? (allowed : List String) (words : List String) : Option Given :=
  (Word.all words).foldlM (add? allowed) {}

end Given

/-- The command of words that start with no command's name. Asking for the version is answered as soon
as it is read. -/
def ofUnnamed? (g : Given) : List Word → Option Command
  | [] =>
    match g.file with
    | some f => some (run f)
    | none => some prompt
  | w :: ws =>
    if w.asksVersion then some version
    else
      match g.add? [logFlag] w with
      | some g => ofUnnamed? g ws
      | none => none

/-- The command that some words ask for. Only the first of them can be a command's name. -/
def ofWords? : List String → Option Command
  | "run" :: ws => (Given.ofWords? [logFlag] ws).bind fun g => g.file.map run
  | "parse" :: ws => (Given.ofWords? [logFlag] ws).bind fun g => g.file.map parse
  | "tokenize" :: ws =>
    (Given.ofWords? [logFlag, jsonFlag] ws).bind fun g =>
      g.file.map fun f => tokenize f (g.flags.contains jsonFlag)
  | "repl" :: ws =>
    (Given.ofWords? [logFlag] ws).bind fun g => if g.file.isNone then some prompt else none
  | "help" :: _ => none
  | ws => ofUnnamed? {} (Word.all ws)

end Command
end Lox
