/-!
# Lox.Folder

The folder that a command works in, and what comes of reading a file by its path.

A path is followed name by name from the folder. Each name but the last has to lead to a folder, and
a slash at the end asks for a folder too, so a path through a file fails even where it ends in `..`.
What lies above the folder is not known: nothing can be found there by name.
-/

namespace Lox

/-- Why a file cannot be read: the first three stop its opening, the others its reading. -/
inductive FileProblem where
  | missing
  | notFolder
  | nameTooLong
  | isFolder
  | notText
  deriving DecidableEq, Repr

namespace FileProblem

def message : FileProblem → String
  | missing => "No such file or directory (os error 2)"
  | notFolder => "Not a directory (os error 20)"
  | nameTooLong => "File name too long (os error 36)"
  | isFolder => "Is a directory (os error 21)"
  | notText => "stream did not contain valid UTF-8"

def stopsOpening : FileProblem → Bool
  | missing | notFolder | nameTooLong => true
  | isFolder | notText => false

end FileProblem

/-- The text of some bytes. -/
def textOf (bytes : ByteArray) : Except FileProblem String :=
  match String.fromUTF8? bytes with
  | some s => .ok s
  | none => .error .notText

/-- Files by their paths. Their folders are there with them. -/
structure Folder where
  files : List (String × ByteArray)

/-- Where a path has led to. -/
inductive Place where
  | above
  | folder (path : List String)
  | file (content : ByteArray)

namespace Folder

/-- The names between slashes, which may be empty. -/
def cut : List Char → List (List Char)
  | [] => [[]]
  | c :: cs =>
    if c = '/' then [] :: cut cs
    else
      match cut cs with
      | [] => [[c]]
      | n :: ns => (c :: n) :: ns

def names (path : String) : List String := (cut path.toList).map String.ofList

/-- The longest name, in bytes. -/
def maxName : Nat := 255

/-- The longest path, in bytes. -/
def maxPath : Nat := 4095

def place? (d : Folder) (path : List String) : Option Place :=
  match d.files.find? fun f => names f.1 == path with
  | some f => some (.file f.2)
  | none =>
    if d.files.any fun f => path.isPrefixOf (names f.1) then some (.folder path) else none

/-- One name further. -/
def step (d : Folder) (p : Place) (name : String) : Except FileProblem Place :=
  match p with
  | .file _ => .error .notFolder
  | .above =>
    if name = "" ∨ name = "." ∨ name = ".." then .ok .above
    else if maxName < name.utf8ByteSize then .error .nameTooLong
    else .error .missing
  | .folder path =>
    if name = "" ∨ name = "." then .ok p
    else if name = ".." then .ok (if path.isEmpty then .above else .folder path.dropLast)
    else if maxName < name.utf8ByteSize then .error .nameTooLong
    else
      match d.place? (path ++ [name]) with
      | some q => .ok q
      | none => .error .missing

def follow (d : Folder) (path : String) : Except FileProblem Place :=
  if path.isEmpty then .error .missing
  else if maxPath < path.utf8ByteSize then .error .nameTooLong
  else
    let start : Place := if path.toList.head? = some '/' then .above else .folder []
    (names path).foldlM d.step start

/-- The text of the file that a path leads to. -/
def read (d : Folder) (path : String) : Except FileProblem String :=
  match d.follow path with
  | .error e => .error e
  | .ok (.file content) => textOf content
  | .ok .above | .ok (.folder _) => .error .isFolder

end Folder
end Lox
