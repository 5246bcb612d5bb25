import Lox.Bindings
import Lox.Program

/-!
# Lox.Scope

Static scopes. A scope lists the names declared in it so far; the flag of a name turns true once its
declaration is complete. Scopes are stacked innermost first, and the global scope is not among them,
so a name found nowhere is global. `Locals` keeps, for each reference, how many scopes out its name
was found.
-/

namespace Lox

abbrev Scope := Bindings Bool

namespace Scope

/-- The number of scopes between the innermost one and the first that has the name. -/
def distance? (name : String) : List Scope → Option Nat
  | [] => none
  | s :: outer => if s.contains name then some 0 else (distance? name outer).map (· + 1)

/-- Enters a name into the innermost scope with a flag; the global scope keeps no names. -/
def enter (name : String) (complete : Bool) : List Scope → List Scope
  | [] => []
  | s :: outer => s.insert name complete :: outer

/-- Whether the innermost scope already has the name. -/
def declares (name : String) : List Scope → Bool
  | [] => false
  | s :: _ => s.contains name

/-- Whether the innermost scope has the name with its declaration still under way. -/
def isPending (name : String) : List Scope → Bool
  | [] => false
  | s :: _ => s.find? name == some false

/-! ## What entering a name changes -/

theorem distance?_enter_self (name : String) (complete : Bool) (s : Scope) (outer : List Scope) :
    distance? name (enter name complete (s :: outer)) = some 0 := by
  simp [enter, distance?, Bindings.contains_insert]

theorem distance?_enter_of_ne {name m : String} (h : name ≠ m) (complete : Bool)
    (scopes : List Scope) : distance? m (enter name complete scopes) = distance? m scopes := by
  cases scopes with
  | nil => rfl
  | cons s outer => simp [enter, distance?, Bindings.contains_insert, h]

theorem isPending_enter_of_ne {name m : String} (h : name ≠ m) (complete : Bool)
    (scopes : List Scope) : isPending m (enter name complete scopes) = isPending m scopes := by
  cases scopes with
  | nil => rfl
  | cons s outer => simp [enter, isPending, Bindings.find?_insert, h]

theorem isPending_enter_complete (name : String) (scopes : List Scope) :
    isPending name (enter name true scopes) = false := by
  cases scopes <;> simp [enter, isPending]

theorem declares_enter (name m : String) (complete : Bool) (s : Scope) (outer : List Scope) :
    declares m (enter name complete (s :: outer)) =
      (decide (name = m) || declares m (s :: outer)) :=
  Bindings.contains_insert s name m complete

end Scope

/-- The distances of references that are not global. -/
structure Locals where
  entries : List (RefId × Nat)
  deriving Inhabited

namespace Locals

def empty : Locals := ⟨[]⟩

def findAmong? (id : RefId) : List (RefId × Nat) → Option Nat
  | [] => none
  | (i, d) :: rest => if i = id then some d else findAmong? id rest

def find? (ls : Locals) (id : RefId) : Option Nat := findAmong? id ls.entries

/-- Both tables; where they differ the newer one counts. -/
def merge (newer older : Locals) : Locals := ⟨newer.entries ++ older.entries⟩

theorem findAmong?_append (id : RefId) (xs ys : List (RefId × Nat)) :
    findAmong? id (xs ++ ys) = (findAmong? id xs).or (findAmong? id ys) := by
  induction xs with
  | nil => simp [findAmong?]
  | cons x xs ih =>
    obtain ⟨i, d⟩ := x
    by_cases h : i = id <;> simp [findAmong?, h, ih]

theorem find?_merge (newer older : Locals) (id : RefId) :
    (newer.merge older).find? id = (newer.find? id).or (older.find? id) :=
  findAmong?_append id newer.entries older.entries

end Locals
end Lox
