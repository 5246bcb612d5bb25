/-!
# Lox.Bindings

Finite maps from names, in order of first insertion.
-/

namespace Lox

structure Bindings (β : Type) where
  entries : List (String × β)
  deriving Inhabited

namespace Bindings

variable {β : Type}

def empty : Bindings β := ⟨[]⟩

def findAmong? (name : String) : List (String × β) → Option β
  | [] => none
  | (n, b) :: rest => if n = name then some b else findAmong? name rest

def find? (bs : Bindings β) (name : String) : Option β := findAmong? name bs.entries

def contains (bs : Bindings β) (name : String) : Bool := (bs.find? name).isSome

def insertAmong (name : String) (b : β) : List (String × β) → List (String × β)
  | [] => [(name, b)]
  | (n, old) :: rest =>
    if n = name then (n, b) :: rest else (n, old) :: insertAmong name b rest

/-- Binds a name, or binds it anew. -/
def insert (bs : Bindings β) (name : String) (b : β) : Bindings β :=
  ⟨insertAmong name b bs.entries⟩

def singleton (name : String) (b : β) : Bindings β := empty.insert name b

@[simp] theorem find?_empty (name : String) : (empty : Bindings β).find? name = none := rfl

theorem findAmong?_insertAmong (name m : String) (b : β) (es : List (String × β)) :
    findAmong? m (insertAmong name b es) = if name = m then some b else findAmong? m es := by
  induction es with
  | nil => simp [insertAmong, findAmong?]
  | cons e rest ih =>
    obtain ⟨n, old⟩ := e
    by_cases hn : n = name
    · subst hn
      by_cases hm : n = m <;> simp [insertAmong, findAmong?, hm]
    · by_cases hm : n = m
      · subst hm
        simp [insertAmong, findAmong?, hn, Ne.symm hn]
      · simp [insertAmong, findAmong?, hn, hm, ih]

theorem find?_insert (bs : Bindings β) (name m : String) (b : β) :
    (bs.insert name b).find? m = if name = m then some b else bs.find? m :=
  findAmong?_insertAmong name m b bs.entries

@[simp] theorem find?_insert_self (bs : Bindings β) (name : String) (b : β) :
    (bs.insert name b).find? name = some b := by
  simp [find?_insert]

theorem find?_insert_of_ne (bs : Bindings β) {name m : String} (h : name ≠ m) (b : β) :
    (bs.insert name b).find? m = bs.find? m := by
  simp [find?_insert, h]

theorem contains_insert (bs : Bindings β) (name m : String) (b : β) :
    (bs.insert name b).contains m = (decide (name = m) || bs.contains m) := by
  rw [contains, find?_insert]
  by_cases h : name = m <;> simp [h, contains]

theorem insertAmong_insertAmong (name : String) (a b : β) (es : List (String × β)) :
    insertAmong name b (insertAmong name a es) = insertAmong name b es := by
  induction es with
  | nil => simp [insertAmong]
  | cons e rest ih =>
    obtain ⟨n, old⟩ := e
    by_cases h : n = name <;> simp [insertAmong, h, ih]

/-- Of two values bound to a name the later one stays. -/
theorem insert_insert (bs : Bindings β) (name : String) (a b : β) :
    (bs.insert name a).insert name b = bs.insert name b :=
  congrArg Bindings.mk (insertAmong_insertAmong name a b bs.entries)

end Bindings
end Lox
