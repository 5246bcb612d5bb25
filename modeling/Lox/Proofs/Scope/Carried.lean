import Lox.Proofs.Scope.Linked

/-!
# Lox.Proofs.Scope.Carried

What scopes have for the code in them: names whose declaration is complete (`Has`), and for the
methods of a class the receiver, with the superclass one scope further outward (`Carries`).
Declarations and inner scopes keep all this.
-/

namespace Lox

namespace Scope

/-- The name is declared this many scopes outward, and its declaration is complete. -/
def Has (scopes : List Scope) (name : String) (d : Nat) : Prop :=
  distance? name scopes = some d ∧ isPending name scopes = false

theorem Has.enter {scopes : List Scope} {name m : String} {d : Nat} (h : Has scopes m d)
    (hne : name ≠ m) (complete : Bool) : Has (Scope.enter name complete scopes) m d := by
  constructor
  · rw [distance?_enter_of_ne hne]
    exact h.1
  · rw [isPending_enter_of_ne hne]
    exact h.2

theorem contains_singleton (name m : String) (b : Bool) :
    Bindings.contains (Bindings.singleton name b) m = decide (name = m) := by
  rw [Bindings.singleton, Bindings.contains_insert]
  simp [Bindings.contains]

theorem distance?_cons_of_ne {name m : String} (h : name ≠ m) (scopes : List Scope) :
    distance? m (Bindings.singleton name true :: scopes) =
      (distance? m scopes).map (· + 1) := by
  simp [distance?, contains_singleton, h]

theorem distance?_empty_cons (m : String) (scopes : List Scope) :
    distance? m (.empty :: scopes) = (distance? m scopes).map (· + 1) := by
  simp [distance?, Bindings.contains]

theorem isPending_empty_cons (m : String) (scopes : List Scope) :
    isPending m (.empty :: scopes) = false := rfl

theorem isPending_singleton_cons (name m : String) (scopes : List Scope) :
    isPending m (Bindings.singleton name true :: scopes) = false := by
  rw [isPending, Bindings.singleton, Bindings.find?_insert]
  by_cases h : name = m <;> simp [h]

theorem has_singleton (name : String) (scopes : List Scope) :
    Has (Bindings.singleton name true :: scopes) name 0 := by
  refine ⟨?_, isPending_singleton_cons name name scopes⟩
  simp [distance?, contains_singleton]

theorem Has.within_empty {scopes : List Scope} {m : String} {d : Nat} (h : Has scopes m d) :
    Has (.empty :: scopes) m (d + 1) := by
  refine ⟨?_, isPending_empty_cons m scopes⟩
  rw [distance?_empty_cons, h.1]
  rfl

theorem Has.within_singleton {scopes : List Scope} {name m : String} {d : Nat}
    (h : Has scopes m d) (hne : name ≠ m) :
    Has (Bindings.singleton name true :: scopes) m (d + 1) := by
  refine ⟨?_, isPending_singleton_cons name m scopes⟩
  rw [distance?_cons_of_ne hne, h.1]
  rfl

/-- The scopes have the receiver, and around it the superclass, as far as the class asks for it. -/
def Carries (scopes : List Scope) : ClassContext → Prop
  | .outside => True
  | .plain => ∃ d, Has scopes "this" d
  | .subclass => ∃ d, Has scopes "this" d ∧ Has scopes "super" (d + 1)

theorem Carries.exists_this {scopes : List Scope} {cls : ClassContext} (h : Carries scopes cls)
    (hc : cls ≠ .outside) : ∃ d, Has scopes "this" d := by
  cases cls with
  | outside => exact absurd rfl hc
  | plain => exact h
  | subclass =>
    obtain ⟨d, hthis, -⟩ := h
    exact ⟨d, hthis⟩

theorem Carries.enter {scopes : List Scope} {cls : ClassContext} (h : Carries scopes cls)
    {name : Token} (hn : name.IsName) (complete : Bool) :
    Carries (Scope.enter name.lexeme complete scopes) cls := by
  cases cls with
  | outside => trivial
  | plain =>
    obtain ⟨d, hthis⟩ := h
    exact ⟨d, hthis.enter hn.1 complete⟩
  | subclass =>
    obtain ⟨d, hthis, hsuper⟩ := h
    exact ⟨d, hthis.enter hn.1 complete, hsuper.enter hn.2 complete⟩

theorem Carries.within_empty {scopes : List Scope} {cls : ClassContext} (h : Carries scopes cls) :
    Carries (.empty :: scopes) cls := by
  cases cls with
  | outside => trivial
  | plain =>
    obtain ⟨d, hthis⟩ := h
    exact ⟨d + 1, hthis.within_empty⟩
  | subclass =>
    obtain ⟨d, hthis, hsuper⟩ := h
    exact ⟨d + 1, hthis.within_empty, hsuper.within_empty⟩

theorem carries_plain (scopes : List Scope) : Carries (Resolve.thisScope :: scopes) .plain :=
  ⟨0, has_singleton "this" scopes⟩

theorem carries_subclass (scopes : List Scope) :
    Carries (Resolve.thisScope :: Resolve.superScope :: scopes) .subclass :=
  ⟨0, has_singleton "this" _, (has_singleton "super" scopes).within_singleton (by decide)⟩

theorem declare_eq_enter (scopes : List Scope) (name : Token) :
    Scope.declare scopes name = enter name.lexeme true scopes := by
  cases scopes with
  | nil => rfl
  | cons s outer =>
    simp only [Scope.declare, Resolve.declareWhole, Resolve.declare, Resolve.define, enter]
    rw [Bindings.insert_insert]

/-- No declaration is under way. -/
def Settled (scopes : List Scope) : Prop := ∀ name, isPending name scopes = false

theorem settled_nil : Settled [] := fun _ => rfl

theorem settled_empty_cons (scopes : List Scope) : Settled (.empty :: scopes) := fun _ => rfl

theorem settled_singleton_cons (name : String) (scopes : List Scope) :
    Settled (Bindings.singleton name true :: scopes) :=
  fun m => isPending_singleton_cons name m scopes

theorem Settled.declare {scopes : List Scope} (h : Settled scopes) (name : Token) :
    Settled (Scope.declare scopes name) := by
  intro m
  rw [declare_eq_enter]
  by_cases hm : name.lexeme = m
  · rw [← hm]
    exact isPending_enter_complete name.lexeme _
  · rw [isPending_enter_of_ne hm]
    exact h m

end Scope

end Lox
