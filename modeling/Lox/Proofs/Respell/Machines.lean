import Lox.Lexical.Eval
import Lox.Proofs.Lexical.Matches
import Lox.Proofs.Respell.Alike

/-!
# Lox.Proofs.Respell.Machines

Lexical machines that differ only in how variables are spelled. Which cell a variable has is the same
in both runs, so cells are compared one by one; the maps from names to cells differ as the spelling at
their point of the program says (`Names.Alike`). A function closes over such maps and has a
declaration that is alike under the same spelling. There is one lemma for each thing that the lexical
evaluator does with its machine.
-/

namespace Lox

/-- The same error, or two failures that the static checks exclude. -/
def Error.Alike (e e' : Error) : Prop := e' = e ∨ e.isInternal = true ∧ e'.isInternal = true

theorem Error.Alike.refl (e : Error) : e.Alike e := .inl rfl

namespace Lexical

/-! ## Names -/

/-- Where a name has this spelling, both stand for one cell, or for the global of the same name. -/
def Names.Alike (r : Spelling) (names names' : Names) : Prop :=
  ∀ a a', r a a' → names'.find? a' = names.find? a ∧ (names.find? a = none → a' = a)

/-- The scopes at a point of two programs, at the top level or not. -/
structure Scope.Alike (isTop : Bool) (r : Spelling) (scope scope' : Scope) : Prop where
  left : scope.isTop = isTop
  right : scope'.isTop = isTop
  names : Names.Alike r scope.names scope'.names

namespace Names.Alike

variable {r r' : Spelling} {names names' : Names}

theorem refl (names : Names) : Names.Alike Eq names names := by
  rintro a _ rfl
  exact ⟨rfl, fun _ => rfl⟩

theorem mono (h : Names.Alike r names names') (hr : ∀ {a a'}, r' a a' → r a a') :
    Names.Alike r' names names' :=
  fun a a' ha => h a a' (hr ha)

theorem insert (h : Names.Alike r names names') {name name' : String}
    (hd : r.Declares false name name' r') (c : CellId) :
    Names.Alike r' (names.insert name c) (names'.insert name' c) := by
  intro a a' ha
  rw [Bindings.find?_insert, Bindings.find?_insert]
  by_cases hname : name = a
  · rw [if_pos hname, if_pos ((hd.own rfl ha).1 hname)]
    exact ⟨rfl, nofun⟩
  · rw [if_neg hname, if_neg fun hname' => hname ((hd.own rfl ha).2 hname')]
    exact h a a' (hd.outer ha (.inr hname))

end Names.Alike

/-! ## Functions and values -/

/-- Functions that can be called. -/
structure FunctionAlike (f f' : Closure Names) : Prop where
  isInitializer : f'.isInitializer = f.isInitializer
  spelling : ∃ r, Names.Alike r f.env f'.env ∧ f.decl.Alike r f'.decl ∧
    (f.isInitializer = true → r "this" "this")

/-- Methods, which can be called when they are bound. -/
structure MethodAlike (f f' : Closure Names) : Prop where
  isInitializer : f'.isInitializer = f.isInitializer
  spelling : ∃ r r', Names.Alike r f.env f'.env ∧ r.Declares false "this" "this" r' ∧
    r' "this" "this" ∧ f.decl.Alike r' f'.decl

theorem FunctionAlike.resembles {f f' : Closure Names} (h : FunctionAlike f f') :
    f.Resembles f' := by
  obtain ⟨-, r, -, hdecl, -⟩ := h
  exact ⟨congrArg Token.lexeme hdecl.name_eq, hdecl.arity_eq⟩

theorem MethodAlike.resembles {f f' : Closure Names} (h : MethodAlike f f') : f.Resembles f' := by
  obtain ⟨-, r, r', -, -, -, hdecl⟩ := h
  exact ⟨congrArg Token.lexeme hdecl.name_eq, hdecl.arity_eq⟩

abbrev ClassAlike : Class Names → Class Names → Prop := Class.Rel MethodAlike

abbrev CallableAlike : Callable Names → Callable Names → Prop :=
  Callable.Rel FunctionAlike MethodAlike

abbrev ValueAlike : Value Names → Value Names → Prop := Value.Rel FunctionAlike MethodAlike

theorem CallableAlike.arity_eq {c c' : Callable Names} (h : CallableAlike c c') :
    c'.arity = c.arity :=
  Callable.Rel.arity_eq FunctionAlike.resembles MethodAlike.resembles h

/-! ### The same value -/

theorem FunctionAlike.refl (f : Closure Names) : FunctionAlike f f :=
  ⟨rfl, Eq, .refl f.env, .refl f.decl, fun _ => rfl⟩

theorem MethodAlike.refl (f : Closure Names) : MethodAlike f f :=
  ⟨rfl, Eq, Eq, .refl f.env, .refl false "this", rfl, .refl f.decl⟩

theorem optionRel_refl {α : Type} {R : α → α → Prop} (h : ∀ a, R a a) :
    ∀ a : Option α, Option.Rel R a a
  | none => .none
  | some a => .some (h a)

theorem ClassAlike.refl : ∀ c : Class Names, ClassAlike c c
  | .base name ms => .base name fun m => optionRel_refl MethodAlike.refl (ms.find? m)
  | .derived name c ms =>
    .derived name (ClassAlike.refl c) fun m => optionRel_refl MethodAlike.refl (ms.find? m)

theorem ValueAlike.refl : ∀ v : Value Names, ValueAlike v v
  | .nil => .nil
  | .bool b => .bool b
  | .number x => .number x
  | .string s => .string s
  | .native n => .native n
  | .function f => .function (.refl f)
  | .cls c => .cls (ClassAlike.refl c)
  | .object c o => .object o (ClassAlike.refl c)

/-! ## Machines -/

structure Machine.Alike (x x' : Machine) : Prop where
  world : x'.toWorld = x.toWorld
  cells : ArrayTwin (Option.Rel ValueAlike) x.cells x'.cells
  globals : Bindings.Rel ValueAlike x.globals x'.globals
  objects : ArrayTwin (Bindings.Rel ValueAlike) x.objects x'.objects

theorem ValueAlike.bindings_refl (bs : Bindings (Value Names)) : Bindings.Rel ValueAlike bs bs :=
  fun name => optionRel_refl ValueAlike.refl (bs.find? name)

theorem Machine.Alike.refl (x : Machine) : x.Alike x where
  world := rfl
  cells := ⟨rfl, fun i => optionRel_refl (optionRel_refl ValueAlike.refl) x.cells[i]?⟩
  globals := ValueAlike.bindings_refl x.globals
  objects := ⟨rfl, fun i => optionRel_refl ValueAlike.bindings_refl x.objects[i]?⟩

namespace Machine.Alike

variable {x x' : Machine}

theorem read? (h : x.Alike x') (c : CellId) : Option.Rel ValueAlike (x.read? c) (x'.read? c) := by
  have hc := h.cells.entry c
  unfold Machine.read?
  revert hc
  cases x.cells[c]? <;> cases x'.cells[c]? <;> rintro ⟨⟩
  · exact .none
  · assumption

theorem field? (h : x.Alike x') (o : ObjectId) (name : String) :
    Option.Rel ValueAlike (x.field? o name) (x'.field? o name) := by
  have ho := h.objects.entry o
  unfold Machine.field?
  revert ho
  cases x.objects[o]? <;> cases x'.objects[o]? <;> rintro ⟨⟩
  · exact .none
  · rename_i ho
    exact ho name

end Machine.Alike

/-! ## Computations -/

/-- From machines that are alike, the computations end alike. -/
abbrev Alike {α β : Type} (R : α → β → Prop) (p : Eval α) (p' : Eval β) : Prop :=
  Computation.Rel Machine.Alike Error.Alike R p p'

/-! ### Variables -/

section Variables

variable {r r' : Spelling} {isTop : Bool} {scope scope' : Scope} {names names' : Names}
  {v v' : Value Names}

theorem alike_newCell (hv : ValueAlike v v') : Alike Eq (newCell v) (newCell v') :=
  fun _ _ hx => .done hx.cells.size.symm { hx with cells := hx.cells.push (.some hv) }

/-- What a declaration of two names begins with: one place, and scopes that have the names. -/
structure Begins (isTop : Bool) (r : Spelling) (name name' : String) (p p' : Place × Scope) :
    Prop where
  place : p'.1 = p.1
  global : p.1 = .global → name' = name
  scope : p.2.Alike isTop r p'.2

theorem alike_declare (hs : scope.Alike isTop r scope') {name name' : String}
    (hd : r.Declares isTop name name' r') :
    Alike (Begins isTop r' name name') (declare scope name) (declare scope' name') := by
  intro x x' hx
  unfold declare
  rw [hs.left, hs.right, hx.cells.size]
  cases isTop with
  | true =>
    refine .done ⟨rfl, fun _ => hd.global rfl, hs.left, hs.right, ?_⟩ hx
    exact hs.names.mono fun ha => hd.outer ha (.inl rfl)
  | false =>
    refine .done ⟨rfl, nofun, rfl, rfl, hs.names.insert hd _⟩ { hx with cells := ?_ }
    exact hx.cells.push .none

theorem alike_define {place place' : Place} {name name' : String} (hp : place' = place)
    (hn : place = .global → name' = name) (hv : ValueAlike v v') :
    Alike Eq (define place name v) (define place' name' v') := by
  subst hp
  intro x x' hx
  cases place' with
  | global =>
    rw [hn rfl]
    exact .done rfl { hx with globals := hx.globals.insert name hv }
  | cell c => exact .done rfl { hx with cells := hx.cells.setIfInBounds c (.some hv) }

theorem alike_declareAll {params params' : List Token} (hd : r.DeclaresAll params params' r')
    (hn : Names.Alike r names names') {args args' : List (Value Names)}
    (ha : List.Forall₂ ValueAlike args args') (hlen : args.length = params.length) :
    Alike (Names.Alike r') (declareAll names params args) (declareAll names' params' args') := by
  induction hd generalizing names names' args args' with
  | nil => exact Computation.rel_pure hn
  | cons hd _ ih =>
    cases ha with
    | nil => cases hlen
    | cons hv ha =>
      refine Computation.rel_bind (alike_newCell hv) fun c _ hc => ?_
      subst hc
      exact ih (hn.insert hd c) ha (Nat.succ.inj hlen)

/-- A look-up fails alike: a cell without a value is one whose declaration is not complete. -/
theorem alike_lookUp (hn : Names.Alike r names names') {name name' : String} (h : r name name') :
    Alike ValueAlike (lookUp names name) (lookUp names' name') := by
  intro x x' hx
  obtain ⟨hfind, hglobal⟩ := hn name name' h
  unfold lookUp
  rw [hfind]
  cases hc : names.find? name with
  | none =>
    have hv := hx.globals name
    rw [hglobal hc]
    dsimp only
    revert hv
    cases x.globals.find? name <;> cases x'.globals.find? name <;> rintro ⟨⟩
    · exact .failed (.refl _) hx
    · exact .done ‹_› hx
  | some c =>
    have hv := hx.read? c
    dsimp only
    revert hv
    cases x.read? c <;> cases x'.read? c <;> rintro ⟨⟩
    · exact .failed (.inr ⟨rfl, rfl⟩) hx
    · exact .done ‹_› hx

theorem alike_assign (hn : Names.Alike r names names') {name name' : String} (h : r name name')
    (hv : ValueAlike v v') : Alike Eq (assign names name v) (assign names' name' v') := by
  intro x x' hx
  obtain ⟨hfind, hglobal⟩ := hn name name' h
  unfold assign
  rw [hfind]
  cases hc : names.find? name with
  | none =>
    have hold := hx.globals name
    rw [hglobal hc]
    dsimp only
    revert hold
    cases x.globals.find? name <;> cases x'.globals.find? name <;> rintro ⟨⟩
    · exact .failed (.refl _) hx
    · exact .done rfl { hx with globals := hx.globals.insert name hv }
  | some c => exact .done rfl { hx with cells := hx.cells.setIfInBounds c (.some hv) }

end Variables

/-! ### Instances -/

theorem alike_newObject {c c' : Class Names} (hc : ClassAlike c c') :
    Alike ValueAlike (newObject c) (newObject c') := by
  intro x x' hx
  unfold newObject
  rw [hx.objects.size]
  exact .done (.object _ hc) { hx with objects := hx.objects.push Bindings.Rel.empty }

theorem alike_field? (o : ObjectId) (name : String) :
    Alike (Option.Rel ValueAlike) (field? o name) (field? o name) :=
  fun _ _ hx => .done (hx.field? o name) hx

theorem alike_setField (o : ObjectId) (name : String) {v v' : Value Names}
    (hv : ValueAlike v v') : Alike Eq (setField o name v) (setField o name v') :=
  fun _ _ hx => .done rfl { hx with
    objects := hx.objects.modify o fun hf => hf.insert name hv }

theorem alike_bindMethod {f f' : Closure Names} (hf : MethodAlike f f') {v v' : Value Names}
    (hv : ValueAlike v v') :
    Alike (fun g g' => FunctionAlike g g' ∧ g.decl = f.decl) (bindMethod f v)
      (bindMethod f' v') := by
  obtain ⟨hinit, r, r', hnames, hd, hthis, hdecl⟩ := hf
  refine Computation.rel_bind (alike_newCell hv) fun c _ hc => ?_
  subst hc
  exact Computation.rel_pure ⟨⟨hinit, r', hnames.insert hd c, hdecl, fun _ => hthis⟩, rfl⟩

/-! ### The outside -/

theorem alike_onWorld {α β : Type} {R : α → β → Prop} {w : Computation World α}
    {w' : Computation World β} (h : Computation.Rel Eq Error.Alike R w w') :
    Alike R (onWorld w) (onWorld w') := by
  intro x x' hx
  have hend := h hx.world.symm
  unfold onWorld
  revert hend
  generalize w x.toWorld = o, w' x'.toWorld = o'
  intro hend
  cases hend with
  | done hab hw => exact .done hab { hx with world := hw.symm }
  | failed he hw => exact .failed he { hx with world := hw.symm }
  | outOfFuel => exact .outOfFuel

end Lexical
end Lox
