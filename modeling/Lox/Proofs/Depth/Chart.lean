import Lox.Proofs.Depth.Point
import Lox.Proofs.Memory.Census

/-!
# Lox.Proofs.Depth.Chart

Which scope each frame is for. A chart has the frames from each frame outward, up to the globals,
with the scope that each of them is for, and the names that are bound in them. It only grows. Code
stands in a frame if the scopes at its point are those of the frames outward, and what the walk has
defined in them is bound (`Chart.Stands`).
-/

namespace Lox

open Resolve

structure Chart where
  /-- The frames from each frame outward, without the globals. -/
  chains : List (List (FrameId × Scope))
  bound : FrameId → String → Prop
  starts : ∀ (f g : FrameId) (s : Scope) (rest : List (FrameId × Scope)),
    chains[f]? = some ((g, s) :: rest) → g = f

namespace Chart

/-- One chart is another at a later time. -/
structure Le (w w' : Chart) : Prop where
  chains : w.chains <+: w'.chains
  bound : ∀ f x, w.bound f x → w'.bound f x

theorem Le.refl (w : Chart) : w.Le w := ⟨List.prefix_rfl, fun _ _ h => h⟩

theorem Le.trans {w w' w'' : Chart} (h : w.Le w') (h' : w'.Le w'') : w.Le w'' :=
  ⟨h.chains.trans h'.chains, fun f x hx => h'.bound f x (h.bound f x hx)⟩

theorem Le.chain {w w' : Chart} (h : w.Le w') {f : FrameId} {chain : List (FrameId × Scope)}
    (hf : w.chains[f]? = some chain) : w'.chains[f]? = some chain := by
  obtain ⟨rest, hrest⟩ := h.chains
  rw [← hrest, List.getElem?_append_left (List.getElem?_eq_some_iff.1 hf).1]
  exact hf

/-! ## Steps of a chart -/

variable (w : Chart)

/-- A new frame inside of these. -/
def addFrame (s : Scope) (outer : List (FrameId × Scope)) : Chart where
  chains := w.chains ++ [(w.chains.length, s) :: outer]
  bound := w.bound
  starts f g s' rest h := by
    rw [List.getElem?_append] at h
    split at h
    · exact w.starts f g s' rest h
    · rename_i hlen
      obtain ⟨hf, heq⟩ := List.getElem?_eq_some_iff.1 h
      rw [List.length_singleton, Nat.lt_one_iff] at hf
      simp only [hf, List.getElem_cons_zero, List.cons.injEq, Prod.mk.injEq] at heq
      exact heq.1.1.symm.trans (Nat.le_antisymm (Nat.not_lt.1 hlen) (Nat.sub_eq_zero_iff_le.1 hf))

theorem le_addFrame (s : Scope) (outer : List (FrameId × Scope)) : w.Le (w.addFrame s outer) :=
  ⟨List.prefix_append _ _, fun _ _ h => h⟩

theorem chain_addFrame (s : Scope) (outer : List (FrameId × Scope)) :
    (w.addFrame s outer).chains[w.chains.length]? = some ((w.chains.length, s) :: outer) := by
  simp [addFrame]

theorem chain_of_addFrame {s : Scope} {outer chain : List (FrameId × Scope)} {f : FrameId}
    (hne : f ≠ w.chains.length) (hf : (w.addFrame s outer).chains[f]? = some chain) :
    w.chains[f]? = some chain := by
  simp only [addFrame, List.getElem?_append] at hf
  split at hf
  · exact hf
  · rename_i hlen
    have hlt : 0 < f - w.chains.length :=
      Nat.sub_pos_of_lt (Nat.lt_of_le_of_ne (Nat.not_lt.1 hlen) (Ne.symm hne))
    rw [List.getElem?_eq_none hlt] at hf
    cases hf

/-- A name is bound in a frame. -/
def bind (f : FrameId) (x : String) : Chart :=
  { w with bound := fun g y => (g = f ∧ y = x) ∨ w.bound g y }

theorem le_bind (f : FrameId) (x : String) : w.Le (w.bind f x) :=
  ⟨List.prefix_rfl, fun _ _ h => .inr h⟩

/-! ## Code in frames -/

/-- What the walk has defined is bound in the frames, but for one name in the first. -/
def Backs (without : Option String) : List (FrameId × Scope) → List Scope → Prop
  | [], [] => True
  | (f, _) :: chain, s :: scopes =>
    (∀ x, s.find? x = some true → without ≠ some x → w.bound f x) ∧ Backs none chain scopes
  | _, _ => False

/-- The scopes at the point are those of the frames from this one outward. -/
def Stands (frame : FrameId) (p : Point) : Prop :=
  ∃ chain, w.chains[frame]? = some chain ∧ chain.map Prod.snd = p.whole ∧
    w.Backs p.clauseOf chain p.scopes

variable {w}

theorem Backs.mono {w' : Chart} (hle : w.Le w') : ∀ {without : Option String}
    {chain : List (FrameId × Scope)} {scopes : List Scope},
    w.Backs without chain scopes → w'.Backs without chain scopes
  | _, [], [], _ => trivial
  | _, (f, _) :: _, _ :: _, h =>
    ⟨fun x hx hne => hle.bound f x (h.1 x hx hne), Backs.mono hle h.2⟩

/-- The first frame may have less to bind. -/
theorem Backs.enter {without without' : Option String} {chain : List (FrameId × Scope)}
    {scopes : List Scope} (h : w.Backs without chain scopes) {name : String} {complete : Bool}
    (hkeep : ∀ x, without' ≠ some x → without ≠ some x)
    (hname : complete = true → without' ≠ some name → ∀ f s rest, chain = (f, s) :: rest →
      w.bound f name) : w.Backs without' chain (Scope.enter name complete scopes) := by
  cases chain with
  | nil =>
    cases scopes with
    | nil => trivial
    | cons => exact h.elim
  | cons link chain =>
    cases scopes with
    | nil => exact h.elim
    | cons s scopes =>
      refine ⟨fun x hx hne => ?_, h.2⟩
      rw [Bindings.find?_insert] at hx
      split at hx
      · rename_i heq
        subst heq
        exact hname (Option.some.inj hx) hne link.1 link.2 chain rfl
      · exact h.1 x hx (hkeep x hne)

namespace Stands

variable {frame : FrameId} {p : Point}

theorem mono {w' : Chart} (h : w.Stands frame p) (hle : w.Le w') : w'.Stands frame p := by
  obtain ⟨chain, hchain, hwhole, hbacks⟩ := h
  exact ⟨chain, hle.chain hchain, hwhole, hbacks.mono hle⟩

/-- While the declaration of a name is under way nothing has to be bound for it. -/
theorem begin (h : w.Stands frame p) (name : Token) :
    w.Stands frame { p with scopes := (Resolve.declare p.scopes name).1 } := by
  obtain ⟨chain, hchain, hwhole, hbacks⟩ := h
  exact ⟨chain, hchain, hwhole, hbacks.enter (fun _ => id) nofun⟩

/-- While a superclass is evaluated the class need not be bound. -/
theorem clause (h : w.Stands frame p) (hp : p.clauseOf = none) (name : Token) :
    w.Stands frame (p.clause name) := by
  obtain ⟨chain, hchain, hwhole, hbacks⟩ := h
  refine ⟨chain, hchain, hwhole, ?_⟩
  show w.Backs (some name.lexeme) chain (Scope.declare p.scopes name)
  rw [Scope.declare_eq_enter]
  refine hbacks.enter (fun x _ => ?_) fun _ hne => absurd rfl hne
  rw [hp]
  exact nofun

/-- When a declaration is over, the name is bound. -/
theorem declare (h : w.Stands frame p) (name : Token) :
    (w.bind frame name.lexeme).Stands frame (p.declare name) := by
  obtain ⟨chain, hchain, hwhole, hbacks⟩ := h
  refine ⟨chain, hchain, hwhole, ?_⟩
  show (w.bind frame name.lexeme).Backs p.clauseOf chain (Scope.declare p.scopes name)
  rw [Scope.declare_eq_enter]
  refine (hbacks.mono (w.le_bind frame name.lexeme)).enter (fun _ => id) ?_
  rintro - - f s rest rfl
  exact .inl ⟨w.starts _ _ _ _ hchain, rfl⟩

/-- A new frame for a new scope. -/
theorem inside {chain : List (FrameId × Scope)} (s : Scope)
    (hchain : w.chains[frame]? = some chain) (h : w.Stands frame p) (hp : p.clauseOf = none) :
    (w.addFrame s chain).Stands w.chains.length
      { p with scopes := .empty :: p.scopes, whole := s :: p.whole } := by
  obtain ⟨chain', hchain', hwhole, hbacks⟩ := h
  obtain rfl : chain = chain' := Option.some.inj (hchain.symm.trans hchain')
  refine ⟨_, w.chain_addFrame s chain, ?_, ?_⟩
  · rw [List.map_cons, hwhole]
  · rw [hp] at hbacks
    exact ⟨nofun, hbacks.mono (w.le_addFrame s chain)⟩

/-- A new frame for a scope with one name, which is bound. -/
theorem wrap {chain : List (FrameId × Scope)} (name : String)
    (hchain : w.chains[frame]? = some chain) (h : w.Stands frame p) (hp : p.clauseOf = none) :
    ((w.addFrame (Bindings.singleton name true) chain).bind w.chains.length name).Stands
      w.chains.length (p.wrap (Bindings.singleton name true)) := by
  obtain ⟨chain', hchain', hwhole, hbacks⟩ := h
  obtain rfl : chain = chain' := Option.some.inj (hchain.symm.trans hchain')
  have hle := (w.le_addFrame (Bindings.singleton name true) chain).trans
    (Chart.le_bind _ w.chains.length name)
  refine ⟨_, w.chain_addFrame _ chain, ?_, fun x hx _ => ?_, ?_⟩
  · rw [List.map_cons, hwhole]
    rfl
  · rw [Bindings.singleton, Bindings.find?_insert] at hx
    split at hx
    · rename_i heq
      exact .inl ⟨rfl, heq.symm⟩
    · cases hx
  · rw [hp] at hbacks
    exact hbacks.mono hle

end Stands

end Chart

end Lox
