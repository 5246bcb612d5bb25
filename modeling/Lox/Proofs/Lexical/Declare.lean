import Lox.Lexical.Machine
import Lox.Proofs.Lexical.Agree

/-!
# Lox.Proofs.Lexical.Declare

Declarations on both sides. Between statements the lexical scope fits the frame that runs and all
declarations are complete (`At`). While a declaration is under way its name is pending (`Begun`); the
frame has no variable for it yet, or has one that nothing may read.
-/

namespace Lox
namespace Lexical

/-- Statements can run in this frame and in this lexical scope. -/
structure At (w : Plan) (cls : ClassContext) (scopes : List Lox.Scope) (frame : FrameId)
    (scope : Scope) : Prop where
  aligned : Aligned w scopes frame scope.names
  carries : Scope.Carries scopes cls
  settled : Scope.Settled scopes
  owned : Owned w scopes frame
  isTop : scope.isTop = true ↔ scopes = []

/-- The declaration of a name has begun at this place, in a scope that has the name since. -/
structure Begun (w : Plan) (cls : ClassContext) (scopes : List Lox.Scope) (frame : FrameId)
    (name : Token) (place : Place) (scope : Scope) : Prop where
  isName : name.IsName
  aligned : Aligned w (Scope.enter name.lexeme false scopes) frame scope.names
  carries : Scope.Carries scopes cls
  settled : Scope.Settled scopes
  owned : Owned w (Scope.enter name.lexeme false scopes) frame
  isTop : scope.isTop = true ↔ scopes = []
  target :
    match place with
    | .global => scopes = []
    | .cell c => scopes ≠ [] ∧ scope.names.find? name.lexeme = some c ∧
        w.slots[c]? = some (frame, name.lexeme)

section

variable {w w' : Plan} {cls : ClassContext} {scopes : List Lox.Scope} {frame f : FrameId}
  {scope : Scope} {names : Names} {m : Lox.Machine} {x : Machine} {name : Token}

namespace At

theorem mono (h : At w cls scopes frame scope) (hg : Plan.Grows none w w') :
    At w' cls scopes frame scope :=
  ⟨h.aligned.mono hg.toLe, h.carries, h.settled, h.owned.mono hg h.aligned.live, h.isTop⟩

/-- Inside a block, or the body of a function that closes over these names. -/
theorem inside (ha : Aligned w scopes f names) (hc : Scope.Carries scopes cls)
    (hs : Scope.Settled scopes) :
    At (w.addFrame f) cls (.empty :: scopes) w.links.length (.within names) :=
  ⟨ha.inside hs, hc.within_empty, Scope.settled_empty_cons scopes, Owned.inside w _ f,
    ⟨nofun, nofun⟩⟩

/-- A parameter gets its argument. -/
theorem bindParameter (h : At w cls scopes f scope) (hs : scopes ≠ [])
    (hn : name.Declarable scopes) (hm : Agree w frame m x) {v : Value} {v' : Value Names}
    (hv : ValueRel w v v') :
    ∃ w', Plan.Grows (some f) w w' ∧
      Agree w' frame { m with store := m.store.define f name.lexeme v }
        { x with cells := x.cells.push (some v') } ∧
      At w' cls (Scope.declare scopes name) f
        { scope with names := scope.names.insert name.lexeme x.cells.size } := by
  have hlive := h.aligned.live
  have hg := h.aligned.ne_globals hs
  have hnew := h.owned.not_mem hn.2
  have hadd := w.grows_addSlot f name.lexeme hlive hg hnew
  have hfill := (w.addSlot f name.lexeme hlive hg hnew).grows_fill (some f) w.slots.length
    (by simp [Plan.addSlot])
  refine ⟨_, hadd.trans hfill, hm.newCell hlive hg hnew hv (suits_of_isName hn.1 v), ?_⟩
  rw [Scope.declare_eq_enter, hm.cells]
  refine ⟨h.aligned.enter hs (hadd.trans hfill).toLe (by simp [Plan.fill, Plan.addSlot])
    fun _ => .inl rfl, h.carries.enter hn.1 true, ?_, h.owned.enter hs hlive hg hnew true, ?_⟩
  · rw [← Scope.declare_eq_enter]
    exact h.settled.declare name
  · refine h.isTop.trans ⟨fun hnil => absurd hnil hs, fun hnil => ?_⟩
    cases scopes with
    | nil => rfl
    | cons => cases hnil

/-- A declaration begins. -/
theorem begin (h : At w cls scopes frame scope) (hn : name.Declarable scopes)
    (hm : Agree w frame m x) :
    ∃ place scope' x' w', declare scope name.lexeme x = .done (place, scope') x' ∧
      Plan.Grows (some frame) w w' ∧ Agree w' frame m x' ∧
      Begun w' cls scopes frame name place scope' := by
  by_cases hs : scopes = []
  · subst hs
    refine ⟨.global, scope, x, w, ?_, .refl w, hm, hn.1, h.aligned, h.carries, h.settled,
      h.owned, h.isTop, rfl⟩
    rw [declare, if_pos (h.isTop.2 rfl)]
  · have htop : ¬ scope.isTop = true := fun ht => hs (h.isTop.1 ht)
    have hlive := h.aligned.live
    have hg := h.aligned.ne_globals hs
    have hnew := h.owned.not_mem hn.2
    have hadd := w.grows_addSlot frame name.lexeme hlive hg hnew
    have hslot : (w.addSlot frame name.lexeme hlive hg hnew).slots[w.slots.length]? =
        some (frame, name.lexeme) := by
      simp [Plan.addSlot]
    refine ⟨.cell x.cells.size,
      { scope with names := scope.names.insert name.lexeme x.cells.size }, _, _, ?_, hadd,
      hm.addSlot hlive hg hnew none, hn.1, ?_, h.carries, h.settled, h.owned.enter hs hlive hg hnew false,
      h.isTop, hs, Bindings.find?_insert_self _ _ _, ?_⟩
    · rw [declare, if_neg htop]
    · rw [hm.cells]
      exact h.aligned.enter hs hadd.toLe hslot nofun
    · rw [hm.cells]
      exact hslot

end At

theorem Aligned.complete {name : String} {c : CellId}
    (h : Aligned w (Scope.enter name false scopes) frame names) (hs : scopes ≠ [])
    (hc : names.find? name = some c) (hle : w.Le w') (hf : w'.filled c) :
    Aligned w' (Scope.enter name true scopes) frame names := by
  obtain ⟨s, outer, rfl⟩ := List.exists_cons_of_ne_nil hs
  have h' := h.mono hle
  refine ⟨h'.live, ⟨nofun, fun hf => absurd (h'.top.2 hf) nofun⟩, fun y hy => ?_,
    fun y d hy => ?_⟩
  · by_cases hn : name = y
    · subst hn
      rw [Scope.distance?_enter_self] at hy
      cases hy
    · rw [Scope.distance?_enter_of_ne hn] at hy
      refine h'.global y ?_
      rw [Scope.distance?_enter_of_ne hn]
      exact hy
  · by_cases hn : name = y
    · subst hn
      rw [Scope.distance?_enter_self] at hy
      obtain ⟨c', a, hc', ha, hslot, -⟩ := h'.cell name 0 (Scope.distance?_enter_self ..)
      cases hy
      obtain rfl : c = c' := Option.some.inj (hc.symm.trans hc')
      exact ⟨c, a, hc, ha, hslot, fun _ => hf⟩
    · rw [Scope.distance?_enter_of_ne hn] at hy
      rw [Scope.isPending_enter_of_ne hn]
      have hcell := h'.cell y d (by rw [Scope.distance?_enter_of_ne hn]; exact hy)
      rwa [Scope.isPending_enter_of_ne hn] at hcell

namespace Begun

variable {place : Place}

theorem mono (h : Begun w cls scopes frame name place scope) (hg : Plan.Grows none w w') :
    Begun w' cls scopes frame name place scope := by
  refine ⟨h.isName, h.aligned.mono hg.toLe, h.carries, h.settled,
    h.owned.mono hg h.aligned.live, h.isTop, ?_⟩
  have htarget := h.target
  cases place with
  | global => exact htarget
  | cell c => exact ⟨htarget.1, htarget.2.1, hg.toLe.slot htarget.2.2⟩

/-- The initializer of a variable runs with the name declared. -/
theorem carries_enter (h : Begun w cls scopes frame name place scope) :
    Scope.Carries (Scope.enter name.lexeme false scopes) cls :=
  h.carries.enter h.isName false

/-- After a declaration statements run on, with the name declared. -/
theorem at_complete (h : Begun w cls scopes frame name place scope) :
    At (w.complete place) cls (Scope.declare scopes name) frame scope := by
  have htarget := h.target
  have haligned : Aligned (w.complete place) (Scope.declare scopes name) frame scope.names := by
    rw [Scope.declare_eq_enter]
    cases place with
    | global =>
      obtain rfl : scopes = [] := htarget
      exact h.aligned
    | cell c =>
      obtain ⟨hs, hc, hslot⟩ := htarget
      refine h.aligned.complete hs hc (w.grows_complete none _).toLe ?_
      rw [Plan.complete, dif_pos (List.getElem?_eq_some_iff.1 hslot).1]
      exact .inl rfl
  refine ⟨haligned, ?_, h.settled.declare name, ?_, ?_⟩
  · rw [Scope.declare_eq_enter]
    exact h.carries.enter h.isName true
  · intro y hy
    rw [Plan.slots_complete] at hy
    have hold := h.owned y hy
    rw [Scope.declare_eq_enter]
    cases scopes with
    | nil => exact hold
    | cons s outer =>
      rw [Scope.declares_enter] at hold ⊢
      exact hold
  · rw [h.isTop]
    cases scopes with
    | nil => exact Iff.rfl
    | cons => exact iff_of_false (List.cons_ne_nil _ _) (List.cons_ne_nil _ _)

/-- A declaration ends: its variable gets a value, which may refer to the variable. -/
theorem define (h : Begun w cls scopes frame name place scope) (hm : Agree w frame m x)
    {v : Value} {v' : Value Names} (hv : ValueRel (w.complete place) v v') :
    ∃ x', Lexical.define place name.lexeme v' x = .done () x' ∧
      Agree (w.complete place) frame { m with store := m.store.define frame name.lexeme v } x' := by
  have htarget := h.target
  cases place with
  | global =>
    obtain rfl : scopes = [] := htarget
    obtain rfl := h.aligned.frame_eq_globals
    exact ⟨_, rfl, hm.setGlobal name.lexeme hv⟩
  | cell c =>
    obtain ⟨hs, hc, hslot⟩ := htarget
    have hlt : c < w.slots.length := (List.getElem?_eq_some_iff.1 hslot).1
    rw [Plan.complete, dif_pos hlt] at hv ⊢
    exact ⟨_, rfl, hm.setCell hslot hlt hv (suits_of_isName h.isName v)⟩

end Begun

end

end Lexical
end Lox
