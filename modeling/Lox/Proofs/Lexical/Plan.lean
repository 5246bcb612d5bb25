import Lox.Lexical.Machine
import Lox.Proofs.Scope.Carried

/-!
# Lox.Proofs.Lexical.Plan

How the memories of the two evaluators correspond. A plan says which variable of which frame each
cell stands for; it only grows, so what once corresponds does so from then on (`Plan.Le`). The static
scopes at a place of the program are aligned with a frame and a map of names if what the distance of
a name leads to, and what the map has for it, are the two sides of one cell (`Aligned`).

A frame gets new names long after functions have closed over it. That does no harm: the scopes at
such a function do not have those names, so no distance in it leads there.
-/

namespace Lox

namespace Lexical

/-! ## Plans -/

structure Plan where
  /-- The frame around each frame. -/
  links : List (Option FrameId)
  /-- The variable that each cell stands for. -/
  slots : List (FrameId × String)
  /-- The cells that have a value. -/
  filled : CellId → Prop
  globals : FrameId
  table : Table
  nodup : slots.Nodup
  isLocal : ∀ s ∈ slots, s.1 < links.length ∧ s.1 ≠ globals
  root : links[globals]? = some none
  filled_lt : ∀ c, filled c → c < slots.length

namespace Plan

def enclosing? (w : Plan) (f : FrameId) : Option FrameId := w.links[f]?.join

/-- The frame a number of links outward. -/
def ancestor? (w : Plan) : Nat → FrameId → Option FrameId
  | 0, f => some f
  | d + 1, f =>
    match w.enclosing? f with
    | some e => ancestor? w d e
    | none => none

/-- One plan is another at a later time. -/
structure Le (w w' : Plan) : Prop where
  links : w.links <+: w'.links
  slots : w.slots <+: w'.slots
  filled : ∀ c, w.filled c → w'.filled c
  globals : w'.globals = w.globals
  table : w.table.Le w'.table

theorem Le.refl (w : Plan) : w.Le w :=
  ⟨List.prefix_rfl, List.prefix_rfl, fun _ h => h, rfl, .refl w.table⟩

theorem Le.trans {w w' w'' : Plan} (h : w.Le w') (h' : w'.Le w'') : w.Le w'' :=
  ⟨h.links.trans h'.links, h.slots.trans h'.slots, fun c hc => h'.filled c (h.filled c hc),
    h'.globals.trans h.globals, h.table.trans h'.table⟩

theorem getElem?_mono {α : Type} {xs ys : List α} {i : Nat} {a : α} (h : xs <+: ys)
    (ha : xs[i]? = some a) : ys[i]? = some a := by
  obtain ⟨rest, rfl⟩ := h
  have hi : i < xs.length := (List.getElem?_eq_some_iff.1 ha).1
  rw [List.getElem?_append_left hi]
  exact ha

theorem Le.slot {w w' : Plan} (h : w.Le w') {c : CellId} {s : FrameId × String}
    (hs : w.slots[c]? = some s) : w'.slots[c]? = some s :=
  getElem?_mono h.slots hs

theorem Le.enclosing? {w w' : Plan} (h : w.Le w') {f e : FrameId}
    (he : w.enclosing? f = some e) : w'.enclosing? f = some e := by
  unfold Plan.enclosing? at he ⊢
  cases hf : w.links[f]? with
  | none =>
    rw [hf] at he
    cases he
  | some link =>
    rw [hf] at he
    rw [getElem?_mono h.links hf]
    exact he

theorem Le.ancestor? {w w' : Plan} (h : w.Le w') : ∀ {d : Nat} {f a : FrameId},
    w.ancestor? d f = some a → w'.ancestor? d f = some a
  | 0, _, _, ha => ha
  | d + 1, f, a, ha => by
    unfold Plan.ancestor? at ha ⊢
    cases he : w.enclosing? f with
    | none =>
      rw [he] at ha
      cases ha
    | some e =>
      rw [he] at ha
      rw [h.enclosing? he]
      exact h.ancestor? ha

/-- What one run adds to a plan: slots only of new frames, or of one frame of the caller. -/
structure Grows (own : Option FrameId) (w w' : Plan) : Prop extends Le w w' where
  new : ∀ s ∈ w'.slots, s ∈ w.slots ∨ w.links.length ≤ s.1 ∨ own = some s.1
  sameTable : w'.table = w.table

namespace Grows

variable {own : Option FrameId} {w w' w'' : Plan}

theorem refl (w : Plan) : Grows own w w := ⟨.refl w, fun _ hs => .inl hs, rfl⟩

theorem trans (h : Grows own w w') (h' : Grows own w' w'') : Grows own w w'' := by
  refine ⟨h.toLe.trans h'.toLe, fun s hs => ?_, h'.sameTable.trans h.sameTable⟩
  obtain hs | hs | hs := h'.new s hs
  · exact h.new s hs
  · exact .inr (.inl (Nat.le_trans h.links.length_le hs))
  · exact .inr (.inr hs)

/-- Slots of a frame that is new for the caller are no concern of it. -/
theorem inside {frame : FrameId} (h : Grows (some frame) w' w'') (hle : Grows own w w')
    (hframe : w.links.length ≤ frame) : Grows own w w'' := by
  refine ⟨hle.toLe.trans h.toLe, fun s hs => ?_, h.sameTable.trans hle.sameTable⟩
  obtain hs | hs | hs := h.new s hs
  · exact hle.new s hs
  · exact .inr (.inl (Nat.le_trans hle.links.length_le hs))
  · cases hs
    exact .inr (.inl hframe)

theorem widen (h : Grows none w w') : Grows own w w' := by
  refine ⟨h.toLe, fun s hs => ?_, h.sameTable⟩
  obtain hs | hs | hs := h.new s hs
  · exact .inl hs
  · exact .inr (.inl hs)
  · cases hs

end Grows

/-! ## Steps of a plan -/

variable (w : Plan)

/-- A new frame inside another. -/
def addFrame (enclosing : FrameId) : Plan :=
  { w with
    links := w.links ++ [some enclosing]
    isLocal := by
      intro s hs
      obtain ⟨hlt, hne⟩ := w.isLocal s hs
      rw [List.length_append]
      exact ⟨Nat.lt_add_right 1 hlt, hne⟩
    root := getElem?_mono ⟨_, rfl⟩ w.root }

theorem grows_addFrame (own : Option FrameId) (enclosing : FrameId) :
    Grows own w (w.addFrame enclosing) :=
  ⟨⟨⟨_, rfl⟩, List.prefix_rfl, fun _ h => h, rfl, .refl w.table⟩, fun _ hs => .inl hs, rfl⟩

theorem enclosing?_addFrame_self (enclosing : FrameId) :
    (w.addFrame enclosing).enclosing? w.links.length = some enclosing := by
  simp [enclosing?, addFrame]

theorem enclosing?_addFrame_of_ne {enclosing f : FrameId} (h : f ≠ w.links.length) :
    (w.addFrame enclosing).enclosing? f = w.enclosing? f := by
  unfold enclosing? addFrame
  by_cases hf : f < w.links.length
  · rw [List.getElem?_append_left hf]
  · have hlt : w.links.length < f := Nat.lt_of_le_of_ne (Nat.le_of_not_lt hf) (Ne.symm h)
    rw [List.getElem?_eq_none (by rw [List.length_append]; exact hlt),
      List.getElem?_eq_none (Nat.le_of_lt hlt)]

theorem ancestor?_addFrame_self (enclosing : FrameId) (d : Nat) {a : FrameId}
    (h : w.ancestor? d enclosing = some a) :
    (w.addFrame enclosing).ancestor? (d + 1) w.links.length = some a := by
  unfold ancestor?
  rw [enclosing?_addFrame_self]
  exact (grows_addFrame w none enclosing).toLe.ancestor? h

/-- A cell is filled. -/
def fill (c : CellId) (hc : c < w.slots.length) : Plan :=
  { w with
    filled := fun c' => c' = c ∨ w.filled c'
    filled_lt := by
      rintro c' (rfl | hc')
      · exact hc
      · exact w.filled_lt c' hc' }

theorem grows_fill (own : Option FrameId) (c : CellId) (hc : c < w.slots.length) :
    Grows own w (w.fill c hc) :=
  ⟨⟨List.prefix_rfl, List.prefix_rfl, fun _ h => .inr h, rfl, .refl w.table⟩,
    fun _ hs => .inl hs, rfl⟩

/-- A new cell for a name that a frame does not have yet. -/
def addSlot (frame : FrameId) (name : String) (hf : frame < w.links.length)
    (hg : frame ≠ w.globals) (hnew : (frame, name) ∉ w.slots) : Plan :=
  { w with
    slots := w.slots ++ [(frame, name)]
    nodup := by
      rw [List.nodup_append]
      refine ⟨w.nodup, by simp, ?_⟩
      intro s hs s' hs'
      rw [List.mem_singleton] at hs'
      rintro rfl
      exact hnew (hs' ▸ hs)
    isLocal := by
      intro s hs
      rw [List.mem_append, List.mem_singleton] at hs
      obtain hs | rfl := hs
      · exact w.isLocal s hs
      · exact ⟨hf, hg⟩
    filled_lt := by
      intro c hc
      rw [List.length_append]
      exact Nat.lt_add_right 1 (w.filled_lt c hc) }

theorem grows_addSlot (frame : FrameId) (name : String) (hf : frame < w.links.length)
    (hg : frame ≠ w.globals) (hnew : (frame, name) ∉ w.slots) :
    Grows (some frame) w (w.addSlot frame name hf hg hnew) := by
  refine ⟨⟨List.prefix_rfl, ⟨_, rfl⟩, fun _ h => h, rfl, .refl w.table⟩, fun s hs => ?_, rfl⟩
  simp only [addSlot, List.mem_append, List.mem_singleton] at hs
  obtain hs | rfl := hs
  · exact .inl hs
  · exact .inr (.inr rfl)

/-- The number of the globals is below that of any new frame. -/
theorem length_ne_globals : w.links.length ≠ w.globals :=
  Nat.ne_of_gt (List.getElem?_eq_some_iff.1 w.root).1

theorem length_not_mem (name : String) : (w.links.length, name) ∉ w.slots :=
  fun hs => Nat.lt_irrefl _ (w.isLocal _ hs).1

/-- A new frame with one variable, which has its value from the start. -/
def wrap (enclosing : FrameId) (name : String) : Plan :=
  ((w.addFrame enclosing).addSlot w.links.length name (by simp [addFrame]) w.length_ne_globals
    (w.length_not_mem name)).fill w.slots.length (by simp [addSlot, addFrame])

theorem grows_wrap (own : Option FrameId) (enclosing : FrameId) (name : String) :
    Grows own w (w.wrap enclosing name) :=
  (((grows_addSlot _ _ _ _ _ _).inside (w.grows_addFrame own enclosing) (Nat.le_refl _)).trans
    (grows_fill _ own _ _))

/-- What the end of a declaration does to a plan. -/
def complete : Place → Plan
  | .global => w
  | .cell c => if hc : c < w.slots.length then w.fill c hc else w

theorem grows_complete (own : Option FrameId) (place : Place) : Grows own w (w.complete place) := by
  cases place with
  | global => exact .refl w
  | cell c =>
    by_cases hc : c < w.slots.length
    · rw [complete, dif_pos hc]
      exact w.grows_fill own c hc
    · rw [complete, dif_neg hc]
      exact .refl w

theorem slots_complete (place : Place) : (w.complete place).slots = w.slots := by
  cases place with
  | global => rfl
  | cell c => by_cases hc : c < w.slots.length <;> simp [complete, hc, fill]

theorem complete_wrap_le (place : Place) (enclosing : FrameId) (name : String) :
    ((w.complete place).wrap enclosing name).Le ((w.wrap enclosing name).complete place) := by
  cases place with
  | global => exact .refl _
  | cell c =>
    by_cases hc : c < w.slots.length
    · have hc' : c < (w.wrap enclosing name).slots.length :=
        Nat.lt_of_lt_of_le hc (w.grows_wrap none enclosing name).slots.length_le
      simp only [complete, dif_pos hc, dif_pos hc']
      refine ⟨List.prefix_rfl, List.prefix_rfl, fun c' h => ?_, rfl, .refl w.table⟩
      simp only [wrap, addFrame, addSlot, fill] at h ⊢
      tauto
    · simp only [complete, dif_neg hc]
      exact (grows_complete _ none (.cell c)).toLe

/-- A new table of distances. -/
def withTable (t : Table) : Plan := { w with table := t }

theorem le_withTable {t : Table} (h : w.table.Le t) : w.Le (w.withTable t) :=
  ⟨List.prefix_rfl, List.prefix_rfl, fun _ h => h, rfl, h⟩

end Plan

/-! ## Alignment -/

/-- What scopes say of names holds of the frame that runs, and of the map for it. -/
structure Aligned (w : Plan) (scopes : List Lox.Scope) (frame : FrameId) (names : Names) : Prop where
  live : frame < w.links.length
  top : scopes = [] ↔ frame = w.globals
  global : ∀ x, Scope.distance? x scopes = none → names.find? x = none
  cell : ∀ x d, Scope.distance? x scopes = some d →
    ∃ c a, names.find? x = some c ∧ w.ancestor? d frame = some a ∧ w.slots[c]? = some (a, x) ∧
      (Scope.isPending x scopes = false → w.filled c)

namespace Aligned

variable {w w' : Plan} {scopes : List Lox.Scope} {frame : FrameId} {names : Names}

theorem mono (h : Aligned w scopes frame names) (hle : w.Le w') :
    Aligned w' scopes frame names := by
  refine ⟨Nat.lt_of_lt_of_le h.live hle.links.length_le, ?_, h.global, fun x d hx => ?_⟩
  · rw [hle.globals]
    exact h.top
  · obtain ⟨c, a, hc, ha, hs, hf⟩ := h.cell x d hx
    exact ⟨c, a, hc, hle.ancestor? ha, hle.slot hs, fun hp => hle.filled c (hf hp)⟩

theorem ne_globals (h : Aligned w scopes frame names) (hs : scopes ≠ []) : frame ≠ w.globals :=
  fun hf => hs (h.top.2 hf)

theorem frame_eq_globals (h : Aligned w [] frame names) : frame = w.globals := h.top.1 rfl

/-- A block or a function body starts with a frame of its own. -/
theorem inside (h : Aligned w scopes frame names) (hs : Scope.Settled scopes) :
    Aligned (w.addFrame frame) (.empty :: scopes) w.links.length names := by
  have hroot : w.globals < w.links.length := (List.getElem?_eq_some_iff.1 w.root).1
  refine ⟨by simp [Plan.addFrame], ⟨nofun, fun hf => absurd hf (Nat.ne_of_gt hroot)⟩, ?_, ?_⟩
  · intro x hx
    rw [Scope.distance?_empty_cons, Option.map_eq_none_iff] at hx
    exact h.global x hx
  · intro x d hx
    rw [Scope.distance?_empty_cons, Option.map_eq_some_iff] at hx
    obtain ⟨d, hx, rfl⟩ := hx
    obtain ⟨c, a, hc, ha, hslot, hfilled⟩ := h.cell x d hx
    exact ⟨c, a, hc, w.ancestor?_addFrame_self frame d ha, hslot, fun _ => hfilled (hs x)⟩

/-- A declaration in a block or a function. -/
theorem enter (h : Aligned w scopes frame names) (hs : scopes ≠ []) (hle : w.Le w')
    {name : String} {c : CellId} (hslot : w'.slots[c]? = some (frame, name)) {complete : Bool}
    (hc : complete = true → w'.filled c) :
    Aligned w' (Scope.enter name complete scopes) frame (names.insert name c) := by
  obtain ⟨s, outer, rfl⟩ := List.exists_cons_of_ne_nil hs
  have h' := h.mono hle
  refine ⟨h'.live, ⟨nofun, fun hf => absurd (h'.top.2 hf) hs⟩, ?_, ?_⟩
  · intro x hx
    by_cases hn : name = x
    · subst hn
      rw [Scope.distance?_enter_self] at hx
      cases hx
    · rw [Scope.distance?_enter_of_ne hn] at hx
      rw [Bindings.find?_insert_of_ne _ hn]
      exact h'.global x hx
  · intro x d hx
    by_cases hn : name = x
    · subst hn
      rw [Scope.distance?_enter_self] at hx
      cases hx
      refine ⟨c, frame, Bindings.find?_insert_self names name c, rfl, hslot, fun hp => hc ?_⟩
      simpa [Scope.enter, Scope.isPending] using hp
    · rw [Scope.distance?_enter_of_ne hn] at hx
      rw [Bindings.find?_insert_of_ne _ hn, Scope.isPending_enter_of_ne hn]
      exact h'.cell x d hx

/-- Another frame outward with one variable. -/
theorem wrap (h : Aligned w scopes frame names) (hs : Scope.Settled scopes) (name : String) :
    Aligned (w.wrap frame name) (Bindings.singleton name true :: scopes) w.links.length
      (names.insert name w.slots.length) :=
  (h.inside hs).enter nofun
    ((Plan.grows_addSlot _ _ _ _ _ _).toLe.trans (Plan.grows_fill _ none _ _).toLe)
    (by simp [Plan.fill, Plan.addSlot, Plan.addFrame]) fun _ => .inl rfl

end Aligned

/-- All slots of a frame are for names that its scope has. -/
def Owned (w : Plan) (scopes : List Lox.Scope) (frame : FrameId) : Prop :=
  ∀ name, (frame, name) ∈ w.slots → Scope.declares name scopes = true

namespace Owned

variable {w w' : Plan} {scopes : List Lox.Scope} {frame : FrameId}

theorem mono (h : Owned w scopes frame) (hg : Plan.Grows none w w')
    (hf : frame < w.links.length) : Owned w' scopes frame := by
  intro name hs
  obtain hs | hs | hs := hg.new _ hs
  · exact h name hs
  · exact absurd hf (Nat.not_lt.2 hs)
  · cases hs

theorem inside (w : Plan) (scopes : List Lox.Scope) (frame : FrameId) :
    Owned (w.addFrame frame) scopes w.links.length := by
  intro name hs
  exact absurd (w.isLocal _ hs).1 (Nat.lt_irrefl _)

theorem not_mem (h : Owned w scopes frame) {name : String}
    (hn : Scope.declares name scopes = false) : (frame, name) ∉ w.slots := by
  intro hs
  rw [h name hs] at hn
  cases hn

theorem enter (h : Owned w scopes frame) (hs : scopes ≠ []) {name : String}
    (hf : frame < w.links.length) (hg : frame ≠ w.globals) (hnew : (frame, name) ∉ w.slots)
    (complete : Bool) :
    Owned (w.addSlot frame name hf hg hnew) (Scope.enter name complete scopes) frame := by
  obtain ⟨s, outer, rfl⟩ := List.exists_cons_of_ne_nil hs
  intro m hm
  simp only [Plan.addSlot, List.mem_append, List.mem_singleton, Prod.mk.injEq] at hm
  rw [Scope.declares_enter]
  obtain hm | ⟨-, rfl⟩ := hm
  · rw [h m hm, Bool.or_true]
  · simp

end Owned

end Lexical
end Lox
