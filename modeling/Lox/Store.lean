import Lox.Value

/-!
# Lox.Store

The frames of variables and the field tables of instances. A frame has the names bound in it and,
except at a root, the frame that encloses it. An enclosing frame is older than the frames inside it,
and its number smaller, so a chain of frames starting at `f` has at most `f + 1` of them.

Names are found in two ways: in the first frame outward that binds them (`get?`, `assign?`), or in
the frame a given number of links outward (`getAt?`, `assignAt?`).
-/

namespace Lox

structure Frame where
  bindings : Bindings Value
  enclosing : Option FrameId
  deriving Inhabited

structure Store where
  frames : Array Frame
  objects : Array (Bindings Value)
  deriving Inhabited

namespace Store

def empty : Store := ⟨#[], #[]⟩

/-! ## Frames -/

/-- A new frame without bindings. -/
def addFrame (s : Store) (enclosing : Option FrameId) : FrameId × Store :=
  (s.frames.size, { s with frames := s.frames.push ⟨.empty, enclosing⟩ })

/-- Binds a name in one frame, or binds it anew. -/
def define (s : Store) (f : FrameId) (name : String) (v : Value) : Store :=
  { s with frames := s.frames.modify f fun fr => { fr with bindings := fr.bindings.insert name v } }

def enclosing? (s : Store) (f : FrameId) : Option FrameId :=
  match s.frames[f]? with
  | some fr => fr.enclosing
  | none => none

/-- The value of a name in one frame. -/
def local? (s : Store) (f : FrameId) (name : String) : Option Value :=
  match s.frames[f]? with
  | some fr => fr.bindings.find? name
  | none => none

/-- The first of at most `n` frames outward that binds a name. -/
def ownerWithin (s : Store) (name : String) : Nat → FrameId → Option FrameId
  | 0, _ => none
  | n + 1, f =>
    match s.local? f name with
    | some _ => some f
    | none =>
      match s.enclosing? f with
      | some e => ownerWithin s name n e
      | none => none

/-- The first frame outward that binds a name. -/
def owner? (s : Store) (f : FrameId) (name : String) : Option FrameId :=
  s.ownerWithin name (f + 1) f

/-- The frame a number of links outward. -/
def ancestor? (s : Store) : Nat → FrameId → Option FrameId
  | 0, f => some f
  | d + 1, f =>
    match s.enclosing? f with
    | some e => ancestor? s d e
    | none => none

def get? (s : Store) (f : FrameId) (name : String) : Option Value :=
  match s.owner? f name with
  | some o => s.local? o name
  | none => none

/-- Changes a name where it is bound; a name that is not stays so. -/
def assign? (s : Store) (f : FrameId) (name : String) (v : Value) : Option Store :=
  match s.owner? f name with
  | some o => some (s.define o name v)
  | none => none

def getAt? (s : Store) (f : FrameId) (distance : Nat) (name : String) : Option Value :=
  match s.ancestor? distance f with
  | some a => s.local? a name
  | none => none

/-- Binds a name in the frame at a distance, whether it was bound there or not. -/
def assignAt? (s : Store) (f : FrameId) (distance : Nat) (name : String) (v : Value) :
    Option Store :=
  match s.ancestor? distance f with
  | some a => some (s.define a name v)
  | none => none

/-! ## Instances -/

/-- A new table without fields. -/
def addObject (s : Store) : ObjectId × Store :=
  (s.objects.size, { s with objects := s.objects.push .empty })

def field? (s : Store) (o : ObjectId) (name : String) : Option Value :=
  match s.objects[o]? with
  | some fields => fields.find? name
  | none => none

def setField (s : Store) (o : ObjectId) (name : String) (v : Value) : Store :=
  { s with objects := s.objects.modify o fun fields => fields.insert name v }

/-- A frame that binds a name is the first to do so. -/
theorem owner?_of_local? {s : Store} {f : FrameId} {name : String} {v : Value}
    (h : s.local? f name = some v) : s.owner? f name = some f := by
  unfold owner? ownerWithin
  rw [h]

/-! ## Links -/

theorem lt_of_enclosing? {s : Store} {f e : FrameId} (h : s.enclosing? f = some e) :
    f < s.frames.size := by
  unfold enclosing? at h
  refine Nat.lt_of_not_le fun hle => ?_
  rw [Array.getElem?_eq_none hle] at h
  cases h

theorem lt_of_local? {s : Store} {f : FrameId} {name : String} {v : Value}
    (h : s.local? f name = some v) : f < s.frames.size := by
  unfold local? at h
  refine Nat.lt_of_not_le fun hle => ?_
  rw [Array.getElem?_eq_none hle] at h
  cases h

theorem ancestor?_of_enclosing? {s : Store} : ∀ {d : Nat} {f g e : FrameId},
    s.ancestor? d f = some g → s.enclosing? g = some e → s.ancestor? (d + 1) f = some e
  | 0, f, g, e, hg, he => by
    cases hg
    simp only [ancestor?, he]
  | d + 1, f, g, e, hg, he => by
    unfold ancestor? at hg ⊢
    split at hg
    · exact ancestor?_of_enclosing? hg he
    · cases hg

/-- Where links stay, the frames that they lead to stay. -/
theorem ancestor?_mono {s s' : Store}
    (h : ∀ f e, s.enclosing? f = some e → s'.enclosing? f = some e) : ∀ {d : Nat} {f a : FrameId},
    s.ancestor? d f = some a → s'.ancestor? d f = some a
  | 0, _, _, ha => ha
  | d + 1, f, a, ha => by
    unfold ancestor? at ha ⊢
    cases he : s.enclosing? f with
    | none =>
      rw [he] at ha
      cases ha
    | some e =>
      rw [he] at ha
      rw [h f e he]
      exact ancestor?_mono h ha

/-! ## What a write changes -/

theorem enclosing?_define (s : Store) (f g : FrameId) (name : String) (v : Value) :
    (s.define f name v).enclosing? g = s.enclosing? g := by
  simp only [enclosing?, define, Array.getElem?_modify]
  by_cases h : f = g
  · subst h
    cases s.frames[f]? <;> simp
  · simp [h]

theorem ancestor?_define (s : Store) (f : FrameId) (name : String) (v : Value) :
    ∀ (d : Nat) (g : FrameId), (s.define f name v).ancestor? d g = s.ancestor? d g
  | 0, _ => rfl
  | d + 1, g => by
    unfold ancestor?
    rw [enclosing?_define]
    cases s.enclosing? g with
    | none => rfl
    | some e => exact ancestor?_define s f name v d e

theorem local?_define_of_ne (s : Store) {f g : FrameId} (h : f ≠ g) (name m : String) (v : Value) :
    (s.define f name v).local? g m = s.local? g m := by
  simp [local?, define, Array.getElem?_modify, h]

theorem local?_define (s : Store) (f : FrameId) (hf : f < s.frames.size) (name m : String)
    (v : Value) :
    (s.define f name v).local? f m = if name = m then some v else s.local? f m := by
  simp only [local?, define, Array.getElem?_modify, Array.getElem?_eq_getElem hf]
  simp [Bindings.find?_insert]

theorem size_frames_define (s : Store) (f : FrameId) (name : String) (v : Value) :
    (s.define f name v).frames.size = s.frames.size := by
  simp [define]

/-- Of two writes to a name of one frame the later one stays. -/
theorem define_define (s : Store) (f : FrameId) (name : String) (v v' : Value) :
    (s.define f name v).define f name v' = s.define f name v' := by
  unfold define
  congr 1
  apply Array.ext_getElem?
  intro i
  simp only [Array.getElem?_modify]
  by_cases h : f = i
  · cases s.frames[i]? with
    | none => simp
    | some fr => simp [h, Bindings.insert_insert]
  · simp [h]

theorem define_comm (s : Store) {f g : FrameId} (h : f ≠ g) (name name' : String) (v v' : Value) :
    (s.define f name v).define g name' v' = (s.define g name' v').define f name v := by
  unfold define
  congr 1
  apply Array.ext_getElem?
  intro i
  simp only [Array.getElem?_modify]
  by_cases hf : f = i
  · have hg : g ≠ i := fun hg => h (hf.trans hg.symm)
    simp [hf, hg]
  · simp [hf]

/-! ## What a new frame changes -/

theorem local?_addFrame (s : Store) (enclosing : Option FrameId) (f : FrameId) (name : String) :
    (s.addFrame enclosing).2.local? f name = s.local? f name := by
  simp only [local?, addFrame, Array.getElem?_push]
  by_cases h : f = s.frames.size <;> simp [h]

theorem enclosing?_addFrame (s : Store) (enclosing : Option FrameId) (f : FrameId) :
    (s.addFrame enclosing).2.enclosing? f =
      if f = s.frames.size then enclosing else s.enclosing? f := by
  simp only [enclosing?, addFrame, Array.getElem?_push]
  by_cases h : f = s.frames.size <;> simp [h]

theorem define_addFrame (s : Store) (enclosing : Option FrameId) {f : FrameId}
    (hf : f < s.frames.size) (name : String) (v : Value) :
    ((s.define f name v).addFrame enclosing).2 = (s.addFrame enclosing).2.define f name v := by
  simp only [define, addFrame, Store.mk.injEq, and_true]
  apply Array.ext_getElem?
  intro i
  simp only [Array.getElem?_push, Array.getElem?_modify, Array.size_modify]
  by_cases hi : i = s.frames.size
  · simp [hi, Nat.ne_of_lt hf]
  · simp [hi]

end Store
end Lox
