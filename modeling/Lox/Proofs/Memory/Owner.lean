import Mathlib
import Lox.Store.Request

/-!
# Lox.Proofs.Memory.Owner

Frames obey the owner law (`frames_obey`). Whatever requests made a store, the links from a frame
lead along one chain to a root and never back. A name is read and assigned in the first frame of the
chain that binds it, or in the frame at a distance; a write changes that one slot, and what can be
seen through every other chain follows from it.

An enclosing frame is older than the frames inside it, and no request changes a link: this is all
that the chains need (`Outward`).
-/

namespace Lox
namespace Store

/-- What requests make of the empty store, each about a frame that is there. -/
inductive Made : Store → Prop
  | empty : Made .empty
  | done {s t : Store} {request : FrameRequest} {reply : FrameReply} : Made s →
      (∀ f ∈ request.frame?, f < s.frames.size) → perform request s = .done reply t → Made t
  | failed {s t : Store} {request : FrameRequest} {e : Error} : Made s →
      (∀ f ∈ request.frame?, f < s.frames.size) → perform request s = .failed e t → Made t

/-- The frames from one of them outward to a root. -/
inductive Chain (s : Store) : FrameId → List FrameId → Prop
  | root {f : FrameId} : f < s.frames.size → s.enclosing? f = none → Chain s f [f]
  | inside {f e : FrameId} {fs : List FrameId} : s.enclosing? f = some e → Chain s e fs →
      Chain s f (f :: fs)

/-- The first of some frames that binds a name. -/
def firstBinding? (s : Store) (fs : List FrameId) (name : String) : Option FrameId :=
  fs.find? fun f => (s.local? f name).isSome

/-- `t` is `s` with one slot of one frame written. -/
structure Sets (s : Store) (o : FrameId) (name : String) (v : Value) (t : Store) : Prop where
  size : t.frames.size = s.frames.size
  objects : t.objects = s.objects
  enclosing : ∀ f, t.enclosing? f = s.enclosing? f
  slot : ∀ f m, t.local? f m = if f = o ∧ m = name then some v else s.local? f m

/-- What reads and writes through a frame do, said by its chain. -/
structure Obeys (s : Store) (f : FrameId) (fs : List FrameId) : Prop where
  get : ∀ name,
    match s.firstBinding? fs name with
    | some o => ∃ v, s.local? o name = some v ∧ perform (.get f name) s = .done (.value v) s
    | none => perform (.get f name) s = .failed (.runtime (.undefinedVariable name)) s
  assign : ∀ name v,
    match s.firstBinding? fs name with
    | some o => ∃ t, perform (.assign f name v) s = .done .done t ∧ s.Sets o name v t ∧
        ∀ g gs m, s.Chain g gs → t.get? g m =
          if m = name ∧ s.firstBinding? gs name = some o then some v else s.get? g m
    | none => perform (.assign f name v) s = .failed (.runtime (.undefinedVariable name)) s
  getAt : ∀ d name,
    match fs[d]? with
    | some a => perform (.getAt f d name) s = valueOf name (s.local? a name) s
    | none => perform (.getAt f d name) s = .failed (.runtime (.undefinedVariable name)) s
  assignAt : ∀ d name v,
    match fs[d]? with
    | some a => ∃ t, perform (.assignAt f d name v) s = .done .done t ∧ s.Sets a name v t ∧
        ∀ g gs e m, s.Chain g gs → t.getAt? g e m =
          if m = name ∧ gs[e]? = some a then some v else s.getAt? g e m
    | none => perform (.assignAt f d name v) s = .failed (.runtime (.undefinedVariable name)) s

/-! ## A request either fails and changes nothing, or is done -/

theorem eq_of_valueOf_failed {name : String} {v? : Option Value} {s t : Store} {e : Error}
    (h : valueOf name v? s = .failed e t) : t = s := by
  cases v? <;> cases h
  rfl

theorem eq_of_valueOf_done {name : String} {v? : Option Value} {s t : Store} {reply : FrameReply}
    (h : valueOf name v? s = .done reply t) : t = s := by
  cases v? <;> cases h
  rfl

theorem eq_of_written_failed {name : String} {s? : Option Store} {s t : Store} {e : Error}
    (h : written name s? s = .failed e t) : t = s := by
  cases s? <;> cases h
  rfl

theorem eq_some_of_written_done {name : String} {s? : Option Store} {s t : Store}
    {reply : FrameReply} (h : written name s? s = .done reply t) : s? = some t := by
  cases s? <;> cases h
  rfl

theorem eq_of_failed {request : FrameRequest} {s t : Store} {e : Error}
    (h : perform request s = .failed e t) : t = s := by
  cases request with
  | root | child | define => cases h
  | get | getAt => exact eq_of_valueOf_failed h
  | assign | assignAt => exact eq_of_written_failed h

/-- What a request can do: nothing, or make one frame, or define one name. -/
theorem cases_of_done {request : FrameRequest} {s t : Store} {reply : FrameReply}
    (h : perform request s = .done reply t) :
    t = s ∨
      (∃ enclosing : Option FrameId, (∀ e ∈ enclosing, e ∈ request.frame?) ∧
        t = (s.addFrame enclosing).2) ∨
      ∃ o name v, t = s.define o name v := by
  cases request with
  | root =>
    cases h
    exact .inr (.inl ⟨none, (fun _ he => by cases he), rfl⟩)
  | child f =>
    cases h
    exact .inr (.inl ⟨some f, (fun _ he => he), rfl⟩)
  | define f name v =>
    cases h
    exact .inr (.inr ⟨f, name, v, rfl⟩)
  | get | getAt => exact .inl (eq_of_valueOf_done h)
  | assign f name v =>
    have hs := eq_some_of_written_done h
    unfold assign? at hs
    split at hs <;> cases hs
    exact .inr (.inr ⟨_, name, v, rfl⟩)
  | assignAt f d name v =>
    have hs := eq_some_of_written_done h
    unfold assignAt? at hs
    split at hs <;> cases hs
    exact .inr (.inr ⟨_, name, v, rfl⟩)

namespace Made

variable {s : Store} {f : FrameId}

theorem root (h : s.Made) : (s.addFrame none).2.Made :=
  @done s _ .root _ h (fun _ hf => by cases hf) rfl

theorem child (h : s.Made) (hf : f < s.frames.size) : (s.addFrame (some f)).2.Made :=
  @done s _ (.child f) _ h (fun _ hg => Option.some.inj hg ▸ hf) rfl

theorem define (h : s.Made) (hf : f < s.frames.size) (name : String) (v : Value) :
    (s.define f name v).Made :=
  @done s _ (.define f name v) _ h (fun _ hg => Option.some.inj hg ▸ hf) rfl

end Made

/-! ## Links lead outward -/

/-- Every link leads to an older frame. -/
def Outward (s : Store) : Prop := ∀ f e, s.enclosing? f = some e → e < f

theorem outward_empty : Outward .empty := fun f e h => by simp [enclosing?, empty] at h

theorem Outward.addFrame {s : Store} (h : s.Outward) {enclosing : Option FrameId}
    (he : ∀ e ∈ enclosing, e < s.frames.size) : (s.addFrame enclosing).2.Outward := by
  intro f e hf
  rw [enclosing?_addFrame] at hf
  split at hf
  next hnew =>
    subst hnew
    exact he e hf
  next => exact h f e hf

theorem Outward.define {s : Store} (h : s.Outward) (o : FrameId) (name : String) (v : Value) :
    (s.define o name v).Outward := by
  intro f e hf
  rw [enclosing?_define] at hf
  exact h f e hf

theorem Made.outward {s : Store} (h : s.Made) : s.Outward := by
  induction h with
  | empty => exact outward_empty
  | failed _ _ hdone ih =>
    rw [eq_of_failed hdone]
    exact ih
  | done _ hframe hdone ih =>
    obtain rfl | ⟨enclosing, he, rfl⟩ | ⟨o, name, v, rfl⟩ := cases_of_done hdone
    · exact ih
    · exact ih.addFrame fun e hmem => hframe e (he e hmem)
    · exact ih.define o name v

/-! ## Chains -/

theorem Outward.exists_chain {s : Store} (h : s.Outward) :
    ∀ f, f < s.frames.size → ∃ fs, s.Chain f fs := by
  intro f
  induction f using Nat.strong_induction_on with
  | _ f ih =>
    intro hf
    cases he : s.enclosing? f with
    | none => exact ⟨[f], .root hf he⟩
    | some e =>
      have hlt := h f e he
      obtain ⟨fs, hfs⟩ := ih e hlt (Nat.lt_trans hlt hf)
      exact ⟨f :: fs, .inside he hfs⟩

theorem Chain.unique {s : Store} {f : FrameId} {fs gs : List FrameId} (hf : s.Chain f fs)
    (hg : s.Chain f gs) : gs = fs := by
  induction hf generalizing gs with
  | root _ hnone =>
    cases hg with
    | root => rfl
    | inside he _ =>
      rw [hnone] at he
      cases he
  | inside he _ ih =>
    cases hg with
    | root _ hnone =>
      rw [hnone] at he
      cases he
    | inside he' hrest =>
      rw [he] at he'
      cases he'
      rw [ih hrest]

theorem Chain.le {s : Store} (h : s.Outward) {f g : FrameId} {fs : List FrameId}
    (hf : s.Chain f fs) (hg : g ∈ fs) : g ≤ f := by
  induction hf with
  | root =>
    rw [List.mem_singleton.mp hg]
  | inside he _ ih =>
    obtain rfl | hg := List.mem_cons.mp hg
    · exact Nat.le_refl _
    · exact Nat.le_trans (ih hg) (Nat.le_of_lt (h _ _ he))

theorem Chain.nodup {s : Store} (h : s.Outward) {f : FrameId} {fs : List FrameId}
    (hf : s.Chain f fs) : fs.Nodup := by
  induction hf with
  | root => exact List.nodup_singleton _
  | inside he hrest ih =>
    refine List.nodup_cons.mpr ⟨fun hmem => ?_, ih⟩
    exact Nat.not_lt_of_le (hrest.le h hmem) (h _ _ he)

/-! ## Walks outward go along the chain -/

theorem ancestor?_of_chain {s : Store} {f : FrameId} {fs : List FrameId} (hf : s.Chain f fs) :
    ∀ d, s.ancestor? d f = fs[d]? := by
  induction hf with
  | root _ hnone =>
    intro d
    cases d <;> simp [ancestor?, hnone]
  | inside he _ ih =>
    intro d
    cases d with
    | zero => rfl
    | succ d =>
      simp only [ancestor?, he, List.getElem?_cons_succ]
      exact ih d

/-- Fuel beyond the number of a frame is enough, for every link leads to a smaller number. -/
theorem ownerWithin_of_chain {s : Store} (h : s.Outward) {f : FrameId} {fs : List FrameId}
    (hf : s.Chain f fs) (name : String) : ∀ n, f < n →
    s.ownerWithin name n f = s.firstBinding? fs name := by
  induction hf with
  | @root f _ hnone =>
    intro n hn
    obtain ⟨k, rfl⟩ := Nat.exists_eq_succ_of_ne_zero (Nat.ne_zero_of_lt hn)
    cases hl : s.local? f name <;> simp [ownerWithin, firstBinding?, hl, hnone]
  | @inside f e fs he _ ih =>
    intro n hn
    obtain ⟨k, rfl⟩ := Nat.exists_eq_succ_of_ne_zero (Nat.ne_zero_of_lt hn)
    cases hl : s.local? f name with
    | some v => simp [ownerWithin, firstBinding?, hl]
    | none =>
      have hlt := h f e he
      simp only [ownerWithin, hl, he, firstBinding?, List.find?_cons, Option.isSome_none]
      exact ih k (Nat.lt_of_lt_of_le hlt (Nat.le_of_lt_succ hn))

theorem owner?_of_chain {s : Store} (h : s.Outward) {f : FrameId} {fs : List FrameId}
    (hf : s.Chain f fs) (name : String) : s.owner? f name = s.firstBinding? fs name :=
  ownerWithin_of_chain h hf name (f + 1) (Nat.lt_succ_self f)

theorem get?_of_chain {s : Store} (h : s.Outward) {f : FrameId} {fs : List FrameId}
    (hf : s.Chain f fs) (name : String) :
    s.get? f name = (s.firstBinding? fs name).bind fun o => s.local? o name := by
  unfold get?
  rw [owner?_of_chain h hf]
  cases s.firstBinding? fs name <;> rfl

theorem getAt?_of_chain {s : Store} {f : FrameId} {fs : List FrameId} (hf : s.Chain f fs)
    (d : Nat) (name : String) : s.getAt? f d name = fs[d]?.bind fun a => s.local? a name := by
  unfold getAt?
  rw [ancestor?_of_chain hf]
  cases fs[d]? <;> rfl

theorem isSome_of_firstBinding? {s : Store} {fs : List FrameId} {name : String} {o : FrameId}
    (h : s.firstBinding? fs name = some o) : (s.local? o name).isSome = true :=
  List.find?_some (p := fun f => (s.local? f name).isSome) h

theorem Chain.lt_of_mem {s : Store} {f g : FrameId} {fs : List FrameId} (hf : s.Chain f fs)
    (hg : g ∈ fs) : g < s.frames.size := by
  induction hf with
  | root hlt =>
    rw [List.mem_singleton.mp hg]
    exact hlt
  | inside he _ ih =>
    obtain rfl | hg := List.mem_cons.mp hg
    · exact lt_of_enclosing? he
    · exact ih hg

/-! ## What a written slot changes -/

theorem sets_define (s : Store) {o : FrameId} (ho : o < s.frames.size) (name : String) (v : Value) :
    s.Sets o name v (s.define o name v) where
  size := size_frames_define s o name v
  objects := rfl
  enclosing f := enclosing?_define s o f name v
  slot f m := by
    by_cases hf : f = o
    · subst hf
      rw [local?_define s f ho]
      simp only [true_and, eq_comm]
    · rw [local?_define_of_ne s (Ne.symm hf)]
      simp [hf]

namespace Sets

variable {s t : Store} {o : FrameId} {name : String} {v : Value}

theorem chain (h : s.Sets o name v t) {g : FrameId} {gs : List FrameId} (hg : s.Chain g gs) :
    t.Chain g gs := by
  induction hg with
  | root hlt hnone => exact .root (by rw [h.size]; exact hlt) (by rw [h.enclosing]; exact hnone)
  | inside he _ ih => exact .inside (by rw [h.enclosing]; exact he) ih

/-- A write to a slot that was bound leaves what is bound where. -/
theorem firstBinding? (h : s.Sets o name v t) (ho : (s.local? o name).isSome)
    (gs : List FrameId) (m : String) : t.firstBinding? gs m = s.firstBinding? gs m := by
  unfold Store.firstBinding?
  congr 1
  funext g
  rw [h.slot]
  split
  next hslot => rw [hslot.1, hslot.2, ho, Option.isSome_some]
  next => rfl

theorem get? (h : s.Sets o name v t) (hs : s.Outward) (ho : (s.local? o name).isSome)
    {g : FrameId} {gs : List FrameId} (hg : s.Chain g gs) (m : String) :
    t.get? g m = if m = name ∧ s.firstBinding? gs name = some o then some v else s.get? g m := by
  have ht : t.Outward := fun f e hf => hs f e (by rw [← h.enclosing]; exact hf)
  rw [get?_of_chain ht (h.chain hg), get?_of_chain hs hg, h.firstBinding? ho]
  by_cases hm : m = name
  · subst hm
    cases hp : s.firstBinding? gs m with
    | none => simp
    | some p => simp [h.slot]
  · cases s.firstBinding? gs m with
    | none => simp [hm]
    | some p => simp [h.slot, hm]

theorem getAt? (h : s.Sets o name v t) {g : FrameId} {gs : List FrameId} (hg : s.Chain g gs)
    (e : Nat) (m : String) :
    t.getAt? g e m = if m = name ∧ gs[e]? = some o then some v else s.getAt? g e m := by
  rw [getAt?_of_chain (h.chain hg), getAt?_of_chain hg]
  cases gs[e]? with
  | none => simp
  | some p => simp [h.slot, and_comm]

end Sets

/-! ## The owner law -/

section

variable {s : Store} {f : FrameId} {fs : List FrameId}

theorem obeys_of_chain (h : s.Outward) (hf : s.Chain f fs) : s.Obeys f fs where
  get name := by
    simp only [perform, get?_of_chain h hf]
    cases ho : s.firstBinding? fs name with
    | none => rfl
    | some o =>
      obtain ⟨v, hv⟩ := Option.isSome_iff_exists.mp (isSome_of_firstBinding? ho)
      exact ⟨v, hv, by simp [valueOf, hv]⟩
  assign name v := by
    simp only [perform, assign?, owner?_of_chain h hf]
    cases ho : s.firstBinding? fs name with
    | none => rfl
    | some o =>
      have hset := sets_define s (hf.lt_of_mem (List.mem_of_find?_eq_some ho)) name v
      refine ⟨s.define o name v, rfl, hset, fun g gs m hg => ?_⟩
      exact hset.get? h (isSome_of_firstBinding? ho) hg m
  getAt d name := by
    simp only [perform, getAt?_of_chain hf]
    cases fs[d]? <;> rfl
  assignAt d name v := by
    simp only [perform, assignAt?, ancestor?_of_chain hf]
    cases ha : fs[d]? with
    | none => rfl
    | some a =>
      have hset := sets_define s (hf.lt_of_mem (List.mem_of_getElem? ha)) name v
      exact ⟨s.define a name v, rfl, hset, fun g gs e m hg => hset.getAt? hg e m⟩

end

theorem frames_obey {s : Store} (h : s.Made) :
    (∀ request e t, perform request s = .failed e t → t = s) ∧
      ∀ f, f < s.frames.size → ∃ fs, s.Chain f fs ∧ fs.Nodup ∧ (∀ gs, s.Chain f gs → gs = fs) ∧
        s.Obeys f fs := by
  refine ⟨fun _ _ _ => eq_of_failed, fun f hf => ?_⟩
  obtain ⟨fs, hfs⟩ := h.outward.exists_chain f hf
  exact ⟨fs, hfs, hfs.nodup h.outward, fun _ => hfs.unique, obeys_of_chain h.outward hfs⟩

/-- A root that binds a name, and two frames inside it, of which the second binds the name too. -/
def branches : Store :=
  ((((empty.addFrame none).2.define 0 "a" .nil).addFrame (some 0)).2.addFrame (some 0)).2.define
    2 "a" (.bool true)

theorem made_branches : branches.Made := by
  have hroot := Made.root .empty
  have hbound := hroot.define (f := 0) (by decide) "a" .nil
  have hfirst := hbound.child (f := 0) (by decide)
  have hsecond := hfirst.child (f := 0) (by decide)
  exact hsecond.define (f := 2) (by decide) "a" (.bool true)

theorem frames_obey_branches :
    branches.Made ∧ 2 < branches.frames.size ∧ branches.Chain 2 [2, 0] ∧
      branches.Obeys 2 [2, 0] := by
  have hsize : 2 < branches.frames.size := by decide
  obtain ⟨fs, -, -, hunique, hobeys⟩ := (frames_obey made_branches).2 2 hsize
  have hchain : branches.Chain 2 [2, 0] := .inside rfl (.root (by decide) rfl)
  rw [← hunique [2, 0] hchain] at hobeys
  exact ⟨made_branches, hsize, hchain, hobeys⟩

end Store
end Lox
