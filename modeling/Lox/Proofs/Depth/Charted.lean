import Lox.Proofs.Depth.Chart

/-!
# Lox.Proofs.Depth.Charted

Machines with a chart. The links between frames are those of the chart, a frame binds no name but
those of its scope when that is whole, and all functions and methods in memory stand in the frames
that they close over (`Charted`). What evaluations do to memory has its counterpart on the chart.
-/

namespace Lox

open Resolve

/-! ## Functions and methods -/

/-- The function stands in the frame that it closes over. -/
def Closure.Stands (ps : List (List Stmt)) (w : Chart) (f : Closure) : Prop :=
  ∃ q, Visits ps (.decl f.decl) q ∧ w.Stands f.env q

/-- The method will stand in a frame that has the receiver. -/
def Closure.StandsUnbound (ps : List (List Stmt)) (w : Chart) (f : Closure) : Prop :=
  ∃ q : Point, Visits ps (.decl f.decl) (q.wrap thisScope) ∧ w.Stands f.env q

/-- All of memory, with the functions and methods that stand in their frames. -/
def Chart.region (ps : List (List Stmt)) (w : Chart) : Region where
  frame _ := True
  object _ := True
  function f := f.Stands ps w
  method f := f.StandsUnbound ps w

theorem Class.In.mono {r r' : Region} (h : ∀ f, r.method f → r'.method f) {c : Class}
    (hc : c.In r) : c.In r' := by
  induction c with
  | base name methods => exact fun n f hf => h f (hc n f hf)
  | derived name c methods ih => exact ⟨ih hc.1, fun n f hf => h f (hc.2 n f hf)⟩

section

variable {ps ps' : List (List Stmt)} {w w' : Chart}

theorem Closure.Stands.mono {f : Closure} (hps : ps ⊆ ps') (h : w.Le w') (hf : f.Stands ps w) :
    f.Stands ps' w' := by
  obtain ⟨q, hq, hs⟩ := hf
  exact ⟨q, hq.mono hps, hs.mono h⟩

theorem Closure.StandsUnbound.mono {f : Closure} (hps : ps ⊆ ps') (h : w.Le w')
    (hf : f.StandsUnbound ps w) : f.StandsUnbound ps' w' := by
  obtain ⟨q, hq, hs⟩ := hf
  exact ⟨q, hq.mono hps, hs.mono h⟩

/-- Functions stand where they do when there are more programs and the chart is a later one. -/
theorem Value.In.more (hps : ps ⊆ ps') (h : w.Le w') {v : Value} (hv : v.In (w.region ps)) :
    v.In (w'.region ps') := by
  have hmethod : ∀ f, (w.region ps).method f → (w'.region ps').method f :=
    fun _ hf => Closure.StandsUnbound.mono hps h hf
  cases v with
  | function f => exact Closure.Stands.mono hps h hv
  | cls c => exact Class.In.mono hmethod hv
  | object c o => exact ⟨Class.In.mono hmethod hv.1, trivial⟩
  | _ => trivial

theorem Value.In.mono (h : w.Le w') {v : Value} (hv : v.In (w.region ps)) :
    v.In (w'.region ps) :=
  hv.more (List.Subset.refl ps) h

theorem Store.ClosedIn.more (hps : ps ⊆ ps') (hle : w.Le w') {s : Store}
    (h : s.ClosedIn (w.region ps)) : s.ClosedIn (w'.region ps') where
  enclosing _ _ _ _ := trivial
  bound f x v _ hv := Value.In.more hps hle (h.bound f x v trivial hv)
  field o x v _ hv := Value.In.more hps hle (h.field o x v trivial hv)
  newFrame _ _ := trivial
  newObject _ _ := trivial

end

/-! ## Machines -/

/-- The machine has the chart and runs in this frame, and the programs are linked in its table. -/
structure Charted (ps : List (List Stmt)) (T : Table) (w : Chart) (frame : FrameId) (m : Machine) :
    Prop where
  known : Known ps T
  locals : m.locals = T.locals
  current : m.current = frame
  size : w.chains.length = m.store.frames.size
  globals : w.chains[m.globals]? = some []
  root : ∀ f : FrameId, w.chains[f]? = some [] → f = m.globals ∧ m.store.enclosing? f = none
  link : ∀ (f : FrameId) l rest, w.chains[f]? = some (l :: rest) →
    ∃ e, m.store.enclosing? f = some e ∧ w.chains[e]? = some rest
  names : ∀ (f : FrameId) l rest, w.chains[f]? = some (l :: rest) →
    ∀ x v, m.store.local? f x = some v → l.2.contains x = true
  bound : ∀ f x, w.bound f x → ∃ v, m.store.local? f x = some v
  values : m.store.ClosedIn (w.region ps)

namespace Charted

variable {ps : List (List Stmt)} {T : Table} {w w' : Chart} {frame : FrameId} {m : Machine}
  {f e : FrameId} {chain : List (FrameId × Scope)}

theorem inFrame (h : Charted ps T w frame m) (f : FrameId) :
    Charted ps T w f { m with current := f } :=
  { h with current := rfl }

theorem inWorld (h : Charted ps T w frame m) (o : World) :
    Charted ps T w frame { m with toWorld := o } :=
  { h with }

theorem lt_of_chain (h : Charted ps T w frame m) (hf : w.chains[f]? = some chain) :
    f < m.store.frames.size := by
  rw [← h.size]
  exact (List.getElem?_eq_some_iff.1 hf).1

/-- Frames have the enclosing frames that the chart has for them. -/
theorem exists_ancestor (h : Charted ps T w frame m) : ∀ {d : Nat} {f : FrameId}
    {chain : List (FrameId × Scope)}, w.chains[f]? = some chain → d < chain.length →
    ∃ a l rest, m.store.ancestor? d f = some a ∧ w.chains[a]? = some (l :: rest) ∧
      chain[d]? = some l
  | _, _, [], _, hd => absurd hd (Nat.not_lt_zero _)
  | 0, f, l :: rest, hf, _ => ⟨f, l, rest, rfl, hf, rfl⟩
  | d + 1, f, l :: rest, hf, hd => by
    obtain ⟨e, he, hrest⟩ := h.link f l rest hf
    obtain ⟨a, l', rest', ha, hchain, hl⟩ := h.exists_ancestor hrest (Nat.lt_of_succ_lt_succ hd)
    refine ⟨a, l', rest', ?_, hchain, hl⟩
    unfold Store.ancestor?
    rw [he]
    exact ha

/-- Global names are bound in the frame of the globals alone. -/
theorem eq_globals_of_owner? (h : Charted ps T w frame m) {name : String} {o : FrameId}
    (ho : m.store.owner? m.globals name = some o) : o = m.globals := by
  have hroot := (h.root m.globals h.globals).2
  unfold Store.owner? Store.ownerWithin at ho
  rw [hroot] at ho
  split at ho
  · exact (Option.some.inj ho).symm
  · cases ho

theorem closed_mono (h : Charted ps T w frame m) (hle : w.Le w') :
    m.store.ClosedIn (w'.region ps) :=
  h.values.more (List.Subset.refl ps) hle

/-- A name is bound that the scope of the frame will have. -/
theorem define (h : Charted ps T w frame m) (hf : w.chains[f]? = some chain) {x : String}
    (hx : ∀ l rest, chain = l :: rest → l.2.contains x = true) {v : Value}
    (hv : v.In ((w.bind f x).region ps)) :
    Charted ps T (w.bind f x) frame { m with store := m.store.define f x v } where
  known := h.known
  locals := h.locals
  current := h.current
  size := h.size.trans (Store.size_frames_define _ _ _ _).symm
  globals := h.globals
  root g hg := by
    rw [Store.enclosing?_define]
    exact h.root g hg
  link g l rest hg := by
    simp only [Store.enclosing?_define]
    exact h.link g l rest hg
  names g l rest hg y u hu := by
    by_cases hgf : f = g
    · subst hgf
      rw [Store.local?_define _ _ (h.lt_of_chain hf)] at hu
      split at hu
      · rename_i hxy
        rw [← hxy]
        exact hx l rest (Option.some.inj (hf.symm.trans hg))
      · exact h.names f l rest hg y u hu
    · rw [Store.local?_define_of_ne _ hgf] at hu
      exact h.names g l rest hg y u hu
  bound g y hb := by
    by_cases hgf : f = g
    · subst hgf
      rw [Store.local?_define _ _ (h.lt_of_chain hf)]
      split
      · exact ⟨v, rfl⟩
      · rename_i hne
        obtain ⟨-, rfl⟩ | hb := hb
        · exact absurd rfl hne
        · exact h.bound f y hb
    · rw [Store.local?_define_of_ne _ hgf]
      obtain ⟨rfl, -⟩ | hb := hb
      · exact absurd rfl hgf
      · exact h.bound g y hb
  values := (h.closed_mono (w.le_bind f x)).define f x hv

/-- A new frame for a scope. -/
theorem addFrame (h : Charted ps T w frame m) (he : w.chains[e]? = some chain) (s : Scope) :
    Charted ps T (w.addFrame s chain) frame { m with store := (m.store.addFrame (some e)).2 } where
  known := h.known
  locals := h.locals
  current := h.current
  size := by
    simp [Chart.addFrame, Store.addFrame, h.size]
  globals := (w.le_addFrame s chain).chain h.globals
  root g hg := by
    rw [Store.enclosing?_addFrame, ← h.size]
    by_cases hnew : g = w.chains.length
    · subst hnew
      rw [w.chain_addFrame s chain] at hg
      cases hg
    · rw [if_neg hnew]
      exact h.root g (w.chain_of_addFrame hnew hg)
  link g l rest hg := by
    rw [Store.enclosing?_addFrame, ← h.size]
    by_cases hnew : g = w.chains.length
    · subst hnew
      rw [w.chain_addFrame s chain] at hg
      cases hg
      rw [if_pos rfl]
      exact ⟨e, rfl, (w.le_addFrame s chain).chain he⟩
    · rw [if_neg hnew]
      obtain ⟨e', he', hrest⟩ := h.link g l rest (w.chain_of_addFrame hnew hg)
      exact ⟨e', he', (w.le_addFrame s chain).chain hrest⟩
  names g l rest hg y u hu := by
    rw [Store.local?_addFrame] at hu
    have hlt := Store.lt_of_local? hu
    rw [← h.size] at hlt
    exact h.names g l rest (w.chain_of_addFrame (Nat.ne_of_lt hlt) hg) y u hu
  bound g y hb := by
    rw [Store.local?_addFrame]
    exact h.bound g y hb
  values := (h.closed_mono (w.le_addFrame s chain)).addFrame trivial

theorem setField (h : Charted ps T w frame m) (o : ObjectId) (name : String) {v : Value}
    (hv : v.In (w.region ps)) :
    Charted ps T w frame { m with store := m.store.setField o name v } :=
  { h with values := h.values.setField o name hv }

theorem addObject (h : Charted ps T w frame m) :
    Charted ps T w frame { m with store := m.store.addObject.2 } :=
  { h with values := h.values.addObject }

end Charted

end Lox
