import Lox.Proofs.Depth.Sessions
import Lox.Proofs.Memory.Owner

/-!
# Lox.Proofs.Depth.Aligned

Scopes and frames, side by side. The frames outward from one are aligned with the scopes of a point
if there are as many of them below the globals, and each binds names of its scope, at least those
that the walk has defined there (`Machine.Aligned`). Whatever code a session runs, its frame is
aligned with the point at which the walk came to it, and so is the frame of every function with the
point of its declaration (`frames_aligned`).
-/

namespace Lox

open Resolve

/-! ## Alignment -/

/-- These are the frames outward from one, below the globals, and there is one for each scope of the
point. -/
structure Machine.AlignedOver (m : Machine) (f : FrameId) (p : Point) (frames : List FrameId) :
    Prop where
  chain : m.store.Chain f (frames ++ [m.globals])
  acyclic : (frames ++ [m.globals]).Nodup
  depth : frames.length = p.scopes.length
  whole : p.whole.length = p.scopes.length
  /-- A frame binds only names that are declared somewhere in its scope. -/
  names : ∀ (k : Nat) (frame : FrameId) (scope : Scope), frames[k]? = some frame →
    p.whole[k]? = some scope → ∀ x v, m.store.local? frame x = some v → scope.contains x = true
  /-- A frame binds what the walk has defined in its scope, but for the class whose superclass is
  evaluated. -/
  defined : ∀ (k : Nat) (frame : FrameId) (scope : Scope), frames[k]? = some frame →
    p.scopes[k]? = some scope → ∀ x, scope.find? x = some true →
    ¬(k = 0 ∧ p.clauseOf = some x) → ∃ v, m.store.local? frame x = some v

/-- The frames outward from this one are aligned with the scopes of the point. -/
def Machine.Aligned (m : Machine) (f : FrameId) (p : Point) : Prop :=
  ∃ frames, m.AlignedOver f p frames

theorem Chart.Backs.length_eq {w : Chart} : ∀ {without : Option String}
    {chain : List (FrameId × Scope)} {scopes : List Scope}, w.Backs without chain scopes →
    chain.length = scopes.length
  | _, [], [], _ => rfl
  | _, _ :: _, _ :: _, h => congrArg Nat.succ h.2.length_eq

theorem Chart.Backs.bound {w : Chart} {x : String} : ∀ {without : Option String}
    {chain : List (FrameId × Scope)} {scopes : List Scope} {k : Nat} {l : FrameId × Scope}
    {s : Scope}, w.Backs without chain scopes → chain[k]? = some l → scopes[k]? = some s →
    s.find? x = some true → ¬(k = 0 ∧ without = some x) → w.bound l.1 x
  | without, _ :: _, _ :: _, 0, _, _, h, hl, hs, hx, hne => by
    cases hl
    cases hs
    exact h.1 x hx fun hwithout => hne ⟨rfl, hwithout⟩
  | _, _ :: _, _ :: _, k + 1, _, _, h, hl, hs, hx, _ => h.2.bound hl hs hx nofun

namespace Charted

variable {ps : List (List Stmt)} {T : Table} {w : Chart} {frame : FrameId} {m : Machine}

/-- The frames of the chart are those outward. -/
theorem storeChain (h : Charted ps T w frame m) : ∀ {chain : List (FrameId × Scope)} {f : FrameId},
    w.chains[f]? = some chain → m.store.Chain f (chain.map Prod.fst ++ [m.globals])
  | [], f, hf => by
    obtain ⟨rfl, hroot⟩ := h.root f hf
    exact .root (h.lt_of_chain hf) hroot
  | (g, s) :: rest, f, hf => by
    obtain ⟨e, he, hrest⟩ := h.link f _ _ hf
    obtain rfl := w.starts f g s rest hf
    exact .inside he (h.storeChain hrest)

/-- What is outward from a frame of a chain is the rest of the chain. -/
theorem exists_suffix (h : Charted ps T w frame m) {l : FrameId × Scope} :
    ∀ {chain : List (FrameId × Scope)} {f : FrameId}, w.chains[f]? = some chain → l ∈ chain →
    ∃ rest, w.chains[l.1]? = some (l :: rest) ∧ (l :: rest) <:+ chain
  | (g, s) :: rest, f, hf, hl => by
    obtain rfl | hl := List.mem_cons.1 hl
    · obtain rfl := w.starts f g s rest hf
      exact ⟨rest, hf, List.suffix_rfl⟩
    · obtain ⟨e, -, hrest⟩ := h.link f _ _ hf
      obtain ⟨rest', hl', hsuffix⟩ := h.exists_suffix hrest hl
      exact ⟨rest', hl', hsuffix.trans (List.suffix_cons _ _)⟩

/-- No frame is outward from itself. -/
theorem nodup (h : Charted ps T w frame m) : ∀ {chain : List (FrameId × Scope)} {f : FrameId},
    w.chains[f]? = some chain → (chain.map Prod.fst ++ [m.globals]).Nodup
  | [], _, _ => List.nodup_singleton _
  | (g, s) :: rest, f, hf => by
    obtain ⟨e, -, hrest⟩ := h.link f _ _ hf
    obtain rfl := w.starts f g s rest hf
    -- The chain from a frame is longer than that from any frame further outward.
    refine List.nodup_cons.2 ⟨fun hmem => ?_, h.nodup hrest⟩
    obtain hmem | hmem := List.mem_append.1 hmem
    · obtain ⟨l, hl, rfl⟩ := List.mem_map.1 hmem
      obtain ⟨rest', hl', hsuffix⟩ := h.exists_suffix hrest hl
      have heq := Option.some.inj (hf.symm.trans hl')
      have hle := hsuffix.length_le
      rw [← heq, List.length_cons] at hle
      exact Nat.not_succ_le_self _ hle
    · obtain rfl : g = m.globals := List.mem_singleton.1 hmem
      rw [h.globals] at hf
      cases hf

/-- Code that stands in a frame has its scopes aligned with the frames outward. -/
theorem aligned (h : Charted ps T w frame m) {f : FrameId} {p : Point} (hs : w.Stands f p) :
    m.Aligned f p := by
  obtain ⟨chain, hchain, hwhole, hbacks⟩ := hs
  have hlength := hbacks.length_eq
  refine ⟨chain.map Prod.fst, h.storeChain hchain, h.nodup hchain, ?_, ?_, ?_, ?_⟩
  · rw [List.length_map, hlength]
  · rw [← hwhole, List.length_map, hlength]
  · intro k g scope hg hscope x v hv
    rw [List.getElem?_map] at hg
    obtain ⟨l, hl, rfl⟩ := Option.map_eq_some_iff.1 hg
    rw [← hwhole, List.getElem?_map, hl] at hscope
    cases hscope
    obtain ⟨rest, hrest, -⟩ := h.exists_suffix hchain (List.mem_of_getElem? hl)
    exact h.names l.1 l rest hrest x v hv
  · intro k g scope hg hscope x hx hne
    rw [List.getElem?_map] at hg
    obtain ⟨l, hl, rfl⟩ := Option.map_eq_some_iff.1 hg
    exact h.bound l.1 x (hbacks.bound hl hscope hx hne)

end Charted

/-! ## What is done at points -/

/-- What an activity at a point does itself, without what the functions do that it calls. The point
of each part is where the walk goes on to. -/
inductive Does : Activity → Machine → Point → Activity → Machine → Point → Prop
  | start (a : Activity) (m : Machine) (p : Point) : Does a m p a m p
  | enter {a m p a₁ m₁ p₁ a₂ m₂ p₂ c₁ c₂} : Does a m p a₁ m₁ p₁ → Enters a₁ m₁ a₂ m₂ →
      a₁.code? = some c₁ → a₂.code? = some c₂ → Moves c₁ p₁ c₂ p₂ → Does a m p a₂ m₂ p₂

section

variable {ps : List (List Stmt)} {T : Table} {w : Chart} {m m' : Machine} {a a' : Activity}
  {p p' : Point}

theorem Does.exists_fits (hd : Does a m p a' m' p') (h : Charted ps T w m.current m)
    (hf : a.Fits ps w m p) : ∃ w', Charted ps T w' m'.current m' ∧ a'.Fits ps w' m' p' := by
  induction hd with
  | start => exact ⟨w, h, hf⟩
  | enter _ he hc₁ hc₂ hmoves ih =>
    obtain ⟨w₁, h₁, hf₁⟩ := ih
    obtain ⟨w₂, p', h₂, hf₂, hleads⟩ := hf₁.leads h₁ he
    have hfits := (hf₁.code _ hc₁).1.fits h₁.known
    obtain rfl := Moves.point_eq hfits (hleads _ _ hc₁ hc₂) hmoves
    exact ⟨w₂, h₂, hf₂⟩

/-- What an activity does itself runs code. -/
theorem Does.exists_code (hd : Does a m p a' m' p') {c : Code} (hc : a.code? = some c) :
    ∃ c', a'.code? = some c' := by
  cases hd with
  | start => exact ⟨c, hc⟩
  | enter _ _ _ hc' _ => exact ⟨_, hc'⟩

end

/-! ## Sessions -/

/-- The walk comes to the code at this point, and nowhere else if there is a reference in it. -/
def IsPointOf (ps : List (List Stmt)) (c : Code) (p : Point) : Prop :=
  Visits ps c p ∧ (c.refs ≠ [] → ∀ q, Visits ps c q → q = p)

/-- The frame of the function is aligned with the point of its declaration. -/
def Closure.Aligned (ps : List (List Stmt)) (f : Closure) (m : Machine) : Prop :=
  ∃ q, IsPointOf ps (.decl f.decl) q ∧ m.Aligned f.env q

/-- The function is the value of a variable or of a field. -/
def Machine.HasFunction (m : Machine) (f : Closure) : Prop :=
  (∃ frame name, m.store.local? frame name = some (.function f)) ∨
    ∃ o name, m.store.field? o name = some (.function f)

section

variable {ps : List (List Stmt)} {T : Table} {w : Chart} {frame : FrameId} {m : Machine}
  {f : Closure}

theorem Resolve.Visits.isPointOf {c : Code} {p : Point} (h : Visits ps c p) (hk : Known ps T)
    (hn : Numbered ps) : IsPointOf ps c p :=
  ⟨h, fun hrefs _ hq => hq.unique hk hn h hrefs⟩

theorem Charted.aligned_of_stands (h : Charted ps T w frame m) (hn : Numbered ps)
    (hf : f.Stands ps w) : f.Aligned ps m := by
  obtain ⟨q, hq, hs⟩ := hf
  exact ⟨q, hq.isPointOf h.known hn, h.aligned hs⟩

theorem Charted.aligned_of_hasFunction (h : Charted ps T w frame m) (hn : Numbered ps)
    (hf : m.HasFunction f) : f.Aligned ps m := by
  obtain ⟨g, x, hx⟩ | ⟨o, x, hx⟩ := hf
  · exact h.aligned_of_stands hn (h.values.bound g x _ trivial hx)
  · exact h.aligned_of_stands hn (h.values.field o x _ trivial hx)

end

/-- Depth and names agree. Whatever code a session runs has a point, and all that this code does
itself it does in frames that are aligned with the points to which the walk goes on from there; a
whole program is at the top. Every function in memory, and every one that an expression gives,
closes over a frame that is aligned with the point of its declaration, during the runs of a session
and between them. -/
theorem frames_aligned :
    (∀ ps a m, ReachedIn ps a m →
      (∀ c, a.code? = some c → ∃ p, IsPointOf ps c p ∧ (∀ n ss, a = .program n ss → p = {}) ∧
        ∀ a' m' p', Does a m p a' m' p' → m'.Aligned (a'.frame m') p') ∧
      (∀ f, m.HasFunction f → f.Aligned ps m) ∧
      ∀ n e f m', a = .evaluate n e → Eval.evaluate n e m = .done (.function f) m' →
        f.Aligned ps m') ∧
    ∀ ps s, Session.Ran ps s → ∀ f, s.machine.HasFunction f → f.Aligned ps s.machine := by
  refine ⟨fun ps a m h => ?_, fun ps s h f hf => ?_⟩
  · obtain ⟨hn, T, w, p, hcharted, hfits⟩ := h.exists_fits
    refine ⟨fun c hc => ?_, fun f hf => hcharted.aligned_of_hasFunction hn hf, ?_⟩
    · obtain ⟨hv, -⟩ := hfits.code c hc
      refine ⟨p, hv.isPointOf hcharted.known hn, ?_, fun a' m' p' hd => ?_⟩
      · rintro n ss rfl
        exact hfits.given
      · obtain ⟨w', h', hfits'⟩ := hd.exists_fits hcharted hfits
        obtain ⟨c', hc'⟩ := hd.exists_code hc
        exact h'.aligned (hfits'.code c' hc').2
    · rintro n e f m' rfl hdone
      obtain ⟨hv, hs⟩ := hfits.code _ rfl
      obtain ⟨w', -, h', hin⟩ := ((chartsAt ps T n).evaluate hcharted hs hv).of_done hdone
      exact h'.aligned_of_stands hn hin
  · obtain ⟨T, w, hsettled, -⟩ := h.exists_settled
    exact hsettled.charted.aligned_of_hasFunction hsettled.numbered hf

theorem exists_check_local (sink : Sink) (clock : Nat → Float) :
    ∃ s, s.machine = .initial sink clock ∧
      (Session.new sink clock).check "\x7bvar a;fun f()\x7ba;\x7df();\x7d" =
        (s, some [.block [.var ⟨.identifier, "a", none, 1⟩ none,
          .function ⟨⟨.identifier, "f", none, 1⟩, [],
            [.expression (.var 9 ⟨.identifier, "a", none, 1⟩)]⟩,
          .expression (.call (.var 12 ⟨.identifier, "f", none, 1⟩)
            ⟨.rightParen, ")", none, 1⟩ [])]]) :=
  ⟨_, Session.machine_check _ _, Prod.ext rfl (by cbv)⟩

/-- A function of a block reads a variable of the block. -/
theorem frames_aligned_local :
    ∃ ps f m q m' p', ReachedIn ps (.callFunction 5 f []) m ∧ Visits ps (.decl f.decl) q ∧
      q.scopes.length = 1 ∧ m.Aligned f.env q ∧
      Does (.callFunction 5 f []) m q (.evaluate 2 (.var 9 ⟨.identifier, "a", none, 1⟩)) m' p' ∧
      p'.scopes.length = 2 ∧ m'.Aligned m'.current p' := by
  obtain ⟨s, hmachine, hcheck⟩ := exists_check_local {} fun _ => 0
  have hprogram := ReachedIn.program 13 (.new {} fun _ => 0) hcheck
  rw [hmachine] at hprogram
  have hstatement := (hprogram.enter .programHead).enter .statement
  have hfirst := hstatement.enter (.block rfl)
  have hrest := (hfirst.enter (.moreStatements rfl)).enter (.moreStatements rfl)
  have hcall := (hrest.enter .firstStatement).enter .expression
  have hfunction := ((hcall.enter (.invoke rfl rfl)).enter (.call rfl rfl)).enter .function
  obtain ⟨_, ⟨htop, -⟩, hempty, -⟩ := (frames_aligned.1 _ _ _ hprogram).1 _ rfl
  obtain rfl := hempty _ _ rfl
  have hblock := (htop.part (.inner (.head _))).part .block
  have hdecl := ((hblock.part .more).part (.inner (.head _))).part .function
  obtain ⟨q, ⟨hq, hunique⟩, -, hdoes⟩ := (frames_aligned.1 _ _ _ hfunction).1 _ rfl
  obtain rfl := hunique (List.cons_ne_nil _ _) _ hdecl
  have hboth := fun a' m' p' h => And.intro h (hdoes a' m' p' h)
  obtain ⟨hread, haligned⟩ := hboth _ _ _ ((((Does.start _ _ _).enter (.body rfl rfl) rfl rfl
    (.inr .body)).enter .firstStatement rfl rfl (.inr (.inner (.head _)))).enter .expression
    rfl rfl (.inr (.inner (.head _))))
  exact ⟨_, _, _, _, _, _, hfunction, hq, rfl, hdoes _ _ _ (.start _ _ _), hread, rfl, haligned⟩

end Lox
