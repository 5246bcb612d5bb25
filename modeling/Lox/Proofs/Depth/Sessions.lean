import Lox.Proofs.Depth.Entered
import Lox.Proofs.Dispatch.Origin

/-!
# Lox.Proofs.Depth.Sessions

Sessions keep to a chart from one run to the next (`Session.Ran.exists_settled`), and so does all
that they do (`ReachedIn.exists_fits`). The programs that a session has run are kept with it, since
the functions in memory may be of any of them.
-/

namespace Lox

open Resolve

/-! ## Sessions with their programs -/

/-- The session has run these programs, the latest first. -/
inductive Session.Ran : List (List Stmt) → Session → Prop
  | new (sink : Sink) (clock : Nat → Float) : Ran [] (.new sink clock)
  | reset {ps s} : Ran ps s → Ran ps s.reset
  | rejected {ps s source s'} : Ran ps s → s.check source = (s', none) → Ran ps s'
  | run {ps s fuel source s₁ program s' status} : Ran ps s → s.check source = (s₁, some program) →
      s.run fuel source = some (s', status) → Ran (program :: ps) s'

/-- What a session does that has run these programs, the first of them being under way. -/
inductive ReachedIn : List (List Stmt) → Activity → Machine → Prop
  | program {ps program} {s s' : Session} {source} (n : Nat) : s.Ran ps →
      s.check source = (s', some program) →
      ReachedIn (program :: ps) (.program n program) (s'.machine.loaded program)
  | enter {ps a m a' m'} : ReachedIn ps a m → Enters a m a' m' → ReachedIn ps a' m'

theorem Session.reached_iff {s : Session} : s.Reached ↔ ∃ ps, s.Ran ps := by
  constructor
  · intro h
    induction h with
    | new sink clock => exact ⟨[], .new sink clock⟩
    | reset _ ih =>
      obtain ⟨ps, hps⟩ := ih
      exact ⟨ps, hps.reset⟩
    | @run s fuel source s' status _ hrun ih =>
      obtain ⟨ps, hps⟩ := ih
      rcases hcheck : s.check source with ⟨s₁, _ | program⟩
      · rw [run_of_check_none hcheck] at hrun
        cases hrun
        exact ⟨ps, hps.rejected hcheck⟩
      · exact ⟨program :: ps, hps.run hcheck hrun⟩
  · rintro ⟨ps, h⟩
    induction h with
    | new sink clock => exact .new sink clock
    | reset _ ih => exact ih.reset
    | rejected _ hcheck ih => exact ih.run (run_of_check_none hcheck 0)
    | run _ _ hrun ih => exact ih.run hrun

/-- Nothing is reached but in a session with its programs. -/
theorem reached_iff {a : Activity} {m : Machine} : Reached a m ↔ ∃ ps, ReachedIn ps a m := by
  constructor
  · intro h
    induction h with
    | program n hs hcheck =>
      obtain ⟨ps, hps⟩ := Session.reached_iff.1 hs
      exact ⟨_, .program n hps hcheck⟩
    | enter _ he ih =>
      obtain ⟨ps, hps⟩ := ih
      exact ⟨ps, hps.enter he⟩
  · rintro ⟨ps, h⟩
    induction h with
    | program n hs hcheck => exact .program n (Session.reached_iff.2 ⟨_, hs⟩) hcheck
    | enter _ he ih => exact ih.enter he

/-! ## Between runs -/

/-- Between runs the machine has a chart, and the numbers of the programs are all used up. -/
structure Settled (ps : List (List Stmt)) (T : Table) (w : Chart) (m : Machine) : Prop where
  charted : Charted ps T w m.globals m
  numbered : Numbered ps
  below : ∀ program ∈ ps, ∀ i, 0 < timesIn i (Stmt.refsOfList program) → i < T.next

theorem Charted.runAll {ps : List (List Stmt)} {T : Table} {frame : FrameId} (n : Nat)
    (ss : List Stmt) : ∀ {w : Chart} {m : Machine}, Charted ps T w frame m → w.Stands frame {} →
    Visits ps (.stmts ss) {} →
    Charts ps T w frame (fun _ _ => True) (Eval.runAll n ss m) := by
  induction ss with
  | nil => exact fun h _ _ => .ret h trivial
  | cons s ss ih =>
    intro w m h hs hv
    have hmore := hv.part .more
    rw [Point.after_top] at hmore
    rw [Eval.runAll]
    refine ((chartsAt ps T n).execute h hs (hv.part (.inner (.head _)))).bind ?_
    exact fun w₁ _ m₁ hle₁ h₁ _ => ih h₁ (hs.mono hle₁) hmore

/-- No scope is around the globals. -/
theorem Chart.stands_top {w : Chart} {f : FrameId} (h : w.chains[f]? = some []) : w.Stands f {} :=
  ⟨[], h, rfl, trivial⟩

/-- The chart of a fresh machine: its only frame has no scope. -/
def Chart.initial : Chart where
  chains := [[]]
  bound _ _ := False
  starts f g s rest h := by
    obtain _ | f := f
    · cases h
    · cases h

theorem Chart.eq_nil_of_initial {f : FrameId} {chain : List (FrameId × Scope)}
    (h : Chart.initial.chains[f]? = some chain) : f = 0 ∧ chain = [] := by
  obtain _ | f := f
  · exact ⟨rfl, (Option.some.inj h).symm⟩
  · cases h

theorem settled_initial (sink : Sink) (clock : Nat → Float) :
    Settled [] .empty .initial (.initial sink clock) where
  charted :=
    { known := fun _ h => absurd h List.not_mem_nil
      locals := rfl
      current := rfl
      size := rfl
      globals := rfl
      root := fun f hf => by
        obtain ⟨rfl, -⟩ := Chart.eq_nil_of_initial hf
        exact ⟨rfl, rfl⟩
      link := fun f l rest hf => nomatch (Chart.eq_nil_of_initial hf).2
      names := fun f l rest hf => nomatch (Chart.eq_nil_of_initial hf).2
      bound := fun _ _ hb => hb.elim
      values := closedIn_initial (fun _ => trivial) (fun _ => trivial) sink clock }
  numbered := ⟨fun _ h => absurd h List.not_mem_nil, fun _ h => absurd h List.not_mem_nil⟩
  below _ h := absurd h List.not_mem_nil

/-- Later tables know the same programs. -/
theorem Resolve.Known.mono {ps : List (List Stmt)} {T T' : Table} (h : Known ps T)
    (hle : T.Le T') : Known ps T' := by
  intro program hp
  obtain ⟨⟨t, ht, hl⟩, hrest⟩ := h program hp
  exact ⟨⟨t, ht.trans hle, hl⟩, hrest⟩

namespace Settled

variable {ps : List (List Stmt)} {T : Table} {w : Chart} {s s₁ : Session} {source : String}
  {program : List Stmt}

/-- A source that is rejected uses up numbers, no more. -/
theorem rejected (h : Settled ps T w s.machine) (hnext : T.next = s.nextId)
    (hcheck : s.check source = (s₁, none)) :
    ∃ T', Settled ps T' w s₁.machine ∧ T'.next = s₁.nextId := by
  have hle : T.next ≤ s₁.nextId := by
    have := Session.nextId_check s source
    rw [hcheck] at this
    rw [this, hnext]
    exact Nat.le_add_right _ _
  rw [Session.machine_eq_of_check hcheck]
  refine ⟨⟨T.locals, s₁.nextId, fun i hi => T.fresh i (Nat.le_trans hle hi)⟩, ⟨?_, h.numbered, ?_⟩,
    rfl⟩
  · exact { h.charted with known := h.charted.known.mono ⟨hle, fun _ _ => rfl⟩ }
  · exact fun program hp i hi => Nat.lt_of_lt_of_le (h.below program hp i hi) hle

/-- A program that is accepted is known, and its numbers are new. -/
theorem accepted (h : Settled ps T w s.machine) (hnext : T.next = s.nextId)
    (hcheck : s.check source = (s₁, some program)) :
    ∃ T', Settled (program :: ps) T' w (s₁.machine.loaded program) ∧ T'.next = s₁.nextId := by
  obtain ⟨T', hlocals, hnext', hle, hlinked⟩ := Session.exists_table_of_check hcheck T hnext
  have htimes := Session.timesIn_of_check hcheck
  have hsub : ps ⊆ program :: ps := List.subset_cons_self _ _
  rw [Session.machine_eq_of_check hcheck]
  refine ⟨T', ⟨?_, ⟨?_, ?_⟩, ?_⟩, hnext'⟩
  · have hvalues := h.charted.values.more hsub (.refl w)
    refine { h.charted with known := ?_, locals := ?_, values := hvalues }
    · refine List.forall_mem_cons.2 ⟨⟨⟨T', .refl T', hlinked⟩, ?_, rfl⟩, h.charted.known.mono hle⟩
      show Scope.AllSub (Resolve.stmts {} [] program).1 []
      rw [(extends_stmts {} [] program).eq_nil]
      exact .nil
    · rw [hlocals, ← h.charted.locals]
      rfl
  · exact List.forall_mem_cons.2 ⟨fun i => (htimes i).1, h.numbered.once⟩
  · have hapart : ∀ program' ∈ ps, ∀ i, 0 < timesIn i (Stmt.refsOfList program) →
        0 < timesIn i (Stmt.refsOfList program') → False := by
      intro program' hp i hi hi'
      have hlt := h.below program' hp i hi'
      rw [hnext] at hlt
      exact Nat.not_le.2 hlt ((htimes i).2 hi).1
    intro p₁ hp₁ p₂ hp₂ i hi₁ hi₂
    obtain rfl | hold₁ := List.mem_cons.1 hp₁ <;> obtain rfl | hold₂ := List.mem_cons.1 hp₂
    · rfl
    · exact (hapart p₂ hold₂ i hi₁ hi₂).elim
    · exact (hapart p₁ hold₁ i hi₂ hi₁).elim
    · exact h.numbered.apart p₁ hold₁ p₂ hold₂ i hi₁ hi₂
  · refine List.forall_mem_cons.2 ⟨fun i hi => ?_, fun p hp i hi => ?_⟩
    · rw [hnext']
      exact ((htimes i).2 hi).2
    · exact Nat.lt_of_lt_of_le (h.below p hp i hi) hle.1

/-- The run of a program ends on a machine with a chart, well or not. -/
theorem ended (h : Settled ps T w m) (hp : program ∈ ps) {n : Nat} {m' : Machine}
    (hend : (Eval.runAll n program m).state? = some m') : ∃ w', Settled ps T w' m' := by
  obtain ⟨w', hle, h'⟩ := (h.charted.runAll n program (Chart.stands_top h.charted.globals)
    (.program hp)).of_state? hend
  rw [(h'.root m.globals (hle.chain h.charted.globals)).1] at h'
  exact ⟨w', h', h.numbered, h.below⟩

end Settled

theorem Session.Ran.exists_settled {ps : List (List Stmt)} {s : Session} (h : s.Ran ps) :
    ∃ T w, Settled ps T w s.machine ∧ T.next = s.nextId := by
  induction h with
  | new sink clock => exact ⟨_, _, settled_initial sink clock, rfl⟩
  | reset _ ih => exact ih
  | rejected _ hcheck ih =>
    obtain ⟨T, w, h, hnext⟩ := ih
    obtain ⟨T', h', hnext'⟩ := h.rejected hnext hcheck
    exact ⟨T', w, h', hnext'⟩
  | @run ps s fuel source s₁ program s' status _ hcheck hrun ih =>
    obtain ⟨T, w, h, hnext⟩ := ih
    obtain ⟨T', h', hnext'⟩ := h.accepted hnext hcheck
    rw [run_eq_ended hcheck] at hrun
    obtain ⟨w', h''⟩ := h'.ended List.mem_cons_self (state?_of_ended hrun)
    exact ⟨T', w', h'', hnext'.trans (nextId_of_ended hrun).symm⟩

/-- Whatever starts in a session stands in its frame. -/
theorem ReachedIn.exists_fits {ps : List (List Stmt)} {a : Activity} {m : Machine}
    (h : ReachedIn ps a m) :
    Numbered ps ∧ ∃ T w p, Charted ps T w m.current m ∧ a.Fits ps w m p := by
  induction h with
  | program n hs hcheck =>
    obtain ⟨T, w, h, hnext⟩ := hs.exists_settled
    obtain ⟨T', h', -⟩ := h.accepted hnext hcheck
    have hcurrent := h'.charted.current
    refine ⟨h'.numbered, T', w, {}, h'.charted.inFrame _, ⟨?_, rfl⟩⟩
    rintro _ ⟨⟩
    refine ⟨.program List.mem_cons_self, ?_⟩
    show w.Stands (Machine.current _) {}
    rw [hcurrent]
    exact Chart.stands_top h'.charted.globals
  | enter _ he ih =>
    obtain ⟨hn, T, w, p, h, hf⟩ := ih
    obtain ⟨w', p', h', hf', -⟩ := hf.leads h he
    exact ⟨hn, T, w', p', h', hf'⟩

end Lox
