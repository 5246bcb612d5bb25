import Lox.Proofs.Lexical.Sessions
import Lox.Proofs.Parse.Renumbered
import Lox.Proofs.Rename.Sessions

/-!
# Lox.Proofs.Rename.Counted

Sessions that number references by a counter. To whatever is asked of them they report what sessions
report whose references have the stamps of their tokens (`Session.reportsCounted_eq`): a source gets
the same errors, or programs that are twins, and references that are twins have the same distances.
-/

namespace Lox

open Resolve (findings distanceIn?)

namespace Session

variable {μ : Type}

/-- The checks of a source once it has been parsed. References are numbered on from `nextId`. -/
def checkParse (s : Session μ) (source : String) (parse : Parse) (nextId : RefId) :
    Session μ × Option (List Stmt) :=
  let s := { s with
    nextId := nextId
    diagnostics := (s.diagnostics.reportAll (Token.scanErrors source)).reportAll parse.errors }
  if s.diagnostics.hasStaticError then (s, none)
  else
    let s := { s with diagnostics := s.diagnostics.reportAll (Resolve.errors parse.statements) }
    if s.diagnostics.hasStaticError then (s, none)
    else (s, some parse.statements)

theorem check_eq_checkParse (s : Session μ) (source : String) :
    s.check source = s.checkParse source (Parse.ofTokens s.nextId (Token.scan source))
      (Parse.nextId s.nextId (Token.scan source)) := rfl

/-- `check`, with references numbered by the counter. -/
def checkCounted (s : Session μ) (source : String) : Session μ × Option (List Stmt) :=
  let r := Parse.counted s.nextId (Token.scan source)
  s.checkParse source r.1 r.2

/-- `run`, with references numbered by the counter. -/
def runCounted (fuel : Nat) (s : Session) (source : String) : Option (Session × RunStatus) :=
  match s.checkCounted source with
  | (s, none) => some (s, .staticError)
  | (s, some program) => s.ended (Eval.runAll fuel program (s.machine.loaded program))

def reportsCounted (fuel : Nat) : Session → List Request → List (Option Report)
  | _, [] => []
  | s, .reset :: rest => s.reset.reportsCounted fuel rest
  | s, .run source :: rest =>
    match s.runCounted fuel source with
    | none => [none]
    | some (s, status) =>
      some { status := status, printed := s.machine.sink.written,
             errors := s.diagnostics.errors } :: s.reportsCounted fuel rest

end Session

/-! ## Programs with other numbers -/

namespace Resolve

variable {f : RefId → RefId}

/-- An error names tokens only. -/
theorem errors_renumber (program : List Stmt) :
    errors (Stmt.relabelList (.renumber f) program) = errors program := by
  rw [errors, errors, findings_relabel, List.filterMap_map]
  congr 1
  funext finding
  cases finding with
  | bound => rfl
  | violation => rfl

theorem distanceIn?_bound_cons (i j : RefId) (d : Nat) (fs : List Finding) :
    distanceIn? i (.bound j d :: fs) = if j = i then some d else distanceIn? i fs := by
  simp [distanceIn?, entryOf?, Locals.findAmong?]

/-- References that are kept apart keep their distances. -/
theorem distanceIn?_renumber {i : RefId} {fs : List Finding}
    (h : ∀ j, distanceIn? j fs ≠ none → f j = f i → j = i) :
    distanceIn? (f i) (fs.map (Finding.relabel (.renumber f))) = distanceIn? i fs := by
  induction fs with
  | nil => rfl
  | cons finding fs ih =>
    cases finding with
    | violation token problem => exact ih h
    | bound j d =>
      simp only [distanceIn?_bound_cons] at h
      have hfirst : f j = f i ↔ j = i := by
        refine ⟨h j ?_, fun heq => heq ▸ rfl⟩
        rw [if_pos rfl]
        exact nofun
      have hrest : distanceIn? (f i) (fs.map (Finding.relabel (.renumber f))) =
          distanceIn? i fs := by
        refine ih fun k hk => h k ?_
        split
        · exact nofun
        · exact hk
      rw [distanceIn?_bound_cons, List.map_cons, Finding.relabel, distanceIn?_bound_cons, hrest]
      exact if_congr hfirst rfl rfl

end Resolve

theorem mem_idsOf_renumber {f : RefId → RefId} {program : List Stmt} {j : RefId} :
    j ∈ idsOf (Stmt.refsOfList (Stmt.relabelList (.renumber f) program)) ↔
      ∃ i ∈ idsOf (Stmt.refsOfList program), f i = j := by
  rw [Stmt.idsOf_refsOfList_relabel]
  exact List.mem_map

namespace Session

variable {w : Renaming} {s s' s₁ : Session} {source : String}

/-- With the counter a source gets the same errors, and its program other numbers. -/
theorem checkCounted_eq (hd : s'.diagnostics = s.diagnostics) (source : String) :
    ∃ f : RefId → RefId,
      Set.InjOn f {i | i ∈ idsOf (Stmt.refsOfList
        (Parse.ofTokens s.nextId (Token.scan source)).statements)} ∧
      (Parse.counted s'.nextId (Token.scan source)).1.statements =
        Stmt.relabelList (.renumber f) (Parse.ofTokens s.nextId (Token.scan source)).statements ∧
      s'.checkCounted source =
        ({ s' with
            diagnostics := (s.check source).1.diagnostics
            nextId := (Parse.counted s'.nextId (Token.scan source)).2 },
          (s.check source).2.map (Stmt.relabelList (.renumber f))) := by
  obtain ⟨f, hf, hstatements, herrors⟩ :=
    Parse.counted_renumbers s.nextId s'.nextId (Token.scan source)
  refine ⟨f, hf, hstatements, ?_⟩
  rw [checkCounted, check_eq_checkParse]
  simp only [checkParse, hd, hstatements, herrors, Resolve.errors_renumber]
  split
  · rfl
  · split
    · rfl
    · rfl

/-- The program with the counter's numbers is the twin of the other one. -/
theorem Twin.renumbered (h : s.Twin w s') {program : List Stmt} {f : RefId → RefId} {next : RefId}
    (hc : s.check source = (s₁, some program))
    (hf : Set.InjOn f {i | i ∈ idsOf (Stmt.refsOfList program)}) (hnext : s'.nextId ≤ next)
    (hrange : ∀ i ∈ idsOf (Stmt.refsOfList program), s'.nextId ≤ f i ∧ f i < next) :
    ∃ w', w'.left.next = s₁.nextId ∧ w'.right.next = next ∧
      (s.machine.loaded program).Twin w'
        (s'.machine.loaded (Stmt.relabelList (.renumber f) program)) ∧
      Stmt.AllTwin w'.pairs program (Stmt.relabelList (.renumber f) program) := by
  have hids (i : RefId) : 0 < timesIn i (Stmt.refsOfList program) ↔
      i ∈ idsOf (Stmt.refsOfList program) := List.count_pos_iff
  have hleft (i : RefId) (hi : i ∈ idsOf (Stmt.refsOfList program)) :
      s.nextId ≤ i ∧ i < s₁.nextId := (timesIn_of_check hc i).2 ((hids i).2 hi)
  obtain ⟨t, hlocals, htnext, hle, -⟩ := exists_table_of_check hc w.left h.left
  have hright (j : RefId)
      (hj : 0 < timesIn j (Stmt.refsOfList (Stmt.relabelList (.renumber f) program))) :
      w.right.next ≤ j ∧ j < next := by
    obtain ⟨i, hi, rfl⟩ := mem_idsOf_renumber.1 (List.count_pos_iff.1 hj)
    exact h.right ▸ hrange i hi
  obtain ⟨t', hlocals', htnext', hle'⟩ := exists_table_of_range w.right (h.right ▸ hnext) hright
  have hdistance {i : RefId} (hi : i ∈ idsOf (Stmt.refsOfList program)) :
      t'.locals.find? (f i) = t.locals.find? i := by
    rw [hlocals, hlocals', find?_merge_ofProgram _ _ (h.right ▸ (hrange i hi).1),
      find?_merge_ofProgram _ _ (h.left ▸ (hleft i hi).1), Resolve.findings_relabel]
    refine Resolve.distanceIn?_renumber fun j hj hij => hf ?_ hi hij
    by_contra hmem
    exact hj (Resolve.within_stmts {} [] program j (Nat.eq_zero_of_not_pos (mt (hids j).1 hmem)))
  let w' := w.extendBy t t' (fun i j => i ∈ idsOf (Stmt.refsOfList program) ∧ j = f i) hle hle'
    (by
      rintro a b i _ hp ⟨hi, rfl⟩
      obtain ⟨ha, hb, -⟩ := w.known hp
      rw [h.left] at ha
      rw [h.right] at hb
      exact ⟨Nat.ne_of_lt (Nat.lt_of_lt_of_le ha (hleft i hi).1),
        Nat.ne_of_lt (Nat.lt_of_lt_of_le hb (hrange i hi).1)⟩)
    (by
      rintro i _ ⟨hi, rfl⟩
      exact ⟨htnext ▸ (hleft i hi).2, htnext' ▸ (hrange i hi).2, hdistance hi⟩)
    (by
      rintro i _ j _ ⟨hi, rfl⟩ ⟨hj, rfl⟩
      exact (hf.eq_iff hi hj).symm)
  have hw : w.Le w' := ⟨hle, hle', .inl⟩
  have hmachine := h.machine.withTables hw
  rw [show w'.left.locals = _ from hlocals, show w'.right.locals = _ from hlocals',
    ← h.machine.left, ← h.machine.right] at hmachine
  refine ⟨w', htnext, htnext', hmachine, Stmt.allTwin_relabel fun x hx => .inr ⟨?_, rfl⟩⟩
  exact List.mem_map_of_mem hx

/-- A source runs alike on both. -/
theorem Twin.runCounted (h : s.Twin w s') (hd : s'.diagnostics = s.diagnostics) (fuel : Nat)
    (source : String) :
    (s.run fuel source = none ∧ s'.runCounted fuel source = none) ∨
      ∃ w' s₂ s₂' status, s.run fuel source = some (s₂, status) ∧
        s'.runCounted fuel source = some (s₂', status) ∧ Twin w' s₂ s₂' ∧
        s₂'.diagnostics = s₂.diagnostics := by
  obtain ⟨f, hf, hstatements, hcounted⟩ := checkCounted_eq hd source
  have hnext := Parse.le_next_counted s'.nextId (Token.scan source)
  have hmachine := machine_check s source
  rcases hc : s.check source with ⟨s₁, found⟩
  rw [hc] at hcounted hmachine
  let s₁' : Session := { s' with
    diagnostics := s₁.diagnostics
    nextId := (Parse.counted s'.nextId (Token.scan source)).2 }
  cases found with
  | none =>
    have hmachine' : s₁'.machine = s'.machine := rfl
    obtain ⟨w', -, htwin⟩ := h.skip hmachine (nextId_le_of_check hc) hmachine' hnext
    refine .inr ⟨w', s₁, s₁', .staticError, run_of_check_none hc fuel, ?_, htwin, rfl⟩
    rw [Session.runCounted, hcounted]
    rfl
  | some program =>
    obtain rfl := (check_some hc).1
    obtain ⟨w', hleft, hright, hloaded, hprogram⟩ := h.renumbered hc hf hnext fun i hi => by
      refine Parse.range_of_mem_counted s'.nextId (Token.scan source) ?_
      rw [hstatements]
      exact mem_idsOf_renumber.2 ⟨i, hi, rfl⟩
    have hright : w'.right.next = s₁'.nextId := hright
    rw [run_eq_ended hc, hmachine, Session.runCounted, hcounted]
    obtain hnone | ⟨s₂, s₂', status, es, hs, hs', -, htwin, hes, hes'⟩ :=
      twin_ended hleft hright (Eval.twin_runAll fuel hprogram hloaded)
    · exact .inl hnone
    · exact .inr ⟨w', s₂, s₂', status, hs, hs', htwin, hes'.trans hes.symm⟩

theorem Twin.reportsCounted (fuel : Nat) (requests : List Request) :
    ∀ {w : Renaming} {s s' : Session}, s.Twin w s' → s'.diagnostics = s.diagnostics →
      s'.reportsCounted fuel requests =
        s.reports (fun program => Eval.interpret fuel program (.ofProgram program))
          Machine.toWorld requests := by
  induction requests with
  | nil => exact fun _ _ => rfl
  | cons request rest ih =>
    intro w s s' h hd
    cases request with
    | reset =>
      have hreset : s.reset.Twin w s'.reset := ⟨h.machine, h.left, h.right⟩
      exact ih hreset rfl
    | run source =>
      have hrun := h.runCounted hd fuel source
      unfold Session.run at hrun
      simp only [Session.reports, Session.reportsCounted]
      obtain ⟨hs, hs'⟩ | ⟨w', s₂, s₂', status, hs, hs', htwin, heq⟩ := hrun
      · rw [hs, hs']
      · rw [hs, hs']
        simp only [ih htwin heq, htwin.machine.world, heq]

/-- To whatever is asked of it a new session reports the same, be its references numbered by the
counter or by stamps. -/
theorem reportsCounted_eq (sink : Sink) (clock : Nat → Float) (requests : List Request)
    (fuel : Nat) : (Session.new sink clock).reportsCounted fuel requests =
      Eval.reports sink clock requests fuel :=
  Twin.reportsCounted fuel requests (twin_new sink clock) rfl

end Session
end Lox
