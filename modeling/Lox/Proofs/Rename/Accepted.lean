import Lox.Proofs.Rename.Relabelled
import Lox.Proofs.Rename.Renaming
import Lox.Proofs.Scope.Checked

/-!
# Lox.Proofs.Rename.Accepted

Sources without a static error, wherever they are read. A session has a program to run for such a
source just when it holds no static error (`Session.check_eq_some`). Read at another place, with other
numbers for its references, the source stands for the relabelled program (`Accepted.move`), and the
references have the distances that they had (`Accepted.distanceIn?_move`).
-/

namespace Lox

open Resolve (findings distanceIn? Within within_stmts)

/-- The source has no static error and stands for this program, references numbered from `first`
on. -/
structure Accepted (first : RefId) (source : String) (program : List Stmt) : Prop where
  scan : Token.scanErrors source = []
  reads : Phrase (.declarations program)
    (Stamped.ofTokens first (Token.body (Token.scan source)))
  resolve : Resolve.errors program = []

/-! ## Checks -/

theorem Parse.ofTokens_of_phrase {first : RefId} {tokens : List Token} {ss : List Stmt}
    (h : Phrase (.declarations ss) (Stamped.ofTokens first (Token.body tokens))) :
    (Parse.ofTokens first tokens).statements = ss ∧ (Parse.ofTokens first tokens).errors = [] := by
  have haccepts := Parser.accepts_program h
  refine ⟨?_, Parse.errors_eq_nil.2 ⟨ss, haccepts⟩⟩
  unfold Parser.Accepts at haccepts
  simp only [Parse.ofTokens, haccepts]

theorem Parse.phrase_of_errors {first : RefId} {tokens : List Token}
    (h : (Parse.ofTokens first tokens).errors = []) :
    Phrase (.declarations (Parse.ofTokens first tokens).statements)
      (Stamped.ofTokens first (Token.body tokens)) := by
  obtain ⟨ss, hss⟩ := Parse.errors_eq_nil.1 h
  have hphrase := (Parser.phrase_of_accepts_program hss).2
  rwa [(Parse.ofTokens_of_phrase hphrase).1]

namespace Diagnostics

theorem reportAll_nil (d : Diagnostics) : d.reportAll [] = d := by
  simp [reportAll]

end Diagnostics

namespace Session

variable {μ : Type} {s s' : Session μ} {source : String} {program : List Stmt}

/-- There is a program to run just when no static error is held and the source has none. -/
theorem check_eq_some :
    s.check source = (s', some program) ↔ s.diagnostics.hasStaticError = false ∧
      Accepted s.nextId source program ∧
      s' = { s with nextId := Parse.nextId s.nextId (Token.scan source) } := by
  constructor
  · intro h
    obtain ⟨rfl, hparse, hresolve⟩ := check_some h
    unfold check at h
    dsimp only at h
    rw [hparse, hresolve, Diagnostics.reportAll_nil, Diagnostics.reportAll_nil] at h
    split at h
    · cases h
    · rename_i hstatic
      have hscan := eq_nil_of_not_hasStaticError hstatic isStatic_of_mem_scanErrors
      rw [hscan, Diagnostics.reportAll_nil] at h hstatic
      cases h
      exact ⟨by simpa using hstatic, ⟨hscan, Parse.phrase_of_errors hparse, hresolve⟩, rfl⟩
  · rintro ⟨hstatic, h, rfl⟩
    obtain ⟨hstatements, hparse⟩ := Parse.ofTokens_of_phrase h.reads
    unfold check
    simp [h.scan, hstatements, hparse, h.resolve, Diagnostics.reportAll_nil, hstatic]

/-- Where there is no program to run, a static error is held afterwards. -/
theorem hasStaticError_of_check_none (h : s.check source = (s', none)) :
    s'.diagnostics.hasStaticError = true := by
  unfold check at h
  dsimp only at h
  split at h
  · cases h
    assumption
  · split at h
    · cases h
      assumption
    · cases h

end Session

/-! ## Another place -/

theorem Token.relabel_move_zero (first first' : RefId) :
    Token.relabel (.move first first' 0) = id := rfl

theorem Stamped.map_relabel_move (first first' : RefId) (lines : Nat) (ts : List Token) :
    (Stamped.ofTokens first ts).map (Stamped.relabel (.move first first' lines)) =
      Stamped.ofTokens first' (ts.map (Token.relabel (.move first first' lines))) := by
  have hfrom (k : Nat) : (Stamped.ofTokens (first + k) ts).map
      (Stamped.relabel (.move first first' lines)) =
        Stamped.ofTokens (first' + k) (ts.map (Token.relabel (.move first first' lines))) := by
    induction ts generalizing k with
    | nil => rfl
    | cons t ts ih =>
      have hid : first + k - first + first' = first' + k := by
        rw [Nat.add_sub_cancel_left, Nat.add_comm]
      simp only [Stamped.ofTokens, List.map_cons, Stamped.relabel]
      rw [Nat.add_assoc, ih (k + 1)]
      simp only [Relabel.move, hid, Nat.add_assoc]
  exact hfrom 0

namespace Accepted

variable {first : RefId} {source : String} {program : List Stmt}

/-- The references of the program are numbered by its tokens. -/
theorem within (h : Accepted first source program) :
    ∀ i, timesIn i (Stmt.refsOfList program) ≤
      if first ≤ i ∧ i < first + (Token.body (Token.scan source)).length then 1 else 0 := by
  obtain ⟨hstatements, hparse⟩ := Parse.ofTokens_of_phrase h.reads
  have htimes := (Stmt.allFormed_of_errors_eq_nil hparse).2
  rw [hstatements] at htimes
  intro i
  rw [← timesStamped_ofTokens]
  exact htimes i

theorem mem_refs (h : Accepted first source program) {x : RefId × Token}
    (hx : x ∈ Stmt.refsOfList program) :
    first ≤ x.1 ∧ x.1 < first + (Token.body (Token.scan source)).length := by
  have htimes := h.within x.1
  have hpos : 0 < timesIn x.1 (Stmt.refsOfList program) :=
    List.count_pos_iff.2 (List.mem_map_of_mem hx)
  split at htimes
  · assumption
  · omega

theorem distanceIn?_eq_none (h : Accepted first source program) {i : RefId}
    (hi : ¬(first ≤ i ∧ i < first + (Token.body (Token.scan source)).length)) :
    distanceIn? i (findings program) = none := by
  refine within_stmts {} [] program i ?_
  have htimes := h.within i
  rw [if_neg hi] at htimes
  exact Nat.le_zero.1 htimes

/-- The same text read at another place. -/
theorem move (h : Accepted first source program) (first' : RefId) (lines : Nat) :
    Phrase (.declarations (Stmt.relabelList (.move first first' lines) program))
        (Stamped.ofTokens first'
          ((Token.body (Token.scan source)).map (Token.relabel (.move first first' lines)))) ∧
      Resolve.errors (Stmt.relabelList (.move first first' lines) program) = [] := by
  rw [← Stamped.map_relabel_move]
  exact ⟨h.reads.relabel _, Resolve.errors_relabel _ h.resolve⟩

/-- The same source read later. -/
theorem later (h : Accepted first source program) (first' : RefId) :
    Accepted first' source (Stmt.relabelList (.move first first' 0) program) := by
  obtain ⟨hreads, hresolve⟩ := h.move first' 0
  refine ⟨h.scan, ?_, hresolve⟩
  rwa [Token.relabel_move_zero, List.map_id] at hreads

end Accepted

namespace Resolve

/-- Findings that are moved have the same distances. -/
theorem distanceIn?_relabel_move {first : RefId} (first' : RefId) (lines : Nat) {i : RefId}
    (hi : first ≤ i) {fs : List Finding} (hfs : ∀ j, j < first → distanceIn? j fs = none) :
    distanceIn? (i - first + first') (fs.map (Finding.relabel (.move first first' lines))) =
      distanceIn? i fs := by
  induction fs with
  | nil => rfl
  | cons f fs ih =>
    cases f with
    | violation token problem => exact ih hfs
    | bound j d =>
      have hj : first ≤ j := by
        refine Nat.le_of_not_lt fun hlt => ?_
        have := hfs j hlt
        simp [distanceIn?, entryOf?, Locals.findAmong?] at this
      have hiff : j - first + first' = i - first + first' ↔ j = i := by
        have hsub {a b c k : Nat} (ha : c ≤ a) (hb : c ≤ b) : a - c + k = b - c + k ↔ a = b := by
          omega
        exact hsub hj hi
      have hrest : ∀ j', j' < first → distanceIn? j' fs = none := by
        intro j' hj'
        have := hfs j' hj'
        simpa [distanceIn?, entryOf?, Locals.findAmong?, Nat.ne_of_gt (Nat.lt_of_lt_of_le hj' hj)]
          using this
      have ih := ih hrest
      simp only [distanceIn?, List.map_cons, List.filterMap_cons, Finding.relabel, entryOf?,
        Locals.findAmong?, Relabel.move] at ih ⊢
      rw [ih, if_congr hiff rfl rfl]

end Resolve

theorem Accepted.distanceIn?_move {first : RefId} {source : String} {program : List Stmt}
    (h : Accepted first source program) (first' : RefId) (lines : Nat) {i : RefId}
    (hi : first ≤ i) :
    distanceIn? (i - first + first')
        (findings (Stmt.relabelList (.move first first' lines) program)) =
      distanceIn? i (findings program) := by
  rw [Resolve.findings_relabel]
  exact Resolve.distanceIn?_relabel_move first' lines hi fun j hj =>
    h.distanceIn?_eq_none fun hj' => Nat.not_le.2 hj hj'.1

/-- A program and the same one read at another place are twins where their references are paired in
order. -/
theorem Accepted.allTwin_move {first : RefId} {source : String} {program : List Stmt}
    (h : Accepted first source program) (first' : RefId) (lines : Nat) {p : RefId → RefId → Prop}
    (hp : ∀ k < (Token.body (Token.scan source)).length, p (first + k) (first' + k)) :
    Stmt.AllTwin p program (Stmt.relabelList (.move first first' lines) program) := by
  refine Stmt.allTwin_relabel fun x hx => ?_
  obtain ⟨hle, hlt⟩ := h.mem_refs hx
  have hpair := hp (x.1 - first) (Nat.sub_lt_left_of_lt_add hle hlt)
  rwa [Nat.add_sub_cancel' hle, Nat.add_comm first'] at hpair

end Lox
