import Lox.Proofs.Rename.Accepted
import Lox.Proofs.Respell.Declared
import Lox.Proofs.Respell.Lockstep
import Lox.Proofs.Respell.Resolved
import Lox.Proofs.Respell.Text
import Lox.Proofs.Safety.Gate

/-!
# Lox.Proofs.Respell.Sessions

The name of a local variable is of no consequence: with a new name for it, a source that passes the
static checks passes them with the same distances, and nothing that is asked of a session afterwards
is reported differently (`Session.reports_respell`). Sessions on frames are paired with lexical ones,
which stay alike from request to request.
-/

namespace Lox

namespace Lexical

/-! ## Lexical sessions -/

/-- A session between requests that some session on frames is paired with. -/
def HasPair (s : Session Machine) : Prop := ∃ w s₀, Paired w s₀ s

namespace HasPair

variable {s s₁ : Session Machine} {fuel : Nat} {source : String} {status : RunStatus}

theorem isInternal (h : HasPair s) : ∀ e ∈ s.diagnostics.errors, e.isInternal = false := by
  obtain ⟨w, s₀, hpaired⟩ := h
  rw [hpaired.diagnostics]
  exact hpaired.errors

theorem runBy (h : HasPair s)
    (hrun : s.runBy (Eval.interpret fuel) source = some (s₁, status)) : HasPair s₁ := by
  obtain ⟨w, s₀, hpaired⟩ := h
  obtain ⟨-, hnone⟩ | ⟨s₀', s₁', status', w', -, hsome, hpaired⟩ := hpaired.runBy fuel source
  · rw [hrun] at hnone
    cases hnone
  · rw [hrun] at hsome
    cases hsome
    exact ⟨w', s₀', hpaired⟩

end HasPair

/-- Two sessions between requests that hold the same errors, on machines that are alike. -/
structure Alongside (s s' : Session Machine) : Prop where
  machine : s.machine.Alike s'.machine
  diagnostics : s'.diagnostics = s.diagnostics
  nextId : s'.nextId = s.nextId
  left : HasPair s
  right : HasPair s'

namespace Alongside

variable {s s' s₁ s₁' : Session Machine}

theorem reset (h : Alongside s s') : Alongside s.reset s'.reset := by
  obtain ⟨⟨w, s₀, hleft⟩, w', s₀', hright⟩ := And.intro h.left h.right
  exact ⟨h.machine, rfl, h.nextId, ⟨w, s₀.reset, hleft.reset⟩, w', s₀'.reset, hright.reset⟩

/-- What becomes of two sessions that run sources: both do not end, or both end alike. -/
def Runs (fuel : Nat) (s s' : Session Machine) (source source' : String) : Prop :=
  (s.runBy (Eval.interpret fuel) source = none ∧
      s'.runBy (Eval.interpret fuel) source' = none) ∨
    ∃ s₁ s₁' status, s.runBy (Eval.interpret fuel) source = some (s₁, status) ∧
      s'.runBy (Eval.interpret fuel) source' = some (s₁', status) ∧ Alongside s₁ s₁'

/-- Programs that differ only in how variables are spelled run alike. -/
theorem runs (h : Alongside s s') (fuel : Nat) {source source' : String}
    {program program' : List Stmt} {r : Spelling} (hc : s.check source = (s₁, some program))
    (hc' : s'.check source' = (s₁', some program')) (hd : s₁'.diagnostics = s₁.diagnostics)
    (hn : s₁'.nextId = s₁.nextId) (hr : ∀ {a a'}, r a a' → a' = a)
    (hprogram : Stmt.AllAlike true r program program') : Runs fuel s s' source source' := by
  have hmachine := Session.machine_check s source
  have hmachine' := Session.machine_check s' source'
  rw [hc] at hmachine
  rw [hc'] at hmachine'
  have hleft {s₂ status} (hend : s.runBy (Eval.interpret fuel) source = some (s₂, status)) :
      HasPair s₂ := h.left.runBy hend
  have hright {s₂ status} (hend : s'.runBy (Eval.interpret fuel) source' = some (s₂, status)) :
      HasPair s₂ := h.right.runBy hend
  have hrun := alike_interpret fuel hr hprogram (hmachine ▸ hmachine' ▸ h.machine)
  unfold Runs
  unfold Session.runBy at hleft hright ⊢
  rw [hc] at hleft ⊢
  rw [hc'] at hright ⊢
  dsimp only at hleft hright hrun ⊢
  revert hleft hright hrun
  generalize Eval.interpret fuel program s₁.machine = o,
    Eval.interpret fuel program' s₁'.machine = o'
  intro hleft hright hrun
  cases hrun with
  | outOfFuel => exact .inl ⟨rfl, rfl⟩
  | done _ hm => exact .inr ⟨_, _, .ok, rfl, rfl, hm, hd, hn, hleft rfl, hright rfl⟩
  | failed he hm =>
    have hleft := hleft rfl
    have hright := hright rfl
    obtain rfl | ⟨hinternal, -⟩ := he
    · refine .inr ⟨_, _, .runtimeError, rfl, rfl, hm, ?_, hn, hleft, hright⟩
      simp only [hd]
    · have hexternal := hleft.isInternal _ (List.mem_append_right _ (List.mem_singleton_self _))
      rw [hinternal] at hexternal
      cases hexternal

/-- Both sessions run the same source alike. -/
theorem runs_same (h : Alongside s s') (fuel : Nat) (source : String) :
    Runs fuel s s' source source := by
  have heq : s' = ⟨s'.machine, s.diagnostics, s.nextId⟩ := by rw [← h.diagnostics, ← h.nextId]
  have hcheck := check_eq_of_machine s s'.machine source
  rw [← heq] at hcheck
  rcases hc : s.check source with ⟨s₁, _ | program⟩
  · rw [hc] at hcheck
    have hmachine := Session.machine_check s source
    rw [hc] at hmachine
    have hrun : s.runBy (Eval.interpret fuel) source = some (s₁, .staticError) := by
      rw [Session.runBy, hc]
    have hrun' : s'.runBy (Eval.interpret fuel) source =
        some (⟨s'.machine, s₁.diagnostics, s₁.nextId⟩, .staticError) := by
      rw [Session.runBy, hcheck]
    refine .inr ⟨s₁, _, .staticError, hrun, hrun', ?_, rfl, rfl, h.left.runBy hrun,
      h.right.runBy hrun'⟩
    rw [hmachine]
    exact h.machine
  · rw [hc] at hcheck
    exact h.runs fuel hc hcheck rfl rfl (fun ha => ha.symm) (Stmt.AllAlike.refl true program)

theorem Runs.reports {fuel : Nat} {source source' : String} {requests : List Session.Request}
    (h : Runs fuel s s' source source')
    (hrest : ∀ {s s' : Session Machine}, Alongside s s' →
      s'.reports (Eval.interpret fuel) Machine.toWorld requests =
        s.reports (Eval.interpret fuel) Machine.toWorld requests) :
    s'.reports (Eval.interpret fuel) Machine.toWorld (.run source' :: requests) =
      s.reports (Eval.interpret fuel) Machine.toWorld (.run source :: requests) := by
  simp only [Session.reports]
  obtain ⟨hrun, hrun'⟩ | ⟨s₁, s₁', status, hrun, hrun', hnext⟩ := h
  · rw [hrun, hrun']
  · rw [hrun, hrun']
    simp only [hnext.diagnostics, hnext.machine.world, hrest hnext]

theorem reports (fuel : Nat) (requests : List Session.Request) :
    ∀ {s s' : Session Machine}, Alongside s s' →
      s'.reports (Eval.interpret fuel) Machine.toWorld requests =
        s.reports (Eval.interpret fuel) Machine.toWorld requests := by
  induction requests with
  | nil => exact fun _ => rfl
  | cons request rest ih =>
    intro s s' h
    cases request with
    | reset => exact ih h.reset
    | run source => exact (h.runs_same fuel source).reports ih

end Alongside

end Lexical

/-! ## Sources -/

namespace Accepted

variable {first : RefId} {source : String} {program : List Stmt}

theorem exists_linked (h : Accepted first source program) :
    ∃ t : Table, t.locals = Locals.ofProgram program ∧ Stmt.AllLinked t {} [] program := by
  have hcheck : Session.check ⟨(), .empty, first⟩ source =
      (⟨(), .empty, Parse.nextId first (Token.scan source)⟩, some program) :=
    Session.check_eq_some.2 ⟨rfl, h, rfl⟩
  obtain ⟨t, hlocals, -, -, hlinked⟩ :=
    Session.exists_table_of_check hcheck ⟨.empty, first, fun _ _ => rfl⟩ rfl
  refine ⟨t, ?_, hlinked⟩
  rw [hlocals, Locals.merge]
  exact congrArg Locals.mk (List.append_nil _)

theorem findings_respell (h : Accepted first source program) (old : String) {new : String}
    (path : List Nat) (hnew : Scan.isIdentifier new = true)
    (hfresh : new ∉ Stmt.namesOfList program) :
    Resolve.findings (Stmt.respellProgram old new path program) = Resolve.findings program := by
  obtain ⟨t, ht, hlinked⟩ := h.exists_linked
  obtain ⟨hstatements, hparse⟩ := Parse.ofTokens_of_phrase h.reads
  have hformed := (Stmt.allFormed_of_errors_eq_nil hparse).1
  rw [hstatements] at hformed
  exact Resolve.findings_respell path ht hformed hlinked h.resolve hfresh
    (Scan.ne_keyword_of_isIdentifier hnew)

/-- The text with the new spelling is a source of the program with the new spelling. -/
theorem exists_respelled (h : Accepted first source program) (old : String) {new : String}
    (path : List Nat) (hnew : Scan.isIdentifier new = true)
    (hfresh : new ∉ Stmt.namesOfList program) : ∃ source', Scan.Respelled old new source source' ∧
      Accepted first source' (Stmt.respellProgram old new path program) ∧
      (Token.scan source').length = (Token.scan source).length := by
  obtain ⟨u, hreads, hu⟩ :=
    h.reads.respell ⟨Locals.ofProgram program, old, new⟩ (.around path)
  obtain ⟨ts', rfl, hts⟩ := Stamped.exists_tokens hu
  have hall : List.Forall₂ (Token.Respelled old new) (Token.scan source)
      (ts' ++ [.endOfInput (1 + Scan.newlines source.toList)]) := by
    rw [Token.scan_eq_body]
    exact List.rel_append hts (.cons (.inl rfl) .nil)
  obtain ⟨source', hrespelled, hscan, htokens⟩ := Scan.exists_respelled hnew h.scan hall
  refine ⟨source', hrespelled, ⟨hscan, ?_, ?_⟩, ?_⟩
  · have hbody := (List.append_inj' ((Token.scan_eq_body source').symm.trans htokens) rfl).1
    rw [hbody]
    exact hreads
  · rw [Resolve.errors, h.findings_respell old path hnew hfresh]
    exact h.resolve
  · rw [htokens]
    exact hall.length_eq.symm

end Accepted

/-! ## Sessions -/

namespace Session

variable {s s₁ : Session} {source : String} {program : List Stmt}

/-- Where a program has passed the static checks, a local variable may get as its name any identifier
that no name in the program is. The program with the new name has a text, which differs only in how
some identifiers are spelled. It passes the checks with the same distances, and its variables are the
same but for that name. A run of it is reported as a run of the old text is, and so is whatever the
session is asked to do afterwards. -/
theorem reports_respell (hs : s.Reached) (hc : s.check source = (s₁, some program)) (old : String)
    {new : String} (path : List Nat) (hnew : Scan.isIdentifier new = true)
    (hfresh : new ∉ Stmt.namesOfList program) :
    (∃ source', Scan.Respelled old new source source' ∧
      s.check source' = (s₁, some (Stmt.respellProgram old new path program))) ∧
    Stmt.localVariables (Stmt.respellProgram old new path program) =
      (Stmt.localVariables program).map
        (fun x => if x = ⟨path, old⟩ then ⟨path, new⟩ else x) ∧
    Locals.ofProgram (Stmt.respellProgram old new path program) = Locals.ofProgram program ∧
    ∀ source', s.check source' = (s₁, some (Stmt.respellProgram old new path program)) →
      ∀ (fuel : Nat) (rest : List Request),
        s.reports (fun program => Eval.interpret fuel program (.ofProgram program))
            Machine.toWorld (.run source' :: rest) =
          s.reports (fun program => Eval.interpret fuel program (.ofProgram program))
            Machine.toWorld (.run source :: rest) := by
  obtain ⟨hstatic, haccepted, rfl⟩ := check_eq_some.1 hc
  refine ⟨?_, Stmt.localVariables_respell old new path program, ?_, ?_⟩
  · obtain ⟨source', hrespelled, haccepted', hlength⟩ :=
      haccepted.exists_respelled old path hnew hfresh
    refine ⟨source', hrespelled, check_eq_some.2 ⟨hstatic, haccepted', ?_⟩⟩
    rw [Parse.nextId, Parse.nextId, hlength]
  · rw [Locals.ofProgram, Locals.ofProgram, haccepted.findings_respell old path hnew hfresh]
  · intro source' hc' fuel rest
    obtain ⟨t, ht, hlinked⟩ := haccepted.exists_linked
    have hsites := Respelling.Fits.around ⟨Locals.ofProgram program, old, new⟩ path true []
    have hprogram := Stmt.allAlike_respell ht.symm (Scan.ne_keyword_of_isIdentifier hnew) hlinked
      hfresh hsites (fun hsite => by cases hsite)
    -- Both sources run on one lexical session, which is alike to itself.
    obtain ⟨w, x, hpaired⟩ := hs.exists_paired
    obtain ⟨x₁, hx, hd, hn, -⟩ := hpaired.of_check_some hc
    obtain ⟨x₁', hx', hd', hn', -⟩ := hpaired.of_check_some hc'
    have halong : Lexical.Alongside x x :=
      ⟨.refl x.machine, rfl, rfl, ⟨w, s, hpaired⟩, w, s, hpaired⟩
    have hruns := halong.runs fuel hx hx' (hd'.trans hd.symm) (hn'.trans hn.symm)
      Respelling.spelling_around hprogram
    rw [hpaired.reports fuel, hpaired.reports fuel]
    exact hruns.reports (Lexical.Alongside.reports fuel rest)

theorem exists_check_shadowed (sink : Sink) (clock : Nat → Float) :
    ∃ s₁ program, (Session.new sink clock).check
        "var a;\x7bvar a=true;fun f()\x7breturn a;\x7dprint(f());\x7dprint(a);" =
          (s₁, some program) ∧
      Stmt.namesOfList program = ["a", "a", "f", "a", "print", "f", "print", "a"] ∧
      (Session.new sink clock).check
        "var a;\x7bvar z=true;fun f()\x7breturn z;\x7dprint(f());\x7dprint(a);" =
          (s₁, some (Stmt.respellProgram "a" "z" [1] program)) :=
  ⟨_, _, Prod.ext rfl (by cbv), by cbv, Prod.ext (by cbv) (by cbv)⟩

/-- A variable of a block, which a function closes over, and a global of the same name. -/
theorem reports_respell_shadowed :
    Eval.reports {} (fun _ => 0)
        [.run "var a;\x7bvar z=true;fun f()\x7breturn z;\x7dprint(f());\x7dprint(a);"] 20 =
      Eval.reports {} (fun _ => 0)
        [.run "var a;\x7bvar a=true;fun f()\x7breturn a;\x7dprint(f());\x7dprint(a);"] 20 := by
  obtain ⟨s₁, program, hc, hnames, hc'⟩ := exists_check_shadowed {} fun _ => 0
  have hfresh : "z" ∉ Stmt.namesOfList program := by
    rw [hnames]
    decide
  exact (reports_respell (.new {} fun _ => 0) hc "a" [1] (by cbv) hfresh).2.2.2 _ hc' 20 []

end Session

end Lox
