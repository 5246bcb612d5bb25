import Lox.Proofs.Fuel
import Lox.Proofs.Rename.Sessions
import Lox.Proofs.Token.Split

/-!
# Lox.Proofs.Rename.Joined

Two sources run one after the other, and both run as one source with a line feed between them. The
joined source is read as the two programs, one after the other (`Accepted.joined`), and comes to the
same end (`ends_joined`). Its references are numbered differently from where the end of the first
source took a number, and its table has all distances from the start; neither is to be seen.
-/

namespace Lox

open Resolve (findings distanceIn?)

/-! ## The joined program -/

theorem Stamped.ofTokens_append (n : RefId) (ts us : List Token) :
    Stamped.ofTokens n (ts ++ us) =
      Stamped.ofTokens n ts ++ Stamped.ofTokens (n + ts.length) us := by
  induction ts generalizing n with
  | nil => rfl
  | cons t ts ih =>
    rw [List.cons_append, Stamped.ofTokens, ih, Stamped.ofTokens, List.cons_append,
      List.length_cons, Nat.add_assoc, Nat.add_comm 1]

theorem Phrase.declarations_append {ss ss' : List Stmt} {u v : List Stamped}
    (h : Phrase (.declarations ss) u) (h' : Phrase (.declarations ss') v) :
    Phrase (.declarations (ss ++ ss')) (u ++ v) := by
  induction ss generalizing u with
  | nil =>
    cases h
    exact h'
  | cons s ss ih =>
    cases h with
    | declarationsMore hs hss =>
      rw [List.append_assoc]
      exact .declarationsMore hs (ih hss)

namespace Resolve

/-- The global scope keeps no names. -/
theorem fst_stmt_nil (ctx : ResolveContext) : ∀ s : Stmt, (stmt ctx [] s).1 = []
  | .expression _ | .var _ _ | .block _ | .function _ | .ret _ _ | .cls _ none _
  | .cls _ (some _) _ => rfl
  | .ifThen _ yes => fst_stmt_nil ctx yes
  | .ifElse _ yes no => by
    simp only [stmt, fst_stmt_nil ctx yes]
    exact fst_stmt_nil ctx no
  | .loop _ body => fst_stmt_nil ctx body

theorem findings_append (ss ss' : List Stmt) :
    findings (ss ++ ss') = findings ss ++ findings ss' := by
  unfold findings
  induction ss with
  | nil => rfl
  | cons s ss ih =>
    simp only [List.cons_append, stmts, fst_stmt_nil] at ih ⊢
    rw [ih, List.append_assoc]

theorem errors_append (ss ss' : List Stmt) : errors (ss ++ ss') = errors ss ++ errors ss' := by
  rw [errors, findings_append, List.filterMap_append]
  rfl

/-- What is moved has no number before the new first one. -/
theorem distanceIn?_relabel_move_of_lt {first first' i : RefId} {lines : Nat} (hi : i < first')
    (fs : List Finding) :
    distanceIn? i (fs.map (Finding.relabel (.move first first' lines))) = none := by
  induction fs with
  | nil => rfl
  | cons f fs ih =>
    cases f with
    | violation token problem => exact ih
    | bound j d =>
      have hne : j - first + first' ≠ i :=
        Nat.ne_of_gt (Nat.lt_of_lt_of_le hi (Nat.le_add_left _ _))
      simp only [distanceIn?, List.map_cons, List.filterMap_cons, Finding.relabel, entryOf?,
        Locals.findAmong?, Relabel.move, if_neg hne] at ih ⊢
      exact ih

end Resolve

/-- The second program in the joined source: further down, and numbered from where the tokens of the
first source end. -/
def secondPart (first first₂ : RefId) (source : String) (program₂ : List Stmt) : List Stmt :=
  Stmt.relabelList (.move first₂ (first + (Token.body (Token.scan source)).length)
    (Scan.newlines source.toList + 1)) program₂

/-- The program of the joined source. -/
def joinedProgram (first first₂ : RefId) (source : String) (program program₂ : List Stmt) :
    List Stmt :=
  Stmt.relabelList (.move first first 0) program ++ secondPart first first₂ source program₂

section

variable {first first₂ : RefId} {source source₂ : String} {program program₂ : List Stmt}

theorem Accepted.joined (h : Accepted first source program)
    (h₂ : Accepted first₂ source₂ program₂) :
    Accepted first (source ++ "\n" ++ source₂)
      (joinedProgram first first₂ source program program₂) := by
  have hmoved := h.move first 0
  have hmoved₂ := h₂.move (first + (Token.body (Token.scan source)).length)
    (Scan.newlines source.toList + 1)
  rw [Token.relabel_move_zero, List.map_id] at hmoved
  obtain ⟨hscan, hbody⟩ := Token.scan_joined h.scan h₂.scan
  refine ⟨hscan, ?_, ?_⟩
  · rw [hbody, Stamped.ofTokens_append]
    exact hmoved.1.declarations_append hmoved₂.1
  · rw [joinedProgram, secondPart, Resolve.errors_append, hmoved.2, hmoved₂.2]
    rfl

end

/-- References of the joined program that are not of its first part have the distances that they have
in the second program by itself, and the other way round. -/
theorem distanceIn?_joinedProgram {first first₂ : RefId} {source source₂ : String}
    {program program₂ : List Stmt} (h : Accepted first source program)
    (h₂ : Accepted first₂ source₂ program₂) (k : Nat) :
    let count := (Token.body (Token.scan source)).length
    let joined := joinedProgram first first₂ source program program₂
    (k < count →
      distanceIn? (first + k) (findings joined) = distanceIn? (first + k) (findings program)) ∧
      distanceIn? (first + count + k) (findings joined) =
        distanceIn? (first₂ + k) (findings program₂) := by
  intro count joined
  have hfindings : findings joined =
      findings (Stmt.relabelList (.move first first 0) program) ++
        findings (Stmt.relabelList (.move first₂ (first + count)
          (Scan.newlines source.toList + 1)) program₂) :=
    Resolve.findings_append _ _
  rw [hfindings, Resolve.distanceIn?_append, Resolve.distanceIn?_append]
  constructor
  · intro hk
    have hmoved := h.distanceIn?_move first 0 (Nat.le_add_right first k)
    rw [Nat.add_sub_cancel_left, Nat.add_comm k] at hmoved
    rw [hmoved, Resolve.findings_relabel,
      Resolve.distanceIn?_relabel_move_of_lt (Nat.add_lt_add_left hk first), Option.or_none]
  · have hmoved := h₂.distanceIn?_move (first + count) (Scan.newlines source.toList + 1)
      (Nat.le_add_right first₂ k)
    rw [Nat.add_sub_cancel_left, Nat.add_comm k] at hmoved
    rw [hmoved, (h.later first).distanceIn?_eq_none, Option.none_or]
    exact fun hbound => absurd hbound.2 (Nat.not_lt.2 (Nat.le_add_right _ _))

/-! ## Running -/

theorem Eval.runAll_append (fuel : Nat) (ss ss' : List Stmt) :
    runAll fuel (ss ++ ss') = runAll fuel ss >>= fun _ => runAll fuel ss' := by
  induction ss with
  | nil => rfl
  | cons s ss ih =>
    simp only [List.cons_append, runAll, ih, Computation.bind_assoc]

theorem Eval.runAll_joinedProgram (fuel : Nat) (first first₂ : RefId) (source : String)
    (program program₂ : List Stmt) :
    runAll fuel (joinedProgram first first₂ source program program₂) =
      runAll fuel (Stmt.relabelList (.move first first 0) program) >>= fun _ =>
        runAll fuel (secondPart first first₂ source program₂) :=
  runAll_append fuel _ _

namespace Session

/-- What a run of two sources one after the other ends in; the second one is run only if the first
one comes to a good end. -/
def runBoth (fuel : Nat) (s : Session) (source source₂ : String) : Option (Session × RunStatus) :=
  match s.run fuel source with
  | some (s, .ok) => s.run fuel source₂
  | r => r

/-- The same session but for the numbers of references and the lines that tokens are on: the same
errors are held, and the machines have the same output, globals and heap. -/
structure SameAs (s s' : Session) : Prop where
  diagnostics : s'.diagnostics = s.diagnostics
  machine : ∃ w : Renaming, s.machine.Twin w s'.machine

variable {s s₁ s₂ : Session} {source source₂ : String} {program program₂ : List Stmt}

theorem length_scan (source : String) :
    (Token.scan source).length = (Token.body (Token.scan source)).length + 1 := by
  conv_lhs => rw [Token.scan_eq_body]
  rw [List.length_append]
  rfl

theorem nextId_eq_of_check (h : s.check source = (s₁, some program)) :
    s₁.nextId = s.nextId + (Token.body (Token.scan source)).length + 1 := by
  obtain ⟨-, -, rfl⟩ := check_eq_some.1 h
  exact congrArg (s.nextId + ·) (length_scan source)

/-- Where neither source has a static error, the joined source has none. -/
theorem check_joined (h : s.check source = (s₁, some program))
    (h₂ : s₁.check source₂ = (s₂, some program₂)) :
    ∃ sj, s.check (source ++ "\n" ++ source₂) =
        (sj, some (joinedProgram s.nextId s₁.nextId source program program₂)) ∧
      sj.machine = s.machine ∧ sj.diagnostics = s.diagnostics ∧
      sj.nextId = s.nextId + (Token.body (Token.scan source)).length +
        (Token.body (Token.scan source₂)).length + 1 := by
  obtain ⟨hstatic, ha, -⟩ := check_eq_some.1 h
  obtain ⟨-, ha₂, -⟩ := check_eq_some.1 h₂
  have hj := check_eq_some.2 ⟨hstatic, ha.joined ha₂, rfl⟩
  refine ⟨_, hj, rfl, rfl, ?_⟩
  rw [nextId_eq_of_check hj, (Token.scan_joined ha.scan ha₂.scan).2, List.length_append,
    List.length_map, ← Nat.add_assoc s.nextId]

/-- What is run of the two sources by themselves is the twin of what is run of the joined source.
The renaming grows when the second one is checked; the joined source has its distances before. -/
theorem exists_twins {w : Renaming} (hw : s.Twin w s) (h : s.check source = (s₁, some program))
    (h₂ : s₁.check source₂ = (s₂, some program₂)) :
    ∃ w₁ w₂ : Renaming, w₁.Le w₂ ∧ w₂.right = w₁.right ∧
      w₂.left.locals = (Locals.ofProgram program₂).merge w₁.left.locals ∧
      Machine.Twin w₁
        { s.machine with locals := (Locals.ofProgram program).merge s.machine.locals }
        { s.machine with
          locals := (Locals.ofProgram
            (joinedProgram s.nextId s₁.nextId source program program₂)).merge
              s.machine.locals } ∧
      Stmt.AllTwin w₁.pairs program (Stmt.relabelList (.move s.nextId s.nextId 0) program) ∧
      Stmt.AllTwin w₂.pairs program₂ (secondPart s.nextId s₁.nextId source program₂) := by
  obtain ⟨-, ha, -⟩ := check_eq_some.1 h
  obtain ⟨-, ha₂, -⟩ := check_eq_some.1 h₂
  obtain ⟨sj, hj, -, -, hstopj⟩ := check_joined h h₂
  have hdistance := distanceIn?_joinedProgram ha ha₂
  have hstart := nextId_eq_of_check h
  have hstop := nextId_eq_of_check h₂
  let count := (Token.body (Token.scan source)).length
  let count₂ := (Token.body (Token.scan source₂)).length
  have hle (n k : Nat) : n ≤ n + k := Nat.le_add_right n k
  -- The references of the first source keep their numbers.
  obtain ⟨w₁, -, hnext₁, hnextj, hpairs₁, hmachine⟩ := hw.checked h hj count
    (by
      have hroom (a b c : Nat) : a + b ≤ a + b + 1 ∧ a + b ≤ a + b + c + 1 := by omega
      rw [hstart, hstopj]
      exact hroom s.nextId count count₂)
    fun k hk => (hdistance k).1 hk
  have hold₁ {i j : RefId} (hp : w₁.pairs i j) : i < s₁.nextId ∧ j < s.nextId + count := by
    refine ⟨hnext₁ ▸ (w₁.known hp).1, ?_⟩
    obtain hp | ⟨k, hk, rfl, rfl⟩ := (hpairs₁ i j).1 hp
    · exact Nat.lt_of_lt_of_le (hw.right ▸ (w.known hp).2.1) (hle s.nextId count)
    · exact Nat.add_lt_add_left hk s.nextId
  obtain ⟨t₂, hlocals₂, hnext₂, hle₂, -⟩ := exists_table_of_check h₂ w₁.left hnext₁
  have hlocalsj : w₁.right.locals = (Locals.ofProgram
      (joinedProgram s.nextId s₁.nextId source program program₂)).merge w.right.locals := by
    rw [← hmachine.right, ← hw.machine.right]
  -- Those of the second source have numbers one higher than in the joined source.
  let w₂ := w₁.extend t₂ w₁.right s₁.nextId (s.nextId + count) count₂ hle₂ (.refl _) hold₁
    (by
      rw [hnext₂, hstop, hnextj, hstopj]
      exact ⟨Nat.le_succ _, Nat.le_succ _⟩)
    (fun k _ => by
      rw [hlocalsj, hlocals₂,
        find?_merge_ofProgram _ _ (Nat.le_trans (Nat.le_of_eq hw.right)
          (Nat.le_trans (hle s.nextId count) (hle (s.nextId + count) k))),
        find?_merge_ofProgram _ _ (hnext₁ ▸ hle s₁.nextId k)]
      exact (hdistance k).2)
  refine ⟨w₁, w₂, Renaming.le_extend _ _ _ _ _, rfl, hlocals₂, hmachine, ?_, ?_⟩
  · exact ha.allTwin_move _ 0 fun k hk => (hpairs₁ _ _).2 (.inr ⟨k, hk, rfl, rfl⟩)
  · exact ha₂.allTwin_move _ _ fun k hk => .inr ⟨k, hk, rfl, rfl⟩

/-- The end of two sources run one after the other, the second one only after a good end of the
first one. -/
inductive EndsBoth (s : Session) (source source₂ : String) : Session → RunStatus → Prop
  | both {s₁ s₂ status} : s.Ends source s₁ .ok → s₁.Ends source₂ s₂ status →
      EndsBoth s source source₂ s₂ status
  | first {s₁ status} : s.Ends source s₁ status → status ≠ .ok → EndsBoth s source source₂ s₁ status

theorem endsBoth_iff {status : RunStatus} :
    s.EndsBoth source source₂ s₂ status ↔
      ∃ fuel, s.runBoth fuel source source₂ = some (s₂, status) := by
  constructor
  · intro h
    cases h with
    | @both s₁ _ _ h h₂ =>
      obtain ⟨n, h⟩ := h
      obtain ⟨n₂, h₂⟩ := h₂
      refine ⟨max n n₂, ?_⟩
      rw [runBoth, run_of_le (Nat.le_max_left n n₂) h]
      exact run_of_le (Nat.le_max_right n n₂) h₂
    | first h hne =>
      obtain ⟨n, h⟩ := h
      refine ⟨n, ?_⟩
      rw [runBoth, h]
      cases status with
      | ok => exact absurd rfl hne
      | _ => rfl
  · rintro ⟨n, h⟩
    rw [runBoth] at h
    cases hr : s.run n source with
    | none =>
      rw [hr] at h
      cases h
    | some r =>
      obtain ⟨s₁, status₁⟩ := r
      rw [hr] at h
      cases status₁ with
      | ok => exact .both ⟨n, hr⟩ ⟨n, h⟩
      | _ =>
        cases h
        exact .first ⟨n, hr⟩ nofun

/-- With the same fuel the two sources come to the same end as the joined one. -/
theorem run_joined (hs : s.Reached) (h : s.check source = (s₁, some program))
    (h₂ : s.check source₂ = (s₂, some program₂)) (fuel : Nat) :
    Option.Rel (fun r r' => r'.2 = r.2 ∧ r.1.SameAs r'.1) (s.runBoth fuel source source₂)
      (s.run fuel (source ++ "\n" ++ source₂)) := by
  obtain ⟨w, hw⟩ := hs.exists_twin
  obtain ⟨hstatic, -, hs₁⟩ := check_eq_some.1 h
  obtain ⟨-, ha₂, -⟩ := check_eq_some.1 h₂
  have ha₂ := ha₂.later s₁.nextId
  have hd₁ : s₁.diagnostics.hasStaticError = false := by
    rw [hs₁]
    exact hstatic
  have hc := check_eq_some.2 ⟨hd₁, ha₂, rfl⟩
  obtain ⟨sj, hj, hmj, hdj, -⟩ := check_joined h hc
  obtain ⟨w₁, w₂, hle, hright, hleft, hm, hfirst, hsecond⟩ := exists_twins hw h hc
  have hm₁ : s₁.machine = s.machine := by rw [hs₁]
  unfold runBoth
  rw [run_of_check h, run_of_check hj, Eval.runAll_joinedProgram, Computation.bind_apply, hm₁, hmj]
  have hrun := Eval.twin_runAll fuel hfirst hm
  revert hrun
  generalize Eval.runAll fuel program _ = o, Eval.runAll fuel (Stmt.relabelList _ program) _ = o'
  intro hrun
  cases hrun with
  | outOfFuel => exact .none
  | failed e hm =>
    refine .some ⟨rfl, ?_, w₁, hm⟩
    rw [hdj, hs₁]
  | @done _ _ m m' _ hm =>
    have hc : Session.check { s₁ with machine := m } source₂ = (_, some _) :=
      check_eq_some.2 ⟨hd₁, ha₂, rfl⟩
    have hm₂ := hm.withTables hle
    rw [hleft, hright, ← hm.left, ← hm.right] at hm₂
    have hrun := Eval.twin_runAll fuel hsecond hm₂
    dsimp only
    rw [run_of_check hc]
    revert hrun
    generalize Eval.runAll fuel (Stmt.relabelList _ program₂) _ = o, Eval.runAll fuel _ m' = o'
    intro hrun
    cases hrun with
    | outOfFuel => exact .none
    | done _ hm =>
      refine .some ⟨rfl, ?_, w₂, hm⟩
      rw [hdj, hs₁]
    | failed e hm =>
      refine .some ⟨rfl, ?_, w₂, hm⟩
      rw [hdj, hs₁]

/-- Two sources without static errors, run one after the other, and both as one source come to the
same end, in either direction: with the same status and the same session but for the numbers of
references and the lines that tokens are on. After a runtime error in the first source that is the
end of the first source. -/
theorem ends_joined (hs : s.Reached) (h : (s.check source).2.isSome)
    (h₂ : (s.check source₂).2.isSome) :
    (∀ s₂ status, s.EndsBoth source source₂ s₂ status →
      ∃ s', s.Ends (source ++ "\n" ++ source₂) s' status ∧ s₂.SameAs s') ∧
    ∀ s' status, s.Ends (source ++ "\n" ++ source₂) s' status →
      ∃ s₂, s.EndsBoth source source₂ s₂ status ∧ s₂.SameAs s' := by
  obtain ⟨program, h⟩ := Option.isSome_iff_exists.1 h
  obtain ⟨program₂, h₂⟩ := Option.isSome_iff_exists.1 h₂
  have hrun := run_joined hs (Prod.ext rfl h) (Prod.ext rfl h₂)
  constructor
  · intro s₂ status hends
    obtain ⟨fuel, hboth⟩ := endsBoth_iff.1 hends
    have hrun := hrun fuel
    rw [hboth] at hrun
    generalize hj : s.run fuel (source ++ "\n" ++ source₂) = r at hrun
    cases hrun with
    | @some _ r hr =>
      obtain ⟨s', status'⟩ := r
      obtain ⟨rfl, hsame⟩ := hr
      exact ⟨s', ⟨fuel, hj⟩, hsame⟩
  · rintro s' status ⟨fuel, hj⟩
    have hrun := hrun fuel
    rw [hj] at hrun
    generalize hboth : s.runBoth fuel source source₂ = r at hrun
    cases hrun with
    | @some r _ hr =>
      obtain ⟨s₂, status₂⟩ := r
      obtain ⟨rfl, hsame⟩ := hr
      exact ⟨s₂, endsBoth_iff.2 ⟨fuel, hboth⟩, hsame⟩

/-- A function of the first source that is called by the second one. -/
theorem ends_joined_call : ∃ s₂ s',
    (Session.new {} fun _ => 0).EndsBoth "fun f() {print(a);}" "var a = true; f();" s₂ .ok ∧
      (Session.new {} fun _ => 0).Ends "fun f() {print(a);}\nvar a = true; f();" s' .ok ∧
      s₂.SameAs s' := by
  have hboth : ((Session.new {} fun _ => 0).runBoth 12 "fun f() {print(a);}"
      "var a = true; f();").map (·.2) = some .ok := by cbv
  obtain ⟨⟨s₂, status⟩, hrun, rfl⟩ := Option.map_eq_some_iff.1 hboth
  have hends := endsBoth_iff.2 ⟨12, hrun⟩
  obtain ⟨s', hends', hsame⟩ := (ends_joined (.new {} fun _ => 0) (by cbv) (by cbv)).1 s₂ .ok hends
  exact ⟨s₂, s', hends, hends', hsame⟩

end Session

end Lox
