import Lox.Proofs.Parse.Reading
import Lox.Proofs.Scope.Linked
import Lox.Proofs.Scope.Worded
import Lox.Session

/-!
# Lox.Proofs.Scope.Checked

A program that passes the static checks is linked in the table of the machine, once its distances
are added (`Session.exists_table_of_check`). Parses number their references from where the last one
stopped, so the new distances leave those of earlier programs as they are.
-/

namespace Lox

open Resolve (findings distanceIn? Within within_stmts)

theorem timesStamped_ofTokens (i n : Nat) (ts : List Token) :
    timesStamped i (Stamped.ofTokens n ts) = if n ≤ i ∧ i < n + ts.length then 1 else 0 := by
  induction ts generalizing n with
  | nil =>
    rw [if_neg (by simp)]
    rfl
  | cons t ts ih =>
    rw [Stamped.ofTokens, timesStamped_cons, ih, List.length_cons]
    by_cases h : n = i
    · subst h
      rw [if_neg (by omega), if_pos rfl, if_pos (by omega)]
    · have hiff : n + 1 ≤ i ∧ i < n + 1 + ts.length ↔ n ≤ i ∧ i < n + (ts.length + 1) := by omega
      rw [if_neg h, Nat.add_zero, if_congr hiff rfl rfl]

theorem Stmt.allFormed_of_errors_eq_nil {first : RefId} {source : String}
    (h : (Parse.ofTokens first (Token.scan source)).errors = []) :
    Stmt.AllFormed (Parse.ofTokens first (Token.scan source)).statements ∧
      ∀ i, timesIn i (Stmt.refsOfList (Parse.ofTokens first (Token.scan source)).statements) ≤
        timesStamped i (Stamped.ofTokens first (Token.body (Token.scan source))) := by
  obtain ⟨ss, hss⟩ := Parse.errors_eq_nil.1 h
  have hphrase : Phrase (.declarations ss) _ := (Parser.phrase_of_accepts_program hss).2
  have hstatements : (Parse.ofTokens first (Token.scan source)).statements = ss := by
    unfold Parser.Accepts at hss
    simp only [Parse.ofTokens, hss]
  rw [hstatements]
  refine hphrase.forms fun t ht => worded_of_mem_scan source t.token ?_
  have hmem : t.token ∈ (Stamped.ofTokens first (Token.body (Token.scan source))).map (·.token) :=
    List.mem_map_of_mem ht
  rw [Stamped.map_ofTokens] at hmem
  exact (List.takeWhile_sublist _).mem hmem

namespace Session

variable {μ : Type} {s s' : Session μ} {source : String} {program : List Stmt}

theorem nextId_check (s : Session μ) (source : String) :
    (s.check source).1.nextId = Parse.nextId s.nextId (Token.scan source) := by
  unfold check
  dsimp only
  split
  · rfl
  · split <;> rfl

theorem machine_check (s : Session μ) (source : String) :
    (s.check source).1.machine = s.machine := by
  unfold check
  dsimp only
  split
  · rfl
  · split <;> rfl

/-- A list of static errors is reported without an error being held only if it is empty. -/
theorem eq_nil_of_not_hasStaticError {d : Diagnostics} {es : List Error}
    (h : ¬(d.reportAll es).hasStaticError = true) (hes : ∀ e ∈ es, e.isStatic = true) : es = [] := by
  cases es with
  | nil => rfl
  | cons e es =>
    refine absurd ?_ h
    simp [Diagnostics.hasStaticError, Diagnostics.reportAll, hes e List.mem_cons_self]

theorem isStatic_of_mem_resolveErrors {program : List Stmt} :
    ∀ e ∈ Resolve.errors program, e.isStatic = true := by
  intro e he
  obtain ⟨f, -, hf⟩ := List.mem_filterMap.1 he
  cases f with
  | bound => cases hf
  | violation =>
    cases hf
    rfl

theorem isStatic_of_mem_parseErrors {p : Parse} : ∀ e ∈ p.errors, e.isStatic = true := by
  intro e he
  obtain ⟨c, -, rfl⟩ := List.mem_map.1 he
  unfold Complaint.toError
  split <;> rfl

theorem isStatic_of_mem_scanErrors : ∀ e ∈ Token.scanErrors source, e.isStatic = true := by
  intro e he
  obtain ⟨item, hitem, hfound⟩ := List.mem_filterMap.1 he
  obtain ⟨p, -, rfl⟩ := List.mem_map.1 hitem
  unfold Scan.Piece.item at hfound
  split at hfound
  · cases hfound
  · cases hfound
    rfl

/-- The checks report static errors only. -/
theorem isStatic_of_mem_check (s : Session μ) (source : String) :
    ∀ e ∈ (s.check source).1.diagnostics.errors,
      e ∈ s.diagnostics.errors ∨ e.isStatic = true := by
  intro e he
  have hparsed (h : e ∈ ((s.diagnostics.reportAll (Token.scanErrors source)).reportAll
      (Parse.ofTokens s.nextId (Token.scan source)).errors).errors) :
      e ∈ s.diagnostics.errors ∨ e.isStatic = true := by
    simp only [Diagnostics.reportAll, List.mem_append] at h
    obtain (h | h) | h := h
    · exact .inl h
    · exact .inr (isStatic_of_mem_scanErrors e h)
    · exact .inr (isStatic_of_mem_parseErrors e h)
  have hresolved (d : Diagnostics) (hd : e ∈ d.errors → e ∈ s.diagnostics.errors ∨ e.isStatic = true)
      {program : List Stmt} (h : e ∈ (d.reportAll (Resolve.errors program)).errors) :
      e ∈ s.diagnostics.errors ∨ e.isStatic = true := by
    obtain h | h := List.mem_append.1 h
    · exact hd h
    · exact .inr (isStatic_of_mem_resolveErrors e h)
  unfold check at he
  dsimp only at he
  split at he
  · exact hparsed he
  · split at he
    · exact hresolved _ hparsed he
    · exact hresolved _ hparsed he

/-- What the checks have found out of a program that passes them. -/
theorem check_some (h : s.check source = (s', some program)) :
    program = (Parse.ofTokens s.nextId (Token.scan source)).statements ∧
      (Parse.ofTokens s.nextId (Token.scan source)).errors = [] ∧ Resolve.errors program = [] := by
  unfold check at h
  dsimp only at h
  split at h
  · cases h
  · rename_i hparse
    split at h
    · cases h
    · rename_i hresolve
      cases h
      exact ⟨rfl, eq_nil_of_not_hasStaticError hparse isStatic_of_mem_parseErrors,
        eq_nil_of_not_hasStaticError hresolve isStatic_of_mem_resolveErrors⟩

/-- The references of a program that passes the checks are numbered apart, by numbers not yet used. -/
theorem timesIn_of_check (h : s.check source = (s', some program)) (i : RefId) :
    timesIn i (Stmt.refsOfList program) ≤ 1 ∧
      (0 < timesIn i (Stmt.refsOfList program) → s.nextId ≤ i ∧ i < s'.nextId) := by
  obtain ⟨hprogram, hparse, -⟩ := check_some h
  have htimes := (Stmt.allFormed_of_errors_eq_nil hparse).2 i
  rw [← hprogram, timesStamped_ofTokens] at htimes
  have hnext : s'.nextId = Parse.nextId s.nextId (Token.scan source) := by
    have := nextId_check s source
    rwa [h] at this
  have hlength : (Token.body (Token.scan source)).length ≤ (Token.scan source).length :=
    (List.takeWhile_sublist _).length_le
  split at htimes
  · rename_i hi
    refine ⟨htimes, fun _ => ⟨hi.1, ?_⟩⟩
    rw [hnext]
    exact Nat.lt_of_lt_of_le hi.2 (Nat.add_le_add_left hlength s.nextId)
  · exact ⟨Nat.le_trans htimes (Nat.zero_le 1), fun hpos => absurd hpos (Nat.not_lt.2 htimes)⟩

/-- The table after a program is added that has its numbers from those not yet used. -/
theorem exists_table_of_range (t : Table) {next : RefId} (hnext : t.next ≤ next)
    (hrange : ∀ i, 0 < timesIn i (Stmt.refsOfList program) → t.next ≤ i ∧ i < next) :
    ∃ t' : Table, t'.locals = (Locals.ofProgram program).merge t.locals ∧ t'.next = next ∧
      t.Le t' := by
  have hwithin : Within (Stmt.refsOfList program) (findings program) := within_stmts {} [] program
  have hfind (i : Nat) : ((Locals.ofProgram program).merge t.locals).find? i =
      (distanceIn? i (findings program)).or (t.locals.find? i) :=
    Locals.find?_merge _ t.locals i
  have hquiet (i : Nat) (hi : ¬(t.next ≤ i ∧ i < next)) : distanceIn? i (findings program) = none :=
    hwithin i (Nat.eq_zero_of_not_pos fun hpos => hi (hrange i hpos))
  have hfresh (i : Nat) (hi : next ≤ i) :
      ((Locals.ofProgram program).merge t.locals).find? i = none := by
    rw [hfind, hquiet i (fun h => Nat.not_le.2 h.2 hi), t.fresh i (Nat.le_trans hnext hi)]
    rfl
  refine ⟨⟨(Locals.ofProgram program).merge t.locals, next, hfresh⟩, rfl, rfl, hnext, fun i hi => ?_⟩
  rw [hfind, hquiet i (fun h => Nat.not_le.2 hi h.1), Option.none_or]

/-- The table after a program was checked that follows those of a given table. -/
theorem exists_table_of_check (h : s.check source = (s', some program)) (t : Table)
    (ht : t.next = s.nextId) :
    ∃ t' : Table, t'.locals = (Locals.ofProgram program).merge t.locals ∧ t'.next = s'.nextId ∧
      t.Le t' ∧ Stmt.AllLinked t' {} [] program := by
  obtain ⟨hprogram, hparse, hresolve⟩ := check_some h
  obtain ⟨hformed, -⟩ := Stmt.allFormed_of_errors_eq_nil hparse
  have htimes := timesIn_of_check h
  rw [← ht] at htimes
  rw [← hprogram] at hformed
  have hnext : t.next ≤ s'.nextId := by
    have := nextId_check s source
    rw [h] at this
    rw [this, ht]
    exact Nat.le_add_right _ _
  obtain ⟨t', hlocals, hnext', hle⟩ := exists_table_of_range t hnext fun i => (htimes i).2
  refine ⟨t', hlocals, hnext', hle, Stmt.allLinked hformed
    ⟨fun i => (htimes i).1, fun i hi => ⟨hnext' ▸ ((htimes i).2 hi).2, ?_⟩, hresolve⟩⟩
  rw [hlocals, Locals.find?_merge, t.fresh i ((htimes i).2 hi).1, Option.or_none]
  rfl

end Session
end Lox
