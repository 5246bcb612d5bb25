import Lox.Proofs.Activity.Runs
import Lox.Proofs.Rename.Accepted
import Lox.Proofs.Rename.Lockstep
import Lox.Proofs.Safety.Reached

/-!
# Lox.Proofs.Rename.Sessions

Sessions that are twins between their requests. A source without a static error runs alike on both
(`Session.Twin.run_of_check_some`), however many references each of them has numbered before; the
references of the source are paired in the order in which they stand in it.
-/

namespace Lox

open Resolve (findings distanceIn?)

namespace Renaming

variable (w : Renaming) (t t' : Table)

/-- A later renaming that pairs some more references. -/
def extendBy (more : RefId → RefId → Prop) (left : w.left.Le t) (right : w.right.Le t')
    (apart : ∀ {a b a' b'}, w.pairs a b → more a' b' → a ≠ a' ∧ b ≠ b')
    (known : ∀ {a b}, more a b →
      a < t.next ∧ b < t'.next ∧ t'.locals.find? b = t.locals.find? a)
    (oneToOne : ∀ {a b a' b'}, more a b → more a' b' → (a = a' ↔ b = b')) : Renaming where
  left := t
  right := t'
  pairs a b := w.pairs a b ∨ more a b
  known := by
    rintro a b (h | h)
    · obtain ⟨ha, hb, heq⟩ := w.known h
      refine ⟨Nat.lt_of_lt_of_le ha left.1, Nat.lt_of_lt_of_le hb right.1, ?_⟩
      rw [left.2 a ha, right.2 b hb, heq]
    · exact known h
  oneToOne := by
    rintro a b a' b' (h | h) (h' | h')
    · exact w.oneToOne h h'
    · exact iff_of_false (apart h h').1 (apart h h').2
    · exact iff_of_false (apart h' h).1.symm (apart h' h).2.symm
    · exact oneToOne h h'

variable (i j count : Nat)

/-- A later renaming that pairs some more references, from `i` on with those from `j` on. -/
def extend (left : w.left.Le t) (right : w.right.Le t')
    (paired : ∀ {a b}, w.pairs a b → a < i ∧ b < j)
    (bound : i + count ≤ t.next ∧ j + count ≤ t'.next)
    (known : ∀ k < count, t'.locals.find? (j + k) = t.locals.find? (i + k)) : Renaming :=
  w.extendBy t t' (fun a b => ∃ k < count, a = i + k ∧ b = j + k) left right
    (by
      rintro a b _ _ h ⟨k, -, rfl, rfl⟩
      obtain ⟨ha, hb⟩ := paired h
      exact ⟨Nat.ne_of_lt (Nat.lt_of_lt_of_le ha (Nat.le_add_right i k)),
        Nat.ne_of_lt (Nat.lt_of_lt_of_le hb (Nat.le_add_right j k))⟩)
    (by
      rintro _ _ ⟨k, hk, rfl, rfl⟩
      exact ⟨Nat.lt_of_lt_of_le (Nat.add_lt_add_left hk i) bound.1,
        Nat.lt_of_lt_of_le (Nat.add_lt_add_left hk j) bound.2, known k hk⟩)
    (by
      rintro _ _ _ _ ⟨k, -, rfl, rfl⟩ ⟨k', -, rfl, rfl⟩
      exact Nat.add_left_cancel_iff.trans Nat.add_left_cancel_iff.symm)

variable {w t t' i j count} (left : w.left.Le t) (right : w.right.Le t')
    (paired : ∀ {a b}, w.pairs a b → a < i ∧ b < j)
    (bound : i + count ≤ t.next ∧ j + count ≤ t'.next)
    (known : ∀ k < count, t'.locals.find? (j + k) = t.locals.find? (i + k))

theorem le_extend : w.Le (w.extend t t' i j count left right paired bound known) :=
  ⟨left, right, .inl⟩

/-- Before a run nothing is paired. -/
def initial : Renaming where
  left := .empty
  right := .empty
  pairs _ _ := False
  known := False.elim
  oneToOne := False.elim

end Renaming

theorem Machine.Twin.withTables {w w' : Renaming} (hle : w.Le w') {m m' : Machine}
    (h : m.Twin w m') :
    Machine.Twin w' { m with locals := w'.left.locals } { m' with locals := w'.right.locals } where
  world := h.world
  store := h.store.mono hle.pairs
  globals := h.globals
  current := h.current
  left := rfl
  right := rfl

theorem Machine.twin_initial (sink : Sink) (clock : Nat → Float) :
    (Machine.initial sink clock).Twin .initial (.initial sink clock) where
  world := rfl
  store := by
    refine ⟨⟨rfl, fun f => ?_⟩, ⟨rfl, fun _ => .none⟩⟩
    cases f with
    | succ f => exact .none
    | zero =>
      have hfold (ns : List Native) {bs bs' : Bindings Value}
          (h : Bindings.Twin (Value.Twin Renaming.initial.pairs) bs bs') :
          Bindings.Twin (Value.Twin Renaming.initial.pairs)
            (ns.foldl (fun bs n => bs.insert n.name (.native n)) bs)
            (ns.foldl (fun bs n => bs.insert n.name (.native n)) bs') := by
        induction ns generalizing bs bs' with
        | nil => exact h
        | cons n ns ih => exact ih (h.insert n.name (.native n))
      exact .some ⟨rfl, hfold Native.all Bindings.Twin.empty⟩
  globals := rfl
  current := rfl
  left := rfl
  right := rfl

/-- The distances of a new program stand beside those of the earlier ones. -/
theorem find?_merge_ofProgram (t : Table) (program : List Stmt) {i : RefId} (hi : t.next ≤ i) :
    ((Locals.ofProgram program).merge t.locals).find? i = distanceIn? i (findings program) := by
  rw [Locals.find?_merge, t.fresh i hi, Option.or_none]
  rfl

namespace Session

/-- Two sessions between requests that differ in the numbers of references only. -/
structure Twin (w : Renaming) (s s' : Session) : Prop where
  machine : s.machine.Twin w s'.machine
  left : w.left.next = s.nextId
  right : w.right.next = s'.nextId

/-- Programs that end alike end the two sessions alike. -/
theorem twin_ended {w : Renaming} {s s' : Session} {o o' : Outcome Machine Unit}
    (hleft : w.left.next = s.nextId) (hright : w.right.next = s'.nextId) (h : o.Twin w Eq o') :
    (s.ended o = none ∧ s'.ended o' = none) ∨
      ∃ s₂ s₂' status es, s.ended o = some (s₂, status) ∧ s'.ended o' = some (s₂', status) ∧
        status ≠ .staticError ∧ Twin w s₂ s₂' ∧ s₂.diagnostics = s.diagnostics.reportAll es ∧
        s₂'.diagnostics = s'.diagnostics.reportAll es := by
  cases h with
  | done _ hm =>
    refine .inr ⟨_, _, .ok, [], rfl, rfl, nofun, ⟨hm, hleft, hright⟩, ?_, ?_⟩
    · rw [Diagnostics.reportAll_nil]
    · rw [Diagnostics.reportAll_nil]
  | failed e hm =>
    exact .inr ⟨_, _, .runtimeError, [e], rfl, rfl, nofun, ⟨hm, hleft, hright⟩, rfl, rfl⟩
  | outOfFuel => exact .inl ⟨rfl, rfl⟩

namespace Twin

variable {w : Renaming} {s s' s₁ : Session} {source : String}

/-- Numbers may be left out on both sides. -/
theorem skip (h : s.Twin w s') {s₁' : Session} (hm : s₁.machine = s.machine)
    (hn : s.nextId ≤ s₁.nextId) (hm' : s₁'.machine = s'.machine) (hn' : s'.nextId ≤ s₁'.nextId) :
    ∃ w', w.Le w' ∧ Twin w' s₁ s₁' := by
  rw [← h.left] at hn
  rw [← h.right] at hn'
  let t : Table := ⟨w.left.locals, s₁.nextId, fun i hi => w.left.fresh i (Nat.le_trans hn hi)⟩
  let t' : Table := ⟨w.right.locals, s₁'.nextId, fun i hi => w.right.fresh i (Nat.le_trans hn' hi)⟩
  let w' := w.extend t t' w.left.next w.right.next 0 ⟨hn, fun _ _ => rfl⟩ ⟨hn', fun _ _ => rfl⟩
    (fun hp => ⟨(w.known hp).1, (w.known hp).2.1⟩) ⟨hn, hn'⟩ nofun
  have hw : w.Le w' := ⟨⟨hn, fun _ _ => rfl⟩, ⟨hn', fun _ _ => rfl⟩, .inl⟩
  refine ⟨w', hw, ?_, rfl, rfl⟩
  rw [hm, hm']
  exact { h.machine with store := h.machine.store.mono hw.pairs }

/-- Two sources pass the checks, one on either side. References of theirs that have the same distances
may be paired, in the order of their numbers. -/
theorem checked (h : s.Twin w s') {source' : String} {s₁' : Session} {program program' : List Stmt}
    (hc : s.check source = (s₁, some program)) (hc' : s'.check source' = (s₁', some program'))
    (count : Nat) (bound : s.nextId + count ≤ s₁.nextId ∧ s'.nextId + count ≤ s₁'.nextId)
    (hdistance : ∀ k < count, distanceIn? (s'.nextId + k) (findings program') =
      distanceIn? (s.nextId + k) (findings program)) :
    ∃ w', w.Le w' ∧ w'.left.next = s₁.nextId ∧ w'.right.next = s₁'.nextId ∧
      (∀ i j, w'.pairs i j ↔
        w.pairs i j ∨ ∃ k < count, i = s.nextId + k ∧ j = s'.nextId + k) ∧
      Machine.Twin w'
        { s.machine with locals := (Locals.ofProgram program).merge s.machine.locals }
        { s'.machine with locals := (Locals.ofProgram program').merge s'.machine.locals } := by
  obtain ⟨t, hlocals, hnext, hle, -⟩ := exists_table_of_check hc w.left h.left
  obtain ⟨t', hlocals', hnext', hle', -⟩ := exists_table_of_check hc' w.right h.right
  let w' := w.extend t t' s.nextId s'.nextId count hle hle'
    (fun hp => by
      rw [← h.left, ← h.right]
      exact ⟨(w.known hp).1, (w.known hp).2.1⟩)
    (by rwa [hnext, hnext'])
    (fun k hk => by
      have hge (n : RefId) : n ≤ n + k := Nat.le_add_right n k
      rw [hlocals, hlocals', find?_merge_ofProgram _ _ (h.right ▸ hge s'.nextId),
        find?_merge_ofProgram _ _ (h.left ▸ hge s.nextId)]
      exact hdistance k hk)
  have hw : w.Le w' := Renaming.le_extend _ _ _ _ _
  refine ⟨w', hw, hnext, hnext', fun _ _ => Iff.rfl, ?_⟩
  have hmachine := h.machine.withTables hw
  rwa [show w'.left.locals = _ from hlocals, show w'.right.locals = _ from hlocals',
    ← h.machine.left, ← h.machine.right] at hmachine

/-- What passes the checks of the one passes those of the other, if no static error is held. -/
theorem check (h : s.Twin w s') {program : List Stmt} (hc : s.check source = (s₁, some program))
    (hd : s'.diagnostics.hasStaticError = false) :
    ∃ w' s₁' program', w.Le w' ∧ s'.check source = (s₁', some program') ∧
      s₁.diagnostics = s.diagnostics ∧ s₁'.diagnostics = s'.diagnostics ∧
      w'.left.next = s₁.nextId ∧ w'.right.next = s₁'.nextId ∧
      Machine.Twin w'
        { s₁.machine with locals := (Locals.ofProgram program).merge s₁.machine.locals }
        { s₁'.machine with locals := (Locals.ofProgram program').merge s₁'.machine.locals } ∧
      Stmt.AllTwin w'.pairs program program' := by
  obtain ⟨-, ha, rfl⟩ := check_eq_some.1 hc
  have hc' := check_eq_some.2 ⟨hd, ha.later s'.nextId, rfl⟩
  have hcount : (Token.body (Token.scan source)).length ≤ (Token.scan source).length :=
    (List.takeWhile_sublist _).length_le
  have hdistance (k : Nat) (_ : k < (Token.body (Token.scan source)).length) :=
    ha.distanceIn?_move s'.nextId 0 (Nat.le_add_right s.nextId k)
  simp only [Nat.add_sub_cancel_left, Nat.add_comm _ s'.nextId] at hdistance
  obtain ⟨w', hw, hnext, hnext', hpairs, hmachine⟩ := h.checked hc hc' _
    ⟨Nat.add_le_add_left hcount _, Nat.add_le_add_left hcount _⟩ hdistance
  refine ⟨w', _, _, hw, hc', rfl, rfl, hnext, hnext', hmachine, ?_⟩
  exact ha.allTwin_move _ 0 fun k hk => (hpairs _ _).2 (.inr ⟨k, hk, rfl, rfl⟩)

/-- A source without a static error runs alike on both, if no static error is held. -/
theorem run_of_check_some (h : s.Twin w s') {program : List Stmt}
    (hc : s.check source = (s₁, some program)) (hd : s'.diagnostics.hasStaticError = false)
    (fuel : Nat) :
    (s.run fuel source = none ∧ s'.run fuel source = none) ∨
      ∃ w' s₂ s₂' status es, w.Le w' ∧ s.run fuel source = some (s₂, status) ∧
        s'.run fuel source = some (s₂', status) ∧ status ≠ .staticError ∧ Twin w' s₂ s₂' ∧
        s₂.diagnostics = s.diagnostics.reportAll es ∧
        s₂'.diagnostics = s'.diagnostics.reportAll es := by
  obtain ⟨w', s₁', program', hw, hc', hs, hs', hleft, hright, hmachine, hprogram⟩ := h.check hc hd
  have hrun := Eval.twin_runAll fuel hprogram hmachine
  rw [run_eq_ended hc, run_eq_ended hc', ← hs, ← hs']
  obtain hnone | ⟨s₂, s₂', status, es, hends⟩ := twin_ended hleft hright hrun
  · exact .inl hnone
  · exact .inr ⟨w', s₂, s₂', status, es, hw, hends⟩

end Twin

theorem nextId_le_of_check {s s₁ : Session} {source : String} {program : Option (List Stmt)}
    (h : s.check source = (s₁, program)) : s.nextId ≤ s₁.nextId := by
  have := nextId_check s source
  rw [h] at this
  rw [this]
  exact Nat.le_add_right _ _

/-- A source with a static error leaves the machine as it was. -/
theorem machine_eq_of_rejected {s s' : Session} {fuel : Nat} {source : String}
    (h : s.run fuel source = some (s', .staticError)) : s'.machine = s.machine := by
  unfold run runBy at h
  have hmachine := machine_check s source
  revert h hmachine
  rcases s.check source with ⟨s₁, _ | program⟩ <;> dsimp only <;> intro h hmachine
  · cases h
    exact hmachine
  · split at h <;> cases h

theorem twin_new (sink : Sink) (clock : Nat → Float) :
    (Session.new sink clock).Twin .initial (.new sink clock) :=
  ⟨Machine.twin_initial sink clock, rfl, rfl⟩

/-- Every session is a twin of itself: all references in its memory are of programs it has read. -/
theorem Reached.exists_twin {s : Session} (h : s.Reached) : ∃ w, s.Twin w s := by
  induction h with
  | new sink clock => exact ⟨_, twin_new sink clock⟩
  | reset _ ih =>
    obtain ⟨w, hw⟩ := ih
    exact ⟨w, hw.machine, hw.left, hw.right⟩
  | @run s fuel source s' status _ hrun ih =>
    obtain ⟨w, hw⟩ := ih
    rcases hc : s.check source with ⟨s₁, _ | program⟩
    · have hrejected := run_of_check_none hc fuel
      rw [hrun] at hrejected
      cases hrejected
      have hmachine := machine_eq_of_rejected hrun
      have hnext := nextId_le_of_check hc
      obtain ⟨w', -, htwin⟩ := hw.skip hmachine hnext hmachine hnext
      exact ⟨w', htwin⟩
    · have hstatic := (check_eq_some.1 hc).1
      obtain ⟨hnone, -⟩ | ⟨w', s₂, s₂', _, _, -, hs, hs', -, htwin, -⟩ :=
        hw.run_of_check_some hc hstatic fuel
      · rw [hrun] at hnone
        cases hnone
      · rw [hrun] at hs hs'
        cases hs
        cases hs'
        exact ⟨w', htwin⟩

end Session
end Lox
