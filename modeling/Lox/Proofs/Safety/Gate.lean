import Lox.Proofs.Safety.Sound

/-!
# Lox.Proofs.Safety.Gate

What passes the static checks never fails for a reason that they are there to exclude. Whatever
sessions come to do is sound (`sound_of_reached`), and where an activity is sound nothing internal can
go wrong with it (`Activity.Sound.safe`).
-/

namespace Lox

open Lexical

/-! ## Sessions between their runs -/

/-- A session between its runs is paired with one that runs programs by their text alone. -/
theorem Session.Reached.exists_paired {s : Session} (h : s.Reached) : ∃ w s', Paired w s s' := by
  induction h with
  | new sink clock => exact ⟨_, _, paired_new sink clock⟩
  | reset _ ih =>
    obtain ⟨w, s', hpaired⟩ := ih
    exact ⟨w, s'.reset, hpaired.reset⟩
  | @run s fuel source _ _ _ hrun ih =>
    obtain ⟨w, s', hpaired⟩ := ih
    obtain ⟨hnone, -⟩ | ⟨s₁, s₁', status, w', hsome, -, hnext⟩ := hpaired.runBy fuel source
    · rw [hrun] at hnone
      cases hnone
    · rw [hrun] at hsome
      cases hsome
      exact ⟨w', s₁', hnext⟩

/-- Whatever sessions come to do is sound. -/
theorem sound_of_reached {a : Activity} {m : Machine} (h : Reached a m) : a.Sound m := by
  induction h with
  | program n hs hcheck =>
    obtain ⟨w, s', hpaired⟩ := hs.exists_paired
    obtain ⟨s₁', -, -, -, w', -, hagree, hlinked⟩ := hpaired.of_check_some hcheck
    exact ⟨w', s₁'.machine, w'.table, hagree, .refl _, hlinked⟩
  | enter _ henters ih => exact sound_of_enters henters ih

/-! ## Sound activities are safe -/

namespace CanEvaluate

variable {m : Machine} {id : RefId} {name keyword method : Token}

theorem var (h : CanEvaluate m fun t ctx scopes => (Expr.var id name).Linked t ctx scopes) {d : Nat}
    (hd : m.locals.find? id = some d) : ∃ v, m.store.getAt? m.current d name.lexeme = some v := by
  obtain ⟨w, x, t, ctx, scopes, frame, names, ha, hv, hid, hp⟩ := h
  have hdistance := (ha.find?_locals hv.table hid).symm.trans hd
  obtain ⟨v, -, -, hvalue, -⟩ := hv.aligned.exists_value ha ⟨hdistance, hp⟩
  rw [ha.current]
  exact ⟨v, hvalue⟩

theorem thisRef
    (h : CanEvaluate m fun t ctx scopes => (Expr.thisRef id keyword).Linked t ctx scopes) :
    ∃ d c o, m.locals.find? id = some d ∧
      m.store.getAt? m.current d keyword.lexeme = some (.object c o) := by
  obtain ⟨w, x, t, ctx, scopes, frame, names, ha, hv, hkeyword, hcls, hid⟩ := h
  obtain ⟨d, hthis⟩ := hv.carries.exists_this hcls
  obtain ⟨v, -, -, hvalue, -, -, -, hsuits⟩ := hv.aligned.exists_value ha hthis
  obtain ⟨c, o, rfl⟩ := hsuits.1 rfl
  rw [hkeyword, ha.current]
  exact ⟨d, c, o, (ha.find?_locals hv.table hid).trans hthis.1, hvalue⟩

theorem superRef
    (h : CanEvaluate m fun t ctx scopes => (Expr.superRef id keyword method).Linked t ctx scopes) :
    ∃ d c c' o, m.locals.find? id = some d ∧
      m.store.getAt? m.current d "super" = some (.cls c) ∧
      m.store.getAt? m.current (d - 1) "this" = some (.object c' o) := by
  obtain ⟨w, x, t, ⟨left, cls⟩, scopes, frame, names, ha, ⟨haligned, hcarries, ht⟩, hcls, hid⟩ := h
  obtain rfl : cls = .subclass := hcls
  obtain ⟨d, hthis, hsuper⟩ := hcarries
  obtain ⟨v, -, -, hv, -, -, -, hsuits⟩ := haligned.exists_value ha hsuper
  obtain ⟨u, -, -, hu, -, -, -, hsuits'⟩ := haligned.exists_value ha hthis
  obtain ⟨c, rfl⟩ := hsuits.2 rfl
  obtain ⟨c', o, rfl⟩ := hsuits'.1 rfl
  rw [ha.current]
  exact ⟨d + 1, c, c', o, (ha.find?_locals ht hid).trans hsuper.1, hv, hu⟩

theorem assign {v : Value} {d : Nat} (hd : m.locals.find? id = some d)
    (h : CanEvaluate m fun t _ scopes => t.Says id (Scope.distance? name.lexeme scopes)) :
    ∃ m', Eval.assign id name.lexeme v m = .done () m' ∧
      m'.store.getAt? m.current d name.lexeme = some v := by
  obtain ⟨w, x, t, ctx, scopes, frame, names, ha, hv, hid⟩ := h
  have hdistance := (ha.find?_locals hv.table hid).symm.trans hd
  obtain ⟨c, a, -, hancestor, hslot, -⟩ := hv.aligned.cell name.lexeme d hdistance
  have hfound : m.store.ancestor? d m.current = some a := by
    rw [ha.ancestor?_eq, ha.current]
    exact hancestor
  refine ⟨{ m with store := m.store.define a name.lexeme v }, ?_, ?_⟩
  · simp only [Eval.assign, hd, hfound, Eval.writeTo]
  · simp only [Store.getAt?, Store.ancestor?_define, hfound]
    rw [Store.local?_define _ _ (ha.lt_of_slot hslot).1, if_pos rfl]

end CanEvaluate

namespace Activity.Sound

variable {m : Machine} {n : Nat}

theorem not_returned {s : Stmt} (h : (Activity.statement n s).Sound m) (v : Value) (m' : Machine) :
    Eval.execute n s m ≠ .done (.returned v) m' := by
  intro hdone
  obtain ⟨w, x, t, ha, ht, hl⟩ := h
  obtain ⟨w', ⟨flow, scope⟩, x', -, -, hflow, -⟩ :=
    ((simAt n).execute ha (at_top w) ht hl).of_done hdone
  cases flow with
  | normal => exact hflow
  | returned v' => exact hflow.2.1 rfl

theorem exists_declared {name : Token} {superclass : Option Class} {methods : List FunctionDecl}
    (h : m.current < m.store.frames.size) :
    ∃ m', Eval.declareClass name.lexeme superclass methods m = .done () m' := by
  cases superclass with
  | none => exact ⟨_, Eval.declareClass_base _ _ h⟩
  | some c => exact ⟨_, Eval.declareClass_derived _ c _ h⟩

theorem yields_receiver {f : Closure} {args : List Value} (h : (Activity.callFunction n f args).Sound m)
    (hinit : f.isInitializer = true) {k : Nat} {flow : Flow} {m' : Machine}
    (hdone : Eval.runBody k f args m = .done flow m') :
    (∀ v, flow = .returned v → v = .nil) ∧
      ∃ c o, m'.store.getAt? f.env 0 "this" = some (.object c o) := by
  obtain ⟨w, x, frame, g, args', ha, hf, hargs, hlen⟩ := h
  obtain ⟨left, hleft, hbody⟩ := SimAt.runBody_rel (simAt k) ha hargs hf hlen
  obtain ⟨w', flow', x', hg, ha', hflow⟩ := hbody.of_done hdone
  constructor
  · rintro v rfl
    cases flow' with
    | normal => exact hflow.elim
    | returned v' => exact hflow.2.2 (hleft.2 hinit)
  · obtain ⟨-, -, scopes, ⟨-, hthis⟩, -, haligned⟩ := hf
    obtain ⟨v, -, -, hv, -, -, -, hsuits⟩ :=
      (haligned.mono hg.toLe).exists_value ha' (hthis hinit)
    obtain ⟨c, o, rfl⟩ := hsuits.1 rfl
    exact ⟨c, o, hv⟩

/-- With a sound activity nothing goes wrong that the static checks are there to exclude. -/
theorem safe {a : Activity} (h : a.Sound m) : a.Safe m := by
  cases a with
  | statement n s => exact h.not_returned
  | evaluate n e =>
    cases e with
    | var id name => exact fun d hd => CanEvaluate.var h hd
    | thisRef id keyword => exact CanEvaluate.thisRef h
    | superRef id keyword method => exact CanEvaluate.superRef h
    | unparsed =>
      obtain ⟨w, x, t, ctx, scopes, frame, names, -, -, hl⟩ := h
      exact hl
    | unary operator e =>
      obtain ⟨w, x, t, ctx, scopes, frame, names, -, -, ho, -⟩ := h
      intro v lexeme hfailed
      cases Operator.isInternal_of_unary ho hfailed
    | binary l operator r =>
      obtain ⟨w, x, t, ctx, scopes, frame, names, -, -, ho, -⟩ := h
      intro v v' lexeme lt rt hfailed
      cases Operator.isInternal_of_binary ho hfailed
    | _ => trivial
  | assign id name v => exact fun d hd => CanEvaluate.assign hd h
  | declareClass name superclass methods => exact exists_declared h
  | callFunction n f args =>
    cases n with
    | zero => trivial
    | succ n => exact fun hinit flow m' hdone => h.yields_receiver hinit hdone
  | _ => trivial

end Activity.Sound

/-- The static checks keep internal failures away: nothing that sessions ever come to do can go wrong
in a way that the checks are there to exclude, and no session ever reports such a failure. -/
theorem safe_of_reached :
    (∀ a m, Reached a m → a.Safe m) ∧
      ∀ s : Session, s.Reached → ∀ e ∈ s.diagnostics.errors, e.isInternal = false := by
  constructor
  · intro a m h
    exact (sound_of_reached h).safe
  · intro s h
    obtain ⟨w, s', hpaired⟩ := h.exists_paired
    exact hpaired.errors

theorem exists_check_block (sink : Sink) (clock : Nat → Float) :
    ∃ s, (Session.new sink clock).check "\x7bvar b;b;\x7d" =
      (s, some [.block [.var ⟨.identifier, "b", none, 1⟩ none,
        .expression (.var 4 ⟨.identifier, "b", none, 1⟩)]]) :=
  ⟨_, Prod.ext rfl (by cbv)⟩

/-- The variable of a block is read in the frame of the block. -/
theorem safe_of_reached_block :
    ∃ m, Reached (.evaluate 2 (.var 4 ⟨.identifier, "b", none, 1⟩)) m ∧
      m.locals.find? 4 = some 0 ∧ ∃ v, m.store.getAt? m.current 0 "b" = some v := by
  obtain ⟨s, hcheck⟩ := exists_check_block {} fun _ => 0
  have hprogram := Reached.program 6 (.new {} fun _ => 0) hcheck
  have hstatement := Reached.enter hprogram .programHead
  have hblock := Reached.enter hstatement .statement
  have hbody := Reached.enter hblock (.block rfl)
  have hrest := Reached.enter hbody (.moreStatements rfl)
  have hsecond := Reached.enter hrest .firstStatement
  have hread := Reached.enter hsecond .expression
  refine ⟨_, hread, ?_, ?_⟩
  · rfl
  · exact safe_of_reached.1 _ _ hread 0 rfl

end Lox
