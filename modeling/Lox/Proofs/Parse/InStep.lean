import Lox.Proofs.Parse.Bound
import Lox.Proofs.Rename.Relabelled

/-!
# Lox.Proofs.Parse.InStep

How parsers are built. Two parsers go in step if they are made of the same steps in the same order,
where the second one reads the tokens of the first at another place, with other numbers and lines,
and has a tail behind them (`InStep`). It follows from that alone that such a parser takes tokens
off its input, of certain kinds only (`InStep.takes`), and that it does not see what stands behind
the tokens that it has looked at (`InStep.moves`).
-/

namespace Lox

/-- The complaint of a parser that reads its input at another place and before a tail. -/
def Complaint.move (r : Relabel) (tail : List Stamped) (c : Complaint) : Complaint :=
  ⟨c.problem, c.rest.map (Stamped.relabel r) ++ tail⟩

/-- There is a token that is complained about, if anything is left; and an error that unwinds was
made a complaint only where tokens of any kind may be skipped. -/
structure Complaint.Fits (kinds : List TokenKind) (rest : List Stamped) (c : Complaint) : Prop where
  place : rest ≠ [] → c.rest ≠ []
  kinds : ∀ what, c.problem = .expected what → ∀ kind, kind ∈ kinds

namespace Parsed

variable {α β : Type}

/-- The result of a parser that reads its input at another place and before a tail. -/
def move (r : Relabel) (tail : List Stamped) (f : α → β) : Parsed α → Parsed β
  | .ok a rest complaints =>
    .ok (f a) (rest.map (Stamped.relabel r) ++ tail) (complaints.map (Complaint.move r tail))
  | .fail what rest complaints =>
    .fail what (rest.map (Stamped.relabel r) ++ tail) (complaints.map (Complaint.move r tail))
  | .outOfFuel => .outOfFuel

/-- The parse has ended before the end of its input, if there is a tail behind that. -/
def IsSettled (tail : List Stamped) : Parsed α → Prop
  | .ok _ rest _ | .fail _ rest _ => rest = [] → tail = []
  | .outOfFuel => False

/-- Tokens of some kinds were taken off the input, and the complaints fit. -/
structure Leaves (kinds : List TokenKind) (input rest : List Stamped)
    (complaints : List Complaint) : Prop where
  taken : ∃ taken, input = taken ++ rest ∧ ∀ t ∈ taken, t.token.kind ∈ kinds
  fits : ∀ c ∈ complaints, c.Fits kinds rest

/-- The parse took tokens of some kinds off the input, if it has ended. -/
def Takes (kinds : List TokenKind) (input : List Stamped) : Parsed α → Prop
  | .ok _ rest complaints | .fail _ rest complaints => Leaves kinds input rest complaints
  | .outOfFuel => True

namespace Leaves

variable {kinds : List TokenKind} {input mid rest : List Stamped}
  {complaints later : List Complaint}

theorem nothing (h : ∀ c ∈ complaints, c.Fits kinds input) : Leaves kinds input input complaints :=
  ⟨⟨[], rfl, nofun⟩, h⟩

theorem one {t : Stamped} (h : t.token.kind ∈ kinds) : Leaves kinds (t :: rest) rest [] :=
  ⟨⟨[t], rfl, by simpa using h⟩, nofun⟩

/-- Where something is left in the end, something was left before. -/
theorem ne_nil (h : Leaves kinds input rest complaints) (hrest : rest ≠ []) : input ≠ [] := by
  obtain ⟨taken, rfl, -⟩ := h.taken
  exact fun hnil => hrest (List.append_eq_nil_iff.1 hnil).2

theorem trans (h : Leaves kinds input mid complaints) (h' : Leaves kinds mid rest later) :
    Leaves kinds input rest (complaints ++ later) := by
  obtain ⟨taken, rfl, htaken⟩ := h.taken
  obtain ⟨more, rfl, hmore⟩ := h'.taken
  refine ⟨⟨taken ++ more, (List.append_assoc _ _ _).symm, ?_⟩, ?_⟩
  · exact List.forall_mem_append.2 ⟨htaken, hmore⟩
  · refine List.forall_mem_append.2 ⟨fun c hc => ?_, h'.fits⟩
    exact ⟨fun hrest => (h.fits c hc).place (h'.ne_nil hrest), (h.fits c hc).kinds⟩

end Leaves

end Parsed

namespace Parser

open Parsed (Leaves)

variable {kinds : List TokenKind} {input mid rest : List Stamped} {α β : Type}

theorem takes_after {r : Parsed α} {complaints : List Complaint}
    (h : Leaves kinds input mid complaints) (hr : r.Takes kinds mid) :
    (after complaints r).Takes kinds input := by
  cases r with
  | ok a rest later => exact h.trans hr
  | fail what rest later => exact h.trans hr
  | outOfFuel => trivial

theorem after_nil (r : Parsed α) : after [] r = r := by
  cases r <;> rfl

theorem move_after (r : Relabel) (tail : List Stamped) (f : α → β) (complaints : List Complaint)
    (p : Parsed α) : (after complaints p).move r tail f =
      after (complaints.map (Complaint.move r tail)) (p.move r tail f) := by
  cases p <;> simp [after, Parsed.move]

theorem isSettled_after {tail : List Stamped} {complaints : List Complaint} {r : Parsed α} :
    (after complaints r).IsSettled tail ↔ r.IsSettled tail := by
  cases r <;> rfl

/-- A parse that ends before the end of its input has not started at the end of it. -/
theorem eq_nil_of_isSettled {r : Parsed α} {tail : List Stamped} (ht : r.Takes kinds input)
    (hs : r.IsSettled tail) (hnil : input = []) : tail = [] := by
  have hleft {rest : List Stamped} {complaints : List Complaint}
      (h : Leaves kinds input rest complaints) (hs : rest = [] → tail = []) : tail = [] :=
    hs (by_contra fun hrest => h.ne_nil hrest hnil)
  cases r with
  | ok a rest complaints => exact hleft ht hs
  | fail what rest complaints => exact hleft ht hs
  | outOfFuel => exact hs.elim

/-- An optional token is taken or not. -/
theorem acceptAny_bind_cons (ks : List TokenKind) (f : Option Stamped → Parser β) (t : Stamped)
    (rest : List Stamped) : (acceptAny ks >>= f) (t :: rest) =
      if t.token.kind ∈ ks then f (some t) rest else f none (t :: rest) := by
  rw [bind_apply, acceptAny]
  by_cases ht : t.token.kind ∈ ks
  · rw [if_pos (List.contains_iff_mem.2 ht), if_pos ht]
    exact after_nil _
  · rw [if_neg (mt List.contains_iff_mem.1 ht), if_neg ht]
    exact after_nil _

theorem acceptAny_bind_nil (ks : List TokenKind) (f : Option Stamped → Parser β) :
    (acceptAny ks >>= f) [] = f none [] :=
  after_nil _

/-- Keeping the place in mind takes no token. -/
theorem remaining_bind (f : List Stamped → Parser β) (input : List Stamped) :
    (remaining >>= f) input = f input input :=
  after_nil _

/-- Skipping takes tokens of any kind. -/
theorem leaves_synchronize (hkinds : ∀ kind, kind ∈ kinds) (what : Expected)
    (input : List Stamped) : Leaves kinds input (synchronize input) [⟨.expected what, input⟩] := by
  have hfits : Complaint.Fits kinds (synchronize input) ⟨.expected what, input⟩ := by
    refine ⟨fun hrest hnil => ?_, fun _ _ => hkinds⟩
    subst hnil
    exact hrest rfl
  refine ⟨?_, List.forall_mem_singleton.2 hfits⟩
  cases input with
  | nil => exact ⟨[], rfl, nofun⟩
  | cons t rest =>
    obtain ⟨skipped, hskipped⟩ := synchronize_suffix t rest
    exact ⟨t :: skipped, by rw [List.cons_append, hskipped], fun u _ => hkinds _⟩

/-- Skipping that stops in the input stops there whatever stands behind it. -/
theorem synchronize_append (r : Relabel) {tail : List Stamped} :
    ∀ {input : List Stamped}, (synchronize input = [] → tail = []) →
      synchronize (input.map (Stamped.relabel r) ++ tail) =
        (synchronize input).map (Stamped.relabel r) ++ tail
  | [], h | [_], h => by
    obtain rfl : tail = [] := h rfl
    rfl
  | t :: u :: rest, h => by
    have hstop (hskip : synchronize (t :: u :: rest) = u :: rest)
        (hskip' : synchronize ((t :: u :: rest).map (Stamped.relabel r) ++ tail) =
          (u :: rest).map (Stamped.relabel r) ++ tail) :
        synchronize ((t :: u :: rest).map (Stamped.relabel r) ++ tail) =
          (synchronize (t :: u :: rest)).map (Stamped.relabel r) ++ tail := by
      rw [hskip', hskip]
    by_cases ht : t.token.kind = .semicolon
    · exact hstop (synchronize_of_semicolon u rest ht)
        (synchronize_of_semicolon (t := t.relabel r) _ _ ht)
    by_cases hu : u.token.kind ∈ starters
    · exact hstop (synchronize_of_starter t rest hu)
        (synchronize_of_starter _ (u := u.relabel r) _ hu)
    rw [synchronize_of_neither rest ht hu] at h ⊢
    exact (synchronize_of_neither (t := t.relabel r) (u := u.relabel r) _ ht hu).trans
      (synchronize_append r h)

/-! ## Parsers in step -/

/-- `p` and `q` are made of the same steps, where `q` reads its tokens relabelled and before a tail,
has the value of `p` taken by `f`, and has no less fuel. They take tokens of some kinds only. -/
inductive InStep (r : Relabel) (tail : List Stamped) (kinds : List TokenKind) :
    {α β : Type} → (α → β) → Parser α → Parser β → Prop
  | ret {α β : Type} {f : α → β} (a : α) : InStep r tail kinds f (pure a) (pure (f a))
  | exhausted {α β : Type} {f : α → β} {q : Parser β} : InStep r tail kinds f exhausted q
  | fail {α β : Type} {f : α → β} (what : Expected) : InStep r tail kinds f (fail what) (fail what)
  | complainAt (t : Stamped) (rest : List Stamped) {problem : ParseProblem}
      (hproblem : ∀ what, problem ≠ .expected what) :
      InStep r tail kinds id (complainAt (t :: rest) problem)
        (complainAt ((t :: rest).map (Stamped.relabel r) ++ tail) problem)
  | complainIf (wrong : Bool) {problem : ParseProblem}
      (hproblem : ∀ what, problem ≠ .expected what) :
      InStep r tail kinds id (complainIf wrong problem) (complainIf wrong problem)
  | ahead (kind : TokenKind) : InStep r tail kinds id (ahead kind) (ahead kind)
  | atEnd : InStep r tail kinds id atEnd atEnd
  | atBodyEnd : InStep r tail kinds id atBodyEnd atBodyEnd
  | acceptAny {ks : List TokenKind} (hks : ks ⊆ kinds) :
      InStep r tail kinds (Option.map (Stamped.relabel r)) (acceptAny ks) (acceptAny ks)
  | mark {γ δ : Type} {g : γ → δ} {ks : List TokenKind}
      {h : List Stamped → Option Stamped → Parser γ} {k : List Stamped → Option Stamped → Parser δ}
      (hks : ks ⊆ kinds)
      (hnone : ∀ here, InStep r tail kinds g (h here none)
        (k (here.map (Stamped.relabel r) ++ tail) none))
      (hsome : ∀ t rest, InStep r tail kinds g (h (t :: rest) (some t))
        (k ((t :: rest).map (Stamped.relabel r) ++ tail) (some (t.relabel r)))) :
      InStep r tail kinds g (remaining >>= fun here => Parser.acceptAny ks >>= h here)
        (remaining >>= fun here => Parser.acceptAny ks >>= k here)
  | expect {kind : TokenKind} (what : Expected) (hkind : kind ∈ kinds) :
      InStep r tail kinds (Stamped.relabel r) (expect kind what) (expect kind what)
  | bind {α β γ δ : Type} {f : α → β} {g : γ → δ} {p : Parser α} {q : Parser β}
      {h : α → Parser γ} {k : β → Parser δ} (hp : InStep r tail kinds f p q)
      (hh : ∀ a, InStep r tail kinds g (h a) (k (f a))) :
      InStep r tail kinds g (p >>= h) (q >>= k)
  /-- Any token may be skipped after a failure. -/
  | recover {p q : Parser Stmt} (hkinds : ∀ kind, kind ∈ kinds)
      (hp : InStep r tail kinds (Stmt.relabel r) p q) :
      InStep r tail kinds (Stmt.relabel r) (recover p) (recover q)
  /-- Fuel by the number of tokens in front. -/
  | sized {α β : Type} {f : α → β} {p : Nat → Parser α} {q : Nat → Parser β}
      (hp : ∀ n m, n ≤ m → InStep r tail kinds f (p n) (q m)) :
      InStep r tail kinds f (fun input => p input.length input) fun input => q input.length input

namespace InStep

variable {r : Relabel} {tail : List Stamped} {f : α → β} {p : Parser α} {q : Parser β}

theorem mono {more : List TokenKind} (hmore : kinds ⊆ more) (h : InStep r tail kinds f p q) :
    InStep r tail more f p q := by
  induction h with
  | ret a => exact .ret a
  | exhausted => exact .exhausted
  | fail what => exact .fail what
  | complainAt t rest hproblem => exact .complainAt t rest hproblem
  | complainIf wrong hproblem => exact .complainIf wrong hproblem
  | ahead kind => exact .ahead kind
  | atEnd => exact .atEnd
  | atBodyEnd => exact .atBodyEnd
  | acceptAny hks => exact .acceptAny (List.Subset.trans hks hmore)
  | mark hks _ _ ihnone ihsome => exact .mark (List.Subset.trans hks hmore) ihnone ihsome
  | expect what hkind => exact .expect what (hmore hkind)
  | bind _ _ ihp ihh => exact .bind ihp ihh
  | recover hkinds _ ih => exact .recover (fun kind => hmore (hkinds kind)) ih
  | sized _ ih => exact .sized ih

/-- An optional token, and what is done with it and without it. -/
theorem accept {γ δ : Type} {g : γ → δ} {ks : List TokenKind} {h : Option Stamped → Parser γ}
    {k : Option Stamped → Parser δ} (hks : ks ⊆ kinds)
    (hnone : InStep r tail kinds g (h none) (k none))
    (hsome : ∀ t, InStep r tail kinds g (h (some t)) (k (some (t.relabel r)))) :
    InStep r tail kinds g (Parser.acceptAny ks >>= h) (Parser.acceptAny ks >>= k) := by
  refine .bind (.acceptAny hks) fun t => ?_
  cases t with
  | none => exact hnone
  | some t => exact hsome t

/-! ## What is taken -/

/-- Whatever a parser does, it takes tokens off its input, and of the given kinds only. -/
theorem takes (h : InStep r tail kinds f p q) (input : List Stamped) :
    (p input).Takes kinds input := by
  induction h generalizing input with
  | ret a => exact Leaves.nothing nofun
  | exhausted => trivial
  | fail what => exact Leaves.nothing nofun
  | complainAt t rest hproblem =>
    refine Leaves.nothing (List.forall_mem_singleton.2 ⟨nofun, fun what h => ?_⟩)
    exact absurd h (hproblem what)
  | complainIf wrong hproblem =>
    refine Leaves.nothing fun c hc => ?_
    cases wrong with
    | false => cases hc
    | true =>
      cases List.mem_singleton.1 hc
      exact ⟨id, fun what h => absurd h (hproblem what)⟩
  | ahead kind => cases input <;> exact Leaves.nothing nofun
  | atEnd => exact Leaves.nothing nofun
  | atBodyEnd => cases input <;> exact Leaves.nothing nofun
  | acceptAny hks =>
    cases input with
    | nil => exact Leaves.nothing nofun
    | cons t rest =>
      simp only [Parser.acceptAny]
      split
      · exact Leaves.one (hks (List.contains_iff_mem.1 ‹_›))
      · exact Leaves.nothing nofun
  | @mark γ δ g ks h k hks _ _ ihnone ihsome =>
    rw [remaining_bind]
    cases input with
    | nil =>
      rw [acceptAny_bind_nil]
      exact ihnone [] []
    | cons t rest =>
      rw [acceptAny_bind_cons]
      split
      · rw [← after_nil (h (t :: rest) (some t) rest)]
        exact takes_after (.one (hks ‹_›)) (ihsome t rest rest)
      · exact ihnone (t :: rest) (t :: rest)
  | expect what hkind =>
    cases input with
    | nil => exact Leaves.nothing nofun
    | cons t rest =>
      simp only [Parser.expect]
      split
      · rename_i hk
        exact Leaves.one (hk ▸ hkind)
      · exact Leaves.nothing nofun
  | @bind _ _ _ _ _ _ p _ h _ _ _ ihp ihh =>
    have hp := ihp input
    rw [bind_apply]
    cases ho : p input with
    | ok a mid complaints =>
      rw [ho] at hp
      exact takes_after hp (ihh a mid)
    | fail what mid complaints =>
      rw [ho] at hp
      exact hp
    | outOfFuel => trivial
  | @recover p _ hkinds _ ih =>
    have hp := ih input
    simp only [Parser.recover]
    cases ho : p input with
    | ok s rest complaints =>
      rw [ho] at hp
      exact hp
    | fail what rest complaints =>
      rw [ho] at hp
      exact Leaves.trans hp (leaves_synchronize hkinds what rest)
    | outOfFuel => trivial
  | @sized _ _ _ p _ _ ih => exact ih input.length input.length (Nat.le_refl _) input

/-! ## What is not seen -/

/-- A parser that ends before the end of its input does not see what stands behind it: at another
place and before any tail its mate does the same, and leaves the tail. Without a tail this holds of
any parse. -/
theorem moves (h : InStep r tail kinds f p q) {input : List Stamped}
    (hs : (p input).IsSettled tail) :
    q (input.map (Stamped.relabel r) ++ tail) = (p input).move r tail f := by
  induction h generalizing input with
  | ret a => rfl
  | exhausted => exact hs.elim
  | fail what => rfl
  | complainAt t rest hproblem => rfl
  | complainIf wrong hproblem => cases wrong <;> rfl
  | ahead kind =>
    cases input with
    | nil =>
      obtain rfl : tail = [] := hs rfl
      rfl
    | cons t rest => rfl
  | atEnd =>
    cases input with
    | nil =>
      obtain rfl : tail = [] := hs rfl
      rfl
    | cons t rest => rfl
  | atBodyEnd =>
    cases input with
    | nil =>
      obtain rfl : tail = [] := hs rfl
      rfl
    | cons t rest => rfl
  | @acceptAny ks hks =>
    cases input with
    | nil =>
      obtain rfl : tail = [] := hs rfl
      rfl
    | cons t rest =>
      by_cases hk : ks.contains t.token.kind = true
      · have hk' : ks.contains (t.relabel r).token.kind = true := hk
        simp only [Parser.acceptAny, List.map_cons, List.cons_append, hk, hk', if_true]
        rfl
      · have hk' : ¬ ks.contains (t.relabel r).token.kind = true := hk
        simp only [Parser.acceptAny, List.map_cons, List.cons_append, hk, hk']
        rfl
  | @mark γ δ g ks h k hks hnone _ ihnone ihsome =>
    rw [remaining_bind] at hs ⊢
    rw [remaining_bind]
    cases input with
    | nil =>
      rw [acceptAny_bind_nil] at hs ⊢
      obtain rfl := eq_nil_of_isSettled ((hnone []).takes []) hs rfl
      exact (acceptAny_bind_nil ks _).trans (ihnone [] hs)
    | cons t rest =>
      rw [acceptAny_bind_cons] at hs ⊢
      refine (acceptAny_bind_cons ks _ (t.relabel r) _).trans ?_
      by_cases hk : t.token.kind ∈ ks
      · rw [if_pos hk] at hs ⊢
        exact (if_pos hk).trans (ihsome t rest hs)
      · rw [if_neg hk] at hs ⊢
        exact (if_neg hk).trans (ihnone (t :: rest) hs)
  | @expect kind what hkind =>
    cases input with
    | nil =>
      obtain rfl : tail = [] := hs rfl
      rfl
    | cons t rest =>
      by_cases hk : t.token.kind = kind
      · have hk' : (t.relabel r).token.kind = kind := hk
        simp only [Parser.expect, List.map_cons, List.cons_append, hk, hk', if_true]
        rfl
      · have hk' : ¬ (t.relabel r).token.kind = kind := hk
        simp only [Parser.expect, List.map_cons, List.cons_append, hk, hk', if_false]
        rfl
  | @bind _ _ _ _ f g p q h k _ hh ihp ihh =>
    rw [bind_apply] at hs ⊢
    rw [bind_apply]
    cases ho : p input with
    | ok a mid complaints =>
      rw [ho] at hs
      have hs := isSettled_after.1 hs
      have hmid : (p input).IsSettled tail := by
        rw [ho]
        exact eq_nil_of_isSettled ((hh a).takes mid) hs
      rw [ihp hmid, ho]
      exact (congrArg (after _) (ihh a hs)).trans (move_after r tail g complaints _).symm
    | fail what mid complaints =>
      rw [ho] at hs
      rw [ihp (by rw [ho]; exact hs), ho]
      rfl
    | outOfFuel =>
      rw [ho] at hs
      exact hs.elim
  | @recover p q hkinds _ ih =>
    simp only [Parser.recover] at hs ⊢
    cases ho : p input with
    | ok s rest complaints =>
      rw [ho] at hs
      rw [ih (by rw [ho]; exact hs), ho]
      rfl
    | fail what rest complaints =>
      rw [ho] at hs
      have hrest : rest = [] → tail = [] := fun hnil => hs (by rw [hnil]; rfl)
      rw [ih (by rw [ho]; exact hrest), ho]
      simp only [Parsed.move, synchronize_append r hs, List.map_append]
      rfl
    | outOfFuel =>
      rw [ho] at hs
      exact hs.elim
  | @sized _ _ f p q _ ih =>
    refine ih input.length _ ?_ hs
    rw [List.length_append, List.length_map]
    exact Nat.le_add_right _ _

end InStep

end Parser
end Lox
