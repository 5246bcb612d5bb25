import Lox.Program.Steps
import Lox.Proofs.Parse.Productions

/-!
# Lox.Proofs.Parse.Performs

The steps of parsers. A parser that is made in the usual ways performs steps wherever it ends
(`InStep.performs`). Whichever steps a parser performs, each of them is taken where the one before
has left off (`Performs.walks`), its failures are those that its result tells of
(`Performs.blames`), and from one failure to the next it has gone on, if there was anything left
(`Performs.pairwise_stops`).
-/

namespace Lox
namespace Parsed

variable {α β : Type}

/-- What is left of the input. -/
def rest : Parsed α → List Stamped
  | .ok _ rest _ | .fail _ rest _ => rest
  | .outOfFuel => []

def complaints : Parsed α → List Complaint
  | .ok _ _ complaints | .fail _ _ complaints => complaints
  | .outOfFuel => []

end Parsed

/-- What was expected in vain, and where, if the complaint is about that. -/
def Complaint.blame? (c : Complaint) : Option (Expected × List Stamped) :=
  match c.problem with
  | .expected what => some (what, c.rest)
  | _ => none

theorem Complaint.blame?_eq_none {problem : ParseProblem} {place : List Stamped}
    (h : ∀ what, problem ≠ .expected what) : Complaint.blame? ⟨problem, place⟩ = none := by
  cases problem with
  | expected what => exact absurd rfl (h what)
  | _ => rfl

/-- The failures of a parse in their order: those that it has recovered from, and that which it has
ended with. -/
def Parsed.blames {α : Type} : Parsed α → List (Expected × List Stamped)
  | .ok _ _ complaints => complaints.filterMap Complaint.blame?
  | .fail what rest complaints => complaints.filterMap Complaint.blame? ++ [(what, rest)]
  | .outOfFuel => []

namespace Parser

variable {α β : Type} {input rest : List Stamped} {steps : List Step} {p : Parser α} {r : Parsed α}

/-! ## The result -/

/-- The steps are those of the parser: they end in its result. -/
theorem Performs.eq (h : Performs p input steps r) : p input = r := by
  induction h with
  | ret a input => rfl
  | remaining input => rfl
  | fail what input => rfl
  | complainAt place input hproblem => rfl
  | complainIf wrong input hproblem => rfl
  | ahead kind input => rfl
  | atEnd input => rfl
  | atBodyEnd input => rfl
  | accepted rest h => exact if_pos (List.contains_iff_mem.2 h)
  | @notAccepted kinds input h =>
    cases input with
    | nil => rfl
    | cons t rest => exact if_neg (mt List.contains_iff_mem.1 (h t rfl))
  | found what rest => exact if_pos rfl
  | @notFound kind what input h =>
    cases input with
    | nil => rfl
    | cons t rest => exact if_neg (h t rfl)
  | next _ _ ihp ihf => rw [bind_apply, ihp, ← ihf]
  | unwind _ ih => rw [bind_apply, ih]
  | kept _ ih => rw [recover, ih]
  | recovered _ ih => rw [recover, ih]
  | sized _ ih => exact ih

theorem performs_acceptAny (kinds : List TokenKind) (input : List Stamped) :
    ∃ steps, Performs (acceptAny kinds) input steps (acceptAny kinds input) := by
  cases input with
  | nil => exact ⟨_, .notAccepted nofun⟩
  | cons t rest =>
    by_cases ht : t.token.kind ∈ kinds
    · rw [acceptAny, if_pos (List.contains_iff_mem.2 ht)]
      exact ⟨_, .accepted rest ht⟩
    · rw [acceptAny, if_neg (mt List.contains_iff_mem.1 ht)]
      exact ⟨_, .notAccepted fun u hu => Option.some.inj hu ▸ ht⟩

theorem performs_expect (kind : TokenKind) (what : Expected) (input : List Stamped) :
    ∃ steps, Performs (expect kind what) input steps (expect kind what input) := by
  cases input with
  | nil => exact ⟨_, .notFound what nofun⟩
  | cons t rest =>
    by_cases ht : t.token.kind = kind
    · subst ht
      rw [expect, if_pos rfl]
      exact ⟨_, .found what rest⟩
    · rw [expect, if_neg ht]
      exact ⟨_, .notFound what fun u hu => Option.some.inj hu ▸ ht⟩

/-- Where the whole ends, the first part ends. -/
theorem performs_bind {f : α → Parser β}
    (hp : p input ≠ .outOfFuel → ∃ steps, Performs p input steps (p input))
    (hf : ∀ a mid, f a mid ≠ .outOfFuel → ∃ steps, Performs (f a) mid steps (f a mid))
    (hend : (p >>= f) input ≠ .outOfFuel) :
    ∃ steps, Performs (p >>= f) input steps ((p >>= f) input) := by
  rw [bind_apply] at hend ⊢
  cases ho : p input with
  | ok a mid complaints =>
    rw [ho] at hp hend
    obtain ⟨steps, hsteps⟩ := hp nofun
    have hmid : f a mid ≠ .outOfFuel := fun hmid => hend (congrArg (after complaints) hmid)
    obtain ⟨more, hmore⟩ := hf a mid hmid
    exact ⟨_, .next hsteps hmore⟩
  | fail what mid complaints =>
    rw [ho] at hp
    obtain ⟨steps, hsteps⟩ := hp nofun
    exact ⟨_, .unwind hsteps⟩
  | outOfFuel =>
    rw [ho] at hend
    exact absurd rfl hend

/-- An optional token whose place is kept in mind. -/
theorem performs_mark {ks : List TokenKind} {h : List Stamped → Option Stamped → Parser β}
    (hnone : ∀ input, h input none input ≠ .outOfFuel →
      ∃ steps, Performs (h input none) input steps (h input none input))
    (hsome : ∀ t rest, h (t :: rest) (some t) rest ≠ .outOfFuel →
      ∃ steps, Performs (h (t :: rest) (some t)) rest steps (h (t :: rest) (some t) rest))
    (hend : (remaining >>= fun here => acceptAny ks >>= h here) input ≠ .outOfFuel) :
    ∃ steps, Performs (remaining >>= fun here => acceptAny ks >>= h here) input steps
      ((remaining >>= fun here => acceptAny ks >>= h here) input) := by
  have hwithout (hks : ∀ t ∈ input.head?, t.token.kind ∉ ks)
      (hend : h input none input ≠ .outOfFuel) :
      ∃ steps, Performs (remaining >>= fun here => acceptAny ks >>= h here) input steps
        (h input none input) := by
    obtain ⟨steps, hsteps⟩ := hnone input hend
    have hmark := Performs.next (f := fun here => acceptAny ks >>= h here) (.remaining input)
      (.next (.notAccepted hks) hsteps)
    rw [after_nil, after_nil] at hmark
    exact ⟨_, hmark⟩
  rw [remaining_bind] at hend ⊢
  cases input with
  | nil =>
    rw [acceptAny_bind_nil] at hend ⊢
    exact hwithout nofun hend
  | cons t rest =>
    rw [acceptAny_bind_cons] at hend ⊢
    by_cases ht : t.token.kind ∈ ks
    · rw [if_pos ht] at hend ⊢
      obtain ⟨steps, hsteps⟩ := hsome t rest hend
      have hmark := Performs.next (f := fun here => acceptAny ks >>= h here) (.remaining _)
        (.next (.accepted rest ht) hsteps)
      rw [after_nil, after_nil] at hmark
      exact ⟨_, hmark⟩
    · rw [if_neg ht] at hend ⊢
      exact hwithout (fun u hu => Option.some.inj hu ▸ ht) hend

theorem performs_recover {p : Parser Stmt}
    (hp : p input ≠ .outOfFuel → ∃ steps, Performs p input steps (p input))
    (hend : recover p input ≠ .outOfFuel) :
    ∃ steps, Performs (recover p) input steps (recover p input) := by
  rw [recover] at hend ⊢
  cases ho : p input with
  | ok s rest complaints =>
    rw [ho] at hp
    obtain ⟨steps, hsteps⟩ := hp (by simp)
    exact ⟨_, .kept hsteps⟩
  | fail what rest complaints =>
    rw [ho] at hp
    obtain ⟨steps, hsteps⟩ := hp (by simp)
    exact ⟨_, .recovered hsteps⟩
  | outOfFuel =>
    rw [ho] at hend
    exact absurd rfl hend

/-- Parsers that are made in the usual ways perform steps, if they end. -/
theorem InStep.performs {r : Relabel} {tail : List Stamped} {kinds : List TokenKind} {f : α → β}
    {q : Parser β} (h : InStep r tail kinds f p q) (hend : p input ≠ .outOfFuel) :
    ∃ steps, Performs p input steps (p input) := by
  induction h generalizing input with
  | ret a => exact ⟨_, .ret a input⟩
  | exhausted => exact absurd rfl hend
  | fail what => exact ⟨_, .fail what input⟩
  | complainAt t rest hproblem => exact ⟨_, .complainAt (t :: rest) input hproblem⟩
  | complainIf wrong hproblem => exact ⟨_, .complainIf wrong input hproblem⟩
  | ahead kind => exact ⟨_, .ahead kind input⟩
  | atEnd => exact ⟨_, .atEnd input⟩
  | atBodyEnd => exact ⟨_, .atBodyEnd input⟩
  | acceptAny hks => exact performs_acceptAny _ input
  | mark _ _ _ ihnone ihsome =>
    exact performs_mark (fun here => ihnone here) (fun t rest => ihsome t rest) hend
  | expect what hkind => exact performs_expect _ what input
  | bind _ _ ihp ihh => exact performs_bind ihp (fun a mid => ihh a) hend
  | recover hkinds _ ih => exact performs_recover ih hend
  | sized _ ih =>
    obtain ⟨steps, h⟩ := ih input.length input.length (Nat.le_refl _) hend
    exact ⟨steps, .sized h⟩

/-! ## The way -/

namespace Walks

variable {here mid there : List Stamped} {more : List Step}

theorem trans (h : Walks here steps mid) (h' : Walks mid more there) :
    Walks here (steps ++ more) there := by
  induction h with
  | done here => exact h'
  | stay haction _ ih => exact .stay haction (ih h')
  | advance _ ih => exact .advance (ih h')

theorem peek (here : List Stamped) : Walks here [⟨.peek, here⟩] here :=
  .stay nofun (.done here)

theorem taking (t : Stamped) (rest : List Stamped) : Walks (t :: rest) (taking t rest) rest :=
  .stay nofun (.advance (.stay nofun (.done rest)))

/-- The steps of skipping go where skipping goes. -/
theorem skipping : ∀ input : List Stamped, Walks input (skipping input) (synchronize input)
  | [] => .stay nofun (.stay nofun (peek []))
  | [t] => (taking t []).trans (peek [])
  | t :: u :: rest => by
    rw [Parser.skipping, synchronize]
    refine (taking t (u :: rest)).trans (.stay nofun ?_)
    split
    · exact .done _
    · split
      · exact .done _
      · exact skipping (u :: rest)

theorem suffix (h : Walks here steps there) : there <:+ here := by
  induction h with
  | done here => exact List.suffix_rfl
  | stay _ _ ih => exact ih
  | advance _ ih => exact ih.trans (List.suffix_cons _ _)

/-- A way goes on only. -/
theorem suffix_of_mem (h : Walks here steps there) : ∀ s ∈ steps, s.left <:+ here := by
  induction h with
  | done here => exact nofun
  | stay _ _ ih => exact List.forall_mem_cons.2 ⟨List.suffix_rfl, ih⟩
  | advance _ ih =>
    refine List.forall_mem_cons.2 ⟨List.suffix_rfl, fun s hs => ?_⟩
    exact (ih s hs).trans (List.suffix_cons _ _)

theorem pairwise (h : Walks here steps there) : steps.Pairwise fun s s' => s'.left <:+ s.left := by
  induction h with
  | done here => exact .nil
  | stay _ hsteps ih => exact .cons hsteps.suffix_of_mem ih
  | advance hsteps ih =>
    exact .cons (fun s hs => (hsteps.suffix_of_mem s hs).trans (List.suffix_cons _ _)) ih

end Walks

theorem rest_after (complaints : List Complaint) (r : Parsed α) :
    (after complaints r).rest = r.rest := by
  cases r <;> rfl

/-- Each step of a parser is taken where the one before it has left off. -/
theorem Performs.walks (h : Performs p input steps r) : Walks input steps r.rest := by
  induction h with
  | ret a input => exact .done input
  | remaining input => exact .done input
  | fail what input => exact .stay nofun (.done input)
  | complainAt place input hproblem => exact .done input
  | complainIf wrong input hproblem =>
    cases wrong with
    | false => exact .done input
    | true => exact .peek input
  | ahead kind input => cases input <;> exact .peek _
  | atEnd input => exact .peek input
  | atBodyEnd input => cases input <;> exact .peek _
  | accepted rest h => exact .taking _ rest
  | notAccepted h => exact .peek _
  | found what rest => exact .taking _ rest
  | notFound what h => exact .stay nofun (.stay nofun (.done _))
  | next _ _ ihp ihf =>
    rw [rest_after]
    exact ihp.trans ihf
  | unwind _ ih => exact ih
  | kept _ ih => exact ih
  | recovered _ ih => exact ih.trans (.skipping _)
  | sized _ ih => exact ih

/-! ## The failures -/

theorem filterMap_blame?_skipping : ∀ input : List Stamped,
    (skipping input).filterMap Step.blame? = []
  | [] | [_] => rfl
  | t :: u :: rest => by
    have hskip := filterMap_blame?_skipping (u :: rest)
    rw [skipping]
    split
    · rfl
    · split
      · rfl
      · rw [List.filterMap_append, List.filterMap_cons, hskip]
        rfl

theorem Performs.ne_outOfFuel (h : Performs p input steps r) : r ≠ .outOfFuel := by
  induction h with
  | ahead kind input => cases input <;> nofun
  | atEnd input => nofun
  | atBodyEnd input => cases input <;> nofun
  | @next _ _ _ _ _ _ _ _ _ _ r _ _ _ ihf =>
    cases r with
    | outOfFuel => exact absurd rfl ihf
    | _ => nofun
  | sized _ ih => exact ih
  | _ => nofun

theorem blames_after {complaints : List Complaint} (h : r ≠ .outOfFuel) :
    (after complaints r).blames = complaints.filterMap Complaint.blame? ++ r.blames := by
  cases r with
  | ok a rest later => exact List.filterMap_append
  | fail what rest later =>
    simp only [after, Parsed.blames, List.filterMap_append, List.append_assoc]
  | outOfFuel => exact absurd rfl h

/-- The failures on the way are those of the result. -/
theorem Performs.blames (h : Performs p input steps r) :
    steps.filterMap Step.blame? = r.blames := by
  induction h with
  | complainAt place input hproblem =>
    simp [Parsed.blames, Complaint.blame?_eq_none hproblem]
  | complainIf wrong input hproblem =>
    cases wrong with
    | false => rfl
    | true => simp [Parsed.blames, Complaint.blame?_eq_none hproblem, Step.blame?]
  | ahead kind input => cases input <;> rfl
  | atBodyEnd input => cases input <;> rfl
  | next _ hf ihp ihf =>
    rw [List.filterMap_append, ihp, ihf, blames_after hf.ne_outOfFuel]
    rfl
  | unwind _ ih => exact ih
  | kept _ ih => exact ih
  | recovered _ ih =>
    rw [List.filterMap_append, filterMap_blame?_skipping, ih, List.append_nil]
    simp only [Parsed.blames, List.filterMap_append]
    rfl
  | sized _ ih => exact ih
  | _ => rfl

/-- Further on in the input, or again at its end. -/
def Later (a b : List Stamped) : Prop := b.length < a.length ∨ a = [] ∧ b = []

theorem Later.suffix {a b c : List Stamped} (h : Later a b) (hc : c <:+ b) : Later a c := by
  obtain hlt | ⟨ha, rfl⟩ := h
  · exact .inl (Nat.lt_of_le_of_lt hc.length_le hlt)
  · exact .inr ⟨ha, List.suffix_nil.1 hc⟩

/-- Skipping goes on. -/
theorem later_synchronize (input : List Stamped) : Later input (synchronize input) := by
  cases input with
  | nil => exact .inr ⟨rfl, rfl⟩
  | cons t rest => exact .inl (Nat.lt_succ_of_le (length_synchronize (t :: rest)))

/-- Where the failures were that the parse has recovered from, and where it has ended. -/
def stops (r : Parsed α) : List (List Stamped) :=
  (r.complaints.filterMap Complaint.blame?).map Prod.snd ++ [r.rest]

theorem stops_after {complaints : List Complaint} (h : r ≠ .outOfFuel) :
    stops (after complaints r) =
      (complaints.filterMap Complaint.blame?).map Prod.snd ++ stops r := by
  cases r with
  | outOfFuel => exact absurd rfl h
  | ok a rest later | fail what rest later =>
    simp only [after, stops, Parsed.complaints, Parsed.rest, List.filterMap_append, List.map_append,
      List.append_assoc]

theorem mem_blames_of_mem_complaints {b : Expected × List Stamped}
    (h : b ∈ r.complaints.filterMap Complaint.blame?) : b ∈ r.blames := by
  cases r with
  | ok a rest complaints => exact h
  | fail what rest complaints => exact List.mem_append_left _ h
  | outOfFuel => exact h

theorem Performs.suffix_of_mem_stops (h : Performs p input steps r) :
    ∀ place ∈ stops r, place <:+ input := by
  have hblames : ∀ b ∈ r.blames, b.2 <:+ input := by
    rw [← h.blames]
    intro b hb
    obtain ⟨⟨action, left⟩, hs, hblame⟩ := List.mem_filterMap.1 hb
    cases action with
    | blame what =>
      cases hblame
      exact h.walks.suffix_of_mem _ hs
    | _ => cases hblame
  refine List.forall_mem_append.2 ⟨fun place hplace => ?_, ?_⟩
  · obtain ⟨b, hb, rfl⟩ := List.mem_map.1 hplace
    exact hblames b (mem_blames_of_mem_complaints hb)
  · exact List.forall_mem_singleton.2 h.walks.suffix

/-- From one failure to the next, and to where the parse ends, it goes on. -/
theorem Performs.pairwise_stops (h : Performs p input steps r) : (stops r).Pairwise Later := by
  induction h with
  | complainAt place input hproblem =>
    simp [stops, Parsed.complaints, Complaint.blame?_eq_none hproblem]
  | complainIf wrong input hproblem =>
    cases wrong <;> simp [stops, Parsed.complaints, Complaint.blame?_eq_none hproblem]
  | ahead kind input => cases input <;> exact List.pairwise_singleton ..
  | atBodyEnd input => cases input <;> exact List.pairwise_singleton ..
  | next hp hf ihp ihf =>
    rw [stops_after hf.ne_outOfFuel]
    obtain ⟨hplaces, -, hmid⟩ := List.pairwise_append.1 ihp
    refine List.pairwise_append.2 ⟨hplaces, ihf, fun a ha b hb => ?_⟩
    exact (hmid a ha _ (List.mem_singleton_self _)).suffix (hf.suffix_of_mem_stops b hb)
  | unwind _ ih => exact ih
  | kept _ ih => exact ih
  | @recovered _ _ rest _ what complaints _ ih =>
    have hstops : stops (.ok Stmt.placeholder (synchronize rest)
        (complaints ++ [⟨.expected what, rest⟩])) =
          stops (.fail what rest complaints : Parsed Stmt) ++ [synchronize rest] := by
      simp only [stops, Parsed.complaints, Parsed.rest, List.filterMap_append, List.map_append]
      rfl
    rw [hstops]
    refine List.pairwise_append.2 ⟨ih, List.pairwise_singleton .., fun a ha b hb => ?_⟩
    rw [List.mem_singleton.1 hb]
    have hlast := (List.pairwise_append.1 ih).2.2
    obtain ha | ha := List.mem_append.1 ha
    · exact (hlast a ha rest (List.mem_singleton_self rest)).suffix (Walks.skipping rest).suffix
    · rw [List.mem_singleton.1 ha]
      exact later_synchronize rest
  | sized _ ih => exact ih
  | _ => exact List.pairwise_singleton ..

end Parser

end Lox
