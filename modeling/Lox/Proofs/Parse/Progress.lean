import Lox.Proofs.Parse.Appended
import Lox.Proofs.Parse.Performs

/-!
# Lox.Proofs.Parse.Progress

A parse goes on (`parse_progress`): what is known of the steps of a parser, said about positions and
indices in the vector of all tokens, which an end of input closes wherever the first one stands.
-/

namespace Lox

/-! ## The vector of tokens -/

namespace Token

/-- A vector is closed by appending to it. -/
theorem exists_closed (tokens : List Token) : ∃ more, closed tokens = tokens ++ more := by
  rw [closed]
  cases hlast : tokens.getLast? with
  | none =>
    rw [List.getLast?_eq_none_iff.1 hlast]
    exact ⟨_, rfl⟩
  | some t =>
    dsimp only
    split
    · exact ⟨[], (List.append_nil tokens).symm⟩
    · exact ⟨_, rfl⟩

/-- Without an end of input, one is appended. -/
theorem closed_of_find?_eq_none {tokens : List Token}
    (h : tokens.find? (fun t => t.kind == .eof) = none) :
    closed tokens = tokens ++ [endOf tokens] := by
  rw [closed, endOf, h]
  cases hlast : tokens.getLast? with
  | none => rw [List.getLast?_eq_none_iff.1 hlast]; rfl
  | some t =>
    have ht : t.kind ≠ .eof := by simpa using List.find?_eq_none.1 h t (List.mem_of_getLast? hlast)
    dsimp only
    rw [if_neg ht]
    rfl

/-- The end of the input is the first token behind the body. -/
theorem closed_eq (tokens : List Token) :
    ∃ behind, closed tokens = body tokens ++ endOf tokens :: behind := by
  cases hfind : tokens.find? fun t => t.kind == .eof with
  | some last =>
    obtain ⟨hlast, front, behind, rfl, hfront⟩ := List.find?_eq_some_iff_append.1 hfind
    have hbody : body (front ++ last :: behind) = front := by
      rw [body, List.takeWhile_append_of_pos (by simpa using hfront), List.takeWhile_cons_of_neg]
      · exact List.append_nil front
      · simpa using hlast
    obtain ⟨more, hmore⟩ := exists_closed (front ++ last :: behind)
    rw [hbody, hmore, endOf, hfind, List.append_assoc]
    exact ⟨behind ++ more, rfl⟩
  | none =>
    have hbody : body tokens = tokens := body_eq_self (by simpa using hfind)
    exact ⟨[], by rw [hbody, closed_of_find?_eq_none hfind]⟩

theorem kind_endOf (tokens : List Token) : (endOf tokens).kind = .eof := by
  rw [endOf]
  split
  · rename_i h
    simpa using List.find?_some h
  · rfl

end Token

theorem Stamped.length_ofTokens (n : RefId) (ts : List Token) :
    (Stamped.ofTokens n ts).length = ts.length := by
  rw [← List.length_map Stamped.token, Stamped.map_ofTokens]

section Vector

variable {first : RefId} {tokens : List Token}

/-- What stands in the vector at the place where a token or the end of the input is in front. -/
theorem getElem?_closed {place : List Stamped}
    (h : place <:+ Stamped.ofTokens first (Token.body tokens)) :
    (Token.closed tokens)[(Token.body tokens).length - place.length]? =
      some ((place.head?.map Stamped.token).getD (Token.endOf tokens)) := by
  obtain ⟨front, hfront⟩ := h
  obtain ⟨behind, hclosed⟩ := Token.closed_eq tokens
  have hbody : Token.body tokens = front.map Stamped.token ++ place.map Stamped.token := by
    rw [← List.map_append, hfront, Stamped.map_ofTokens]
  have hindex : (Token.body tokens).length - place.length = (front.map Stamped.token).length := by
    simp [hbody]
  rw [hindex, hclosed, hbody, List.append_assoc, List.getElem?_append_right (Nat.le_refl _),
    Nat.sub_self]
  cases place <;> rfl

/-- The errors that unwind are the complaints about failures. -/
theorem filter_unwinds (last : Token) (complaints : List Complaint) :
    (complaints.map (Complaint.toError last)).filter Error.unwinds =
      (complaints.filterMap Complaint.blame?).map fun b =>
        .parse ((b.2.head?.map Stamped.token).getD last) (.expected b.1) := by
  induction complaints with
  | nil => rfl
  | cons c complaints ih =>
    obtain ⟨problem, rest⟩ := c
    have herror : Complaint.toError last ⟨problem, rest⟩ =
        .parse ((rest.head?.map Stamped.token).getD last) problem := by
      cases rest <;> rfl
    rw [List.map_cons, List.filterMap_cons, herror]
    cases problem with
    | expected what => exact congrArg (List.cons _) ih
    | _ => exact ih

end Vector

theorem count_le_one {l : List Nat} {finish i : Nat} (hi : i < finish)
    (h : l.Pairwise fun i j => i < j ∨ i = finish ∧ j = finish) : l.count i ≤ 1 := by
  induction h with
  | nil => exact Nat.zero_le 1
  | @cons j l hj _ ih =>
    by_cases hij : j = i
    · subst hij
      have hnot : j ∉ l := by
        intro hmem
        obtain hlt | ⟨heq, -⟩ := hj j hmem
        · exact Nat.lt_irrefl j hlt
        · exact Nat.ne_of_lt hi heq
      rw [List.count_cons_self, List.count_eq_zero_of_not_mem hnot]
    · rw [List.count_cons_of_ne hij]
      exact ih

/-- What holds of the steps of a parse in the vector of its tokens, with the first end of input
`last` at the position `finish`. -/
structure Parse.GoesOn (vector : List Token) (finish : Nat) (last : Token) (errors : List Error)
    (steps : List Parser.Step) : Prop where
  /-- The position never decreases. -/
  forward : steps.Pairwise fun s s' => s.position finish ≤ s'.position finish
  /-- No index is out of range. -/
  inRange : ∀ s ∈ steps, s.index finish < vector.length
  /-- At the position of a step is the token that is in front there, or the end of input. -/
  inFront : ∀ s ∈ steps,
    vector[s.position finish]? = some ((s.left.head?.map Stamped.token).getD last)
  /-- Each error that unwinds blames the token at the position that it is raised at. -/
  blamed : (errors.filter Error.unwinds).map some =
    (Parser.failures finish steps).map fun b =>
      vector[b.2]?.map fun t => Error.parse t (.expected b.1)
  /-- From one such error to the next, the position increases but at the end. -/
  further : ((Parser.failures finish steps).map Prod.snd).Pairwise
    fun i j => i < j ∨ i = finish ∧ j = finish
  /-- No token before the end is blamed by two of them. -/
  once : ∀ i < finish, ((Parser.failures finish steps).map Prod.snd).count i ≤ 1

section

variable {first : RefId} {tokens : List Token} {steps : List Parser.Step} {ss : List Stmt}
  {complaints : List Complaint}

theorem pairwise_failures
    (h : Parser.Performs Parser.program (Stamped.ofTokens first (Token.body tokens)) steps
      (.ok ss [] complaints)) :
    ((Parser.failures (Token.body tokens).length steps).map Prod.snd).Pairwise
      fun i j => i < j ∨ i = (Token.body tokens).length ∧ j = (Token.body tokens).length := by
  have hpositions : (Parser.failures (Token.body tokens).length steps).map Prod.snd =
      ((complaints.filterMap Complaint.blame?).map Prod.snd).map
        fun place => (Token.body tokens).length - place.length := by
    rw [Parser.failures, h.blames, List.map_map, List.map_map]
    rfl
  rw [hpositions, List.pairwise_map]
  have hplaces := (List.pairwise_append.1 h.pairwise_stops).1
  refine hplaces.imp_of_mem fun {a b} ha hb hlater => ?_
  have hlength := (h.suffix_of_mem_stops a (List.mem_append_left _ ha)).length_le
  rw [Stamped.length_ofTokens] at hlength
  obtain hlt | ⟨rfl, rfl⟩ := hlater
  · exact .inl (by omega)
  · exact .inr ⟨rfl, rfl⟩

theorem goesOn_of_performs
    (h : Parser.Performs Parser.program (Stamped.ofTokens first (Token.body tokens)) steps
      (.ok ss [] complaints)) :
    Parse.GoesOn (Token.closed tokens) (Token.body tokens).length (Token.endOf tokens)
      (complaints.map (Complaint.toError (Token.endOf tokens))) steps := by
  have hsuffix := h.walks.suffix_of_mem
  refine ⟨?_, fun s hs => ?_, fun s hs => getElem?_closed (hsuffix s hs), ?_, pairwise_failures h,
    fun i hi => count_le_one hi (pairwise_failures h)⟩
  · exact h.walks.pairwise.imp fun h => Nat.sub_le_sub_left h.length_le _
  · obtain ⟨behind, hclosed⟩ := Token.closed_eq tokens
    have hfinish : (Token.body tokens).length < (Token.closed tokens).length := by
      simp [hclosed]
    have hposition : s.position (Token.body tokens).length ≤ (Token.body tokens).length :=
      Nat.sub_le _ _
    rw [Parser.Step.index]
    split <;> omega
  · rw [filter_unwinds, Parser.failures, h.blames, List.map_map, List.map_map]
    refine List.map_congr_left fun b hb => ?_
    have hplace := h.suffix_of_mem_stops b.2 (List.mem_append_left _ (List.mem_map_of_mem hb))
    simp only [Function.comp_apply, getElem?_closed hplace, Option.map_some]

end

/-- Whatever the tokens, a parse takes steps and comes to its end at the first end of input, and
whichever steps it takes, it goes on through the vector of tokens without a step back and without an
index out of range. Each error that unwinds blames the token where the parser stands then, and
between two such errors the parser goes on, but at the end of the input; so no token before that is
blamed twice. -/
theorem parse_progress (first : RefId) (tokens : List Token) :
    let input := Stamped.ofTokens first (Token.body tokens)
    let finish := (Token.body tokens).length
    let vector := Token.closed tokens
    let parse := Parse.ofTokens first tokens
    (∀ i < finish, ∃ t, vector[i]? = some t ∧ t.kind ≠ .eof) ∧
    (∃ t, vector[finish]? = some t ∧ t.kind = .eof) ∧
    (∃ steps r, Parser.Performs Parser.program input steps r) ∧
    ∀ steps r, Parser.Performs Parser.program input steps r →
      r = .ok parse.statements [] parse.complaints ∧ Parser.Walks input steps [] ∧
      Parse.GoesOn vector finish (Token.endOf tokens) parse.errors steps := by
  intro input finish vector parse
  obtain ⟨behind, hvector⟩ :
    ∃ behind, vector = Token.body tokens ++ Token.endOf tokens :: behind := Token.closed_eq tokens
  obtain ⟨ss, complaints, hprogram⟩ := Parser.program_eq_ok input
  have hparse : parse = ⟨ss, complaints, Token.endOf tokens⟩ := Parse.ofTokens_eq hprogram
  refine ⟨fun i hi => ?_, ⟨Token.endOf tokens, ?_, Token.kind_endOf tokens⟩, ?_, ?_⟩
  · refine ⟨(Token.body tokens)[i], ?_, ?_⟩
    · rw [hvector, List.getElem?_append_left hi, List.getElem?_eq_getElem hi]
    · have hbody := List.mem_takeWhile_imp (List.getElem_mem hi)
      simpa using hbody
  · rw [hvector, List.getElem?_append_right (Nat.le_refl _), Nat.sub_self]
    rfl
  · have hstep : Parser.InStep (.move 0 0 0) [] TokenKind.all (Stmt.relabelList (.move 0 0 0))
        Parser.program Parser.program := Parser.inStep_program
    have hend : Parser.program input ≠ .outOfFuel := by simp [hprogram]
    obtain ⟨steps, hsteps⟩ := hstep.performs hend
    exact ⟨steps, _, hsteps⟩
  · intro steps r h
    obtain rfl : r = .ok ss [] complaints := h.eq.symm.trans hprogram
    rw [hparse]
    exact ⟨rfl, h.walks, goesOn_of_performs h⟩

end Lox
