import Lox.Proofs.Parse.Productions
import Lox.Proofs.Rename.Accepted
import Lox.Proofs.Rename.Joined

/-!
# Lox.Proofs.Parse.Appended

A parse falls apart where a declaration ends. A program is its first declaration, and then the
program that is left (`program_of_declaration`); so what is in front of a text changes nothing in
how the text is read, if it can be read by itself and no `else` follows it (`program_append`).
Numbered from another number on, the same tokens give the same tree with other numbers, and the same
errors (`Parse.ofTokens_renumbered`).
-/

namespace Lox
namespace Parser

/-! ## The first declaration -/

/-- A declaration always comes to an end, and takes a token at least. -/
theorem declaration_eq_ok {input : List Stamped} (hne : input ≠ []) :
    ∃ s mid earlier, declaration input = .ok s mid earlier ∧ mid.length < input.length := by
  have hlength := within_declaration input (List.length_pos_of_ne_nil hne)
  cases hs : declaration input with
  | ok s mid earlier =>
    rw [hs] at hlength
    exact ⟨s, mid, earlier, rfl, hlength⟩
  | fail what mid earlier => exact absurd hs recover_ne_fail
  | outOfFuel =>
    rw [hs] at hlength
    exact hlength.elim

theorem programIn_of_declaration {n : Nat} {input mid : List Stamped} {s : Stmt} {ss : List Stmt}
    {earlier later : List Complaint} (hne : input ≠ [])
    (hs : declaration input = .ok s mid earlier) (hss : programIn n mid = .ok ss [] later) :
    programIn (n + 1) input = .ok (s :: ss) [] (earlier ++ later) := by
  have hempty : input.isEmpty = false := List.isEmpty_eq_false_iff.2 hne
  simp [Production.programIn, bind_apply, atEnd, hempty, hs, hss, pure_apply, after]

/-- More fuel than there are tokens makes no difference. -/
theorem programIn_eq_program {n : Nat} {input : List Stamped} (hn : input.length < n) :
    programIn n input = program input := by
  suffices h : ∀ m, input.length < m → programIn n input = programIn m input from
    h _ (Nat.lt_succ_self _)
  induction n generalizing input with
  | zero => exact absurd hn (Nat.not_lt_zero _)
  | succ n ih =>
    intro m hm
    obtain ⟨m, rfl⟩ : ∃ k, m = k + 1 := ⟨m - 1, by omega⟩
    by_cases hne : input = []
    · rw [hne]
      rfl
    · obtain ⟨s, mid, earlier, hs, hlength⟩ := declaration_eq_ok hne
      obtain ⟨ss, later, hss⟩ := programIn_eq_ok n mid (by omega)
      have hss' := hss
      rw [ih (by omega) m (by omega)] at hss'
      rw [programIn_of_declaration hne hs hss, programIn_of_declaration hne hs hss']

theorem program_of_declaration {input mid : List Stamped} {s : Stmt} {ss : List Stmt}
    {earlier later : List Complaint} (hne : input ≠ []) (hs : declaration input = .ok s mid earlier)
    (hss : program mid = .ok ss [] later) :
    program input = .ok (s :: ss) [] (earlier ++ later) := by
  have hlength : mid.length < input.length := by
    obtain ⟨_, _, _, hs', hlength⟩ := declaration_eq_ok hne
    cases hs.symm.trans hs'
    exact hlength
  exact programIn_of_declaration hne hs ((programIn_eq_program hlength).trans hss)

/-! ## Programs one after the other -/

theorem program_append {u v : List Stamped} {ss ss' : List Stmt} {complaints : List Complaint}
    (h : Phrase (.declarations ss) u) (hv : ¬ Ahead [.kwElse] v)
    (h' : program v = .ok ss' [] complaints) :
    program (u ++ v) = .ok (ss ++ ss') [] complaints := by
  induction ss generalizing u with
  | nil =>
    cases h
    exact h'
  | cons s ss ih =>
    cases h with
    | @declarationsMore _ _ u w hs hss =>
      have hu := length_pos_of_ahead hs.starts
      have hfirst : Accepts declaration (u ++ (w ++ v)) s (w ++ v) := by
        rw [accepts_declaration]
        refine completes hs _ _ ?_ (not_ahead_else hss hv)
        simp only [declarationFuel, List.length_append]
        omega
      rw [List.append_assoc]
      refine program_of_declaration (fun hnil => ?_) hfirst (ih hss)
      rw [(List.append_eq_nil_iff.1 hnil).1] at hu
      exact Nat.lt_irrefl 0 hu

/-- The same tokens at another place are the same program there. -/
theorem program_map (r : Relabel) (input : List Stamped) :
    program (input.map (Stamped.relabel r)) = (program input).move r [] (Stmt.relabelList r) := by
  obtain ⟨ss, complaints, h⟩ := program_eq_ok input
  have hs : (program input).IsSettled [] := by
    rw [h]
    exact fun _ => rfl
  have hmoves := inStep_program.moves (r := r) hs
  rwa [List.append_nil] at hmoves

end Parser

/-! ## Token lists -/

namespace Token

variable {ts us : List Token}

theorem body_append (hts : ∀ t ∈ ts, t.kind ≠ .eof) : body (ts ++ us) = ts ++ body us :=
  List.takeWhile_append_of_pos fun t ht => by simpa using hts t ht

theorem body_eq_self (hts : ∀ t ∈ ts, t.kind ≠ .eof) : body ts = ts := by
  calc body ts = body (ts ++ []) := by rw [List.append_nil]
    _ = ts ++ [] := body_append hts
    _ = ts := List.append_nil ts

theorem endOf_append (hts : ∀ t ∈ ts, t.kind ≠ .eof) (hus : us ≠ []) :
    endOf (ts ++ us) = endOf us := by
  have hfind : ts.find? (fun t => t.kind == .eof) = none := by simpa using hts
  have hlast : (ts ++ us).getLast? = us.getLast? := List.getLast?_append_of_ne_nil ts hus
  rw [endOf, endOf, List.find?_append, hfind, Option.none_or, hlast]

end Token

theorem not_ahead_ofTokens {kind : TokenKind} {us : List Token} (n : RefId)
    (h : ∀ u ∈ us.head?, u.kind ≠ kind) :
    ¬ Parser.Ahead [kind] (Stamped.ofTokens n (Token.body us)) := by
  cases us with
  | nil => exact id
  | cons u us =>
    by_cases hu : u.kind = .eof
    · simp [Token.body, hu, Stamped.ofTokens]
    · simpa [Token.body, hu, Stamped.ofTokens] using h

/-- A complaint whose place is moved blames the same token. -/
theorem Complaint.toError_move (first first' : RefId) (tail : List Stamped) (last : Token)
    {c : Complaint} (hc : c.rest = [] → tail = []) :
    (c.move (.move first first' 0) tail).toError last = c.toError last := by
  obtain ⟨problem, rest⟩ := c
  cases rest with
  | nil => rw [hc rfl]; rfl
  | cons t rest => rfl

namespace Parse

/-- What a program parser that ends makes of the tokens. -/
theorem ofTokens_eq {first : RefId} {tokens : List Token} {ss : List Stmt}
    {complaints : List Complaint} {rest : List Stamped}
    (h : Parser.program (Stamped.ofTokens first (Token.body tokens)) = .ok ss rest complaints) :
    ofTokens first tokens = ⟨ss, complaints, Token.endOf tokens⟩ := by
  rw [ofTokens, h]

/-- Numbered from another number on, the same tokens give the same statements but for the numbers of
their references, and the same errors. -/
theorem ofTokens_renumbered (first first' : RefId) (tokens : List Token) :
    (ofTokens first' tokens).statements =
        Stmt.relabelList (.move first first' 0) (ofTokens first tokens).statements ∧
      (ofTokens first' tokens).errors = (ofTokens first tokens).errors := by
  obtain ⟨ss, complaints, h⟩ := Parser.program_eq_ok (Stamped.ofTokens first (Token.body tokens))
  have h' := Parser.program_map (.move first first' 0) (Stamped.ofTokens first (Token.body tokens))
  rw [Stamped.map_relabel_move, Token.relabel_move_zero, List.map_id, h] at h'
  rw [ofTokens_eq h, ofTokens_eq h']
  refine ⟨rfl, ?_⟩
  rw [errors, errors, List.map_map]
  exact List.map_congr_left fun c _ => Complaint.toError_move first first' [] _ fun _ => rfl

/-- The errors of a text are the same behind another text. -/
theorem errors_behind {first : RefId} {ts us : List Token} {ss : List Stmt} {rest : List Stamped}
    {complaints : List Complaint} (hts : ∀ t ∈ ts, t.kind ≠ .eof)
    (h : Parser.program (Stamped.ofTokens first (Token.body us)) = .ok ss rest complaints) :
    complaints.map (Complaint.toError (Token.endOf (ts ++ us))) = (ofTokens first us).errors := by
  rw [ofTokens_eq h, errors]
  by_cases hnil : us = []
  · subst hnil
    cases h
    rfl
  · rw [Token.endOf_append hts hnil]

/-- Tokens that parse by themselves, and no `else` behind them: what follows is parsed as it is by
itself, and its errors are found at the same places. Only the references are numbered on. -/
theorem parse_append {first first₁ first₂ : RefId} {ts us : List Token}
    (hts : ∀ t ∈ ts, t.kind ≠ .eof) (h : (ofTokens first₁ ts).errors = [])
    (hus : ∀ u ∈ us.head?, u.kind ≠ .kwElse) :
    (ofTokens first (ts ++ us)).statements =
        Stmt.relabelList (.move first₁ first 0) (ofTokens first₁ ts).statements ++
          Stmt.relabelList (.move first₂ (first + ts.length) 0) (ofTokens first₂ us).statements ∧
      (ofTokens first (ts ++ us)).errors = (ofTokens first₂ us).errors := by
  obtain ⟨hfirst, herrors⟩ := ofTokens_renumbered first₁ first ts
  obtain ⟨hsecond, herrors'⟩ := ofTokens_renumbered first₂ (first + ts.length) us
  rw [← hfirst, ← hsecond, ← herrors']
  have hphrase := phrase_of_errors (herrors.trans h)
  rw [Token.body_eq_self hts] at hphrase
  obtain ⟨ss, complaints, hprogram⟩ :=
    Parser.program_eq_ok (Stamped.ofTokens (first + ts.length) (Token.body us))
  have helse := not_ahead_ofTokens (first + ts.length) hus
  have hall := Parser.program_append hphrase helse hprogram
  rw [← Stamped.ofTokens_append, ← Token.body_append hts] at hall
  rw [← errors_behind hts hprogram, ofTokens_eq hall, ofTokens_eq hprogram]
  exact ⟨rfl, rfl⟩

/-- An `if` statement that an `else` could follow. -/
def branch : List Token :=
  [⟨.kwIf, "if", none, 1⟩, ⟨.leftParen, "(", none, 1⟩, ⟨.identifier, "a", none, 1⟩,
   ⟨.rightParen, ")", none, 1⟩, ⟨.identifier, "b", none, 1⟩, ⟨.semicolon, ";", none, 1⟩]

/-- A grouping that is not closed. -/
def unclosed : List Token :=
  [⟨.leftParen, "(", none, 2⟩, ⟨.identifier, "c", none, 2⟩, ⟨.semicolon, ";", none, 2⟩]

theorem parse_append_branch :
    (ofTokens 5 (branch ++ unclosed)).statements =
        [.ifThen (.var 7 ⟨.identifier, "a", none, 1⟩)
          (.expression (.var 9 ⟨.identifier, "b", none, 1⟩)), .placeholder] ∧
      (ofTokens 5 (branch ++ unclosed)).errors =
        [.parse ⟨.semicolon, ";", none, 2⟩ (.expected .groupingEnd)] := by
  obtain ⟨hstatements, herrors⟩ :=
    @parse_append 5 0 0 branch unclosed (by decide) rfl (by simp [unclosed])
  exact ⟨hstatements.trans rfl, herrors.trans rfl⟩

end Parse
end Lox
