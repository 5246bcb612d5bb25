import Mathlib
import Lox.Program.Parse

/-!
# Lox.Proofs.Parse.Recovery

Where a parse goes on after a failed declaration. It skips to the next boundary, before a starter or
after a semicolon, whatever braces stand on the way. So a closing brace is still there afterwards
exactly if a boundary comes first (`declaration_keeps_brace_iff`); a block whose last declaration
fails for want of a semicolon loses its own brace (`block_without_brace`).
-/

namespace Lox
namespace Parser

/-- The keywords before which skipping stops. -/
def starters : List TokenKind :=
  [.kwClass, .kwFun, .kwVar, .kwFor, .kwIf, .kwWhile, .kwReturn]

theorem synchronize_of_semicolon {t : Stamped} (u : Stamped) (rest : List Stamped)
    (h : t.token.kind = .semicolon) : synchronize (t :: u :: rest) = u :: rest := by
  rw [synchronize, if_pos h]

theorem synchronize_of_starter (t : Stamped) {u : Stamped} (rest : List Stamped)
    (h : u.token.kind ∈ starters) : synchronize (t :: u :: rest) = u :: rest := by
  have hu : [TokenKind.kwClass, .kwFun, .kwVar, .kwFor, .kwIf, .kwWhile, .kwReturn].contains
      u.token.kind = true := List.contains_iff_mem.2 h
  rw [synchronize, if_pos hu, ite_self]

theorem synchronize_of_neither {t u : Stamped} (rest : List Stamped)
    (ht : t.token.kind ≠ .semicolon) (hu : u.token.kind ∉ starters) :
    synchronize (t :: u :: rest) = synchronize (u :: rest) := by
  have hu : ¬ [TokenKind.kwClass, .kwFun, .kwVar, .kwFor, .kwIf, .kwWhile, .kwReturn].contains
      u.token.kind = true := mt List.contains_iff_mem.1 hu
  rw [synchronize, if_neg ht, if_neg hu]

/-- Skipping only drops tokens, and the first one always. -/
theorem synchronize_suffix (t : Stamped) (rest : List Stamped) :
    synchronize (t :: rest) <:+ rest := by
  induction rest generalizing t with
  | nil => exact List.suffix_rfl
  | cons u rest ih =>
    by_cases ht : t.token.kind = .semicolon
    · rw [synchronize_of_semicolon u rest ht]
    · by_cases hu : u.token.kind ∈ starters
      · rw [synchronize_of_starter t rest hu]
      · rw [synchronize_of_neither rest ht hu]
        exact (ih u).trans (List.suffix_cons u rest)

/-- A boundary among `skipped`: after a semicolon, or before a starter that is not the first
token. -/
def HasBoundary (skipped : List Stamped) : Prop :=
  (∃ t ∈ skipped, t.token.kind = .semicolon) ∨ ∃ u ∈ skipped.tail, u.token.kind ∈ starters

theorem hasBoundary_cons {t u : Stamped} {skipped : List Stamped}
    (ht : t.token.kind ≠ .semicolon) (hu : u.token.kind ∉ starters) :
    HasBoundary (t :: u :: skipped) ↔ HasBoundary (u :: skipped) := by
  simp [HasBoundary, ht, hu]

/-- A token that is not first is kept exactly if it starts something or a boundary comes before. -/
theorem suffix_synchronize_iff {skipped after : List Stamped} {close : Stamped}
    (hclose : close.token.kind ∉ starters) :
    close :: after <:+ synchronize (skipped ++ close :: after) ↔ HasBoundary skipped := by
  induction skipped with
  | nil =>
    refine iff_of_false (fun h => ?_) (by simp [HasBoundary])
    have hlength := (h.trans (synchronize_suffix close after)).length_le
    rw [List.length_cons] at hlength
    omega
  | cons t skipped ih =>
    by_cases ht : t.token.kind = .semicolon
    · refine iff_of_true ?_ (.inl ⟨t, List.mem_cons_self, ht⟩)
      cases skipped with
      | nil =>
        rw [List.cons_append, List.nil_append, synchronize_of_semicolon close after ht]
      | cons u skipped =>
        rw [List.cons_append, List.cons_append, synchronize_of_semicolon u _ ht]
        exact List.suffix_append (u :: skipped) (close :: after)
    · cases skipped with
      | nil =>
        rw [List.cons_append, List.nil_append, synchronize_of_neither after ht hclose]
        simpa [HasBoundary, ht] using ih
      | cons u skipped =>
        by_cases hu : u.token.kind ∈ starters
        · refine iff_of_true ?_ (.inr ⟨u, List.mem_cons_self, hu⟩)
          rw [List.cons_append, List.cons_append, synchronize_of_starter t _ hu]
          exact List.suffix_append (u :: skipped) (close :: after)
        · rw [List.cons_append, List.cons_append, synchronize_of_neither _ ht hu,
            ← List.cons_append, ih, hasBoundary_cons ht hu]

/-- A failed declaration leaves a placeholder and a complaint at the token it failed at, and a
closing brace that follows is still to be read exactly if a boundary comes before it. -/
theorem declaration_keeps_brace_iff {n : Nat} {input skipped outside : List Stamped}
    {close : Stamped} {what : Expected} {complaints : List Complaint}
    (hfail : bareDeclarationIn n input = .fail what (skipped ++ close :: outside) complaints)
    (hclose : close.token.kind = .rightBrace) :
    ∃ rest, declarationIn (n + 1) input =
        .ok .placeholder rest (complaints ++ [⟨.expected what, skipped ++ close :: outside⟩]) ∧
      (close :: outside <:+ rest ↔ HasBoundary skipped) := by
  refine ⟨synchronize (skipped ++ close :: outside), ?_, ?_⟩
  · rw [declarationIn_succ, recover, hfail]
  · exact suffix_synchronize_iff (by rw [hclose]; decide)

/-- The tokens of a text in which a block's only statement lacks its semicolon. -/
def unfinished : List Token :=
  [⟨.leftBrace, "\x7b", none, 1⟩, ⟨.identifier, "a", none, 1⟩, ⟨.rightBrace, "\x7d", none, 1⟩,
   ⟨.kwVar, "var", none, 1⟩, ⟨.identifier, "b", none, 1⟩, ⟨.semicolon, ";", none, 1⟩]

theorem declaration_keeps_brace_iff_unfinished :
    ∃ rest, declarationIn 13 ((Stamped.ofTokens 0 unfinished).drop 1) =
        .ok .placeholder rest
          [⟨.expected .expressionEnd, (Stamped.ofTokens 0 unfinished).drop 2⟩] ∧
      ¬ (Stamped.ofTokens 0 unfinished).drop 2 <:+ rest := by
  have hfail : bareDeclarationIn 12 ((Stamped.ofTokens 0 unfinished).drop 1) =
      .fail .expressionEnd ((Stamped.ofTokens 0 unfinished).drop 2) [] := rfl
  obtain ⟨rest, hrun, hkept⟩ := @declaration_keeps_brace_iff 12 _ [] _ _ _ _ hfail rfl
  exact ⟨rest, hrun, fun h => by simpa [HasBoundary] using hkept.1 h⟩

/-- The block does not end at its own brace: what follows is taken into it, and the brace is missed
at the end of the input. -/
theorem block_without_brace :
    (Parse.ofTokens 0 unfinished).statements = [.placeholder] ∧
      (Parse.ofTokens 0 unfinished).errors =
        [.parse ⟨.rightBrace, "\x7d", none, 1⟩ (.expected .expressionEnd),
         .parse (.endOfInput 1) (.expected .blockEnd)] :=
  ⟨rfl, rfl⟩

end Parser
end Lox
