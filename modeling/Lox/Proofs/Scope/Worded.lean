import Lox.Proofs.Scope.Formed
import Lox.Token.Scan

/-!
# Lox.Proofs.Scope.Worded

Scanned tokens are worded: only the keywords `this` and `super` are spelled that way
(`worded_of_mem_scan`).
-/

namespace Lox

theorem TokenKind.mem_keywords_of_ofWord {word : String} {kind : TokenKind}
    (h : TokenKind.ofWord word = kind) (hk : kind ≠ .identifier) :
    (word, kind) ∈ TokenKind.keywords := by
  unfold ofWord at h
  cases hl : keywords.lookup word with
  | none =>
    rw [hl] at h
    exact absurd h.symm hk
  | some k =>
    rw [hl] at h
    obtain ⟨before, after, heq, -⟩ := List.lookup_eq_some_iff.1 hl
    have hk : k = kind := h
    rw [heq, hk]
    simp

/-- A word is worded by its kind. -/
theorem TokenKind.worded_ofWord (word : String) (literal : Option Literal) (line : Nat) :
    Token.Worded
      { kind := TokenKind.ofWord word, lexeme := word, literal := literal, line := line } := by
  refine ⟨fun h => ⟨?_, ?_⟩, fun h => ?_, fun h => ?_⟩
  · rintro rfl
    simp [ofWord, keywords, List.lookup] at h
  · rintro rfl
    simp [ofWord, keywords, List.lookup] at h
  · have := mem_keywords_of_ofWord h (by decide)
    simpa [keywords] using this
  · have := mem_keywords_of_ofWord h (by decide)
    simpa [keywords] using this

/-- Kinds that say nothing about the spelling. -/
theorem Token.worded_of_kind {t : Token} (hi : t.kind ≠ .identifier) (ht : t.kind ≠ .kwThis)
    (hs : t.kind ≠ .kwSuper) : t.Worded :=
  ⟨fun h => absurd h hi, fun h => absurd h ht, fun h => absurd h hs⟩

namespace Scan

theorem punctuation?_kind {c : Char} {kind : TokenKind} (h : punctuation? c = some kind) :
    kind ≠ .identifier ∧ kind ≠ .kwThis ∧ kind ≠ .kwSuper := by
  unfold punctuation? at h
  split at h <;> cases h <;> decide

theorem comparison?_kind {c : Char} {alone withEqual : TokenKind}
    (h : comparison? c = some (alone, withEqual)) :
    (alone ≠ .identifier ∧ alone ≠ .kwThis ∧ alone ≠ .kwSuper) ∧
      withEqual ≠ .identifier ∧ withEqual ≠ .kwThis ∧ withEqual ≠ .kwSuper := by
  unfold comparison? at h
  split at h <;> cases h <;> decide

/-- The token of an item that starts with `c`, if it is one, is worded. -/
def Step.Worded (c : Char) (step : Step) : Prop :=
  ∀ kind literal line, step.found = .ok (kind, literal) →
    Token.Worded { kind := kind, lexeme := String.ofList (c :: step.taken),
                   literal := literal, line := line }

theorem Step.worded_of_kind {c : Char} {taken rest : List Char} {kind : TokenKind}
    {literal : Option Literal} (hi : kind ≠ .identifier) (ht : kind ≠ .kwThis)
    (hs : kind ≠ .kwSuper) : Step.Worded c ⟨taken, rest, .ok (kind, literal)⟩ := by
  intro kind literal line h
  cases h
  exact Token.worded_of_kind hi ht hs

theorem Step.worded_of_error {c : Char} {taken rest : List Char} {problem : LexProblem} :
    Step.Worded c ⟨taken, rest, .error problem⟩ := by
  intro kind literal line h
  cases h

theorem worded_string (c : Char) (cs : List Char) : Step.Worded c (string cs) := by
  unfold string
  dsimp only
  split
  · exact Step.worded_of_error
  · exact Step.worded_of_kind (by decide) (by decide) (by decide)

theorem worded_number (c : Char) (cs : List Char) : Step.Worded c (number c cs) :=
  Step.worded_of_kind (by decide) (by decide) (by decide)

theorem worded_word (c : Char) (cs : List Char) : Step.Worded c (word c cs) := by
  intro kind literal line h
  cases h
  exact TokenKind.worded_ofWord _ none line

theorem worded_item (c : Char) (cs : List Char) : Step.Worded c (item c cs) := by
  unfold item
  split
  · rename_i hp
    obtain ⟨hi, ht, hs⟩ := punctuation?_kind hp
    exact Step.worded_of_kind hi ht hs
  · split
    · rename_i hc
      obtain ⟨⟨hi, ht, hs⟩, hi', ht', hs'⟩ := comparison?_kind hc
      split
      · exact Step.worded_of_kind hi' ht' hs'
      · exact Step.worded_of_kind hi ht hs
    · split
      · exact worded_string c cs
      · split
        · exact worded_number c cs
        · split
          · exact worded_word c cs
          · exact Step.worded_of_error

theorem worded_of_mem_piecesFrom (line : Nat) (cs : List Char) :
    ∀ p ∈ piecesFrom line cs, ∀ t, p.item = .ok t → t.Worded := by
  induction line, cs using piecesFrom.induct with
  | case1 line cs gap hlen hgap =>
    intro p hp t ht
    rw [piecesFrom_of_nil line hgap, List.mem_singleton] at hp
    subst hp
    cases ht
    exact Token.worded_of_kind (by simp) (by simp) (by simp)
  | case2 line cs gap c rest hlen hgap _ step line' ih =>
    intro p hp t ht
    rw [piecesFrom_of_cons line hgap, List.mem_cons] at hp
    obtain rfl | hp := hp
    · simp only [Piece.item] at ht
      cases hf : (item c rest).found with
      | error problem =>
        rw [hf] at ht
        cases ht
      | ok found =>
        rw [hf] at ht
        cases ht
        exact worded_item c rest found.1 found.2 _ hf
    · exact ih p hp t ht

end Scan

theorem worded_of_mem_scan (source : String) : ∀ t ∈ Token.scan source, t.Worded := by
  intro t ht
  simp only [Token.scan, Scan.items, List.filterMap_map, List.mem_filterMap,
    Function.comp_apply] at ht
  obtain ⟨p, hp, ht⟩ := ht
  cases hi : p.item with
  | error e =>
    rw [hi] at ht
    cases ht
  | ok t' =>
    rw [hi] at ht
    cases ht
    exact Scan.worded_of_mem_piecesFrom 1 source.toList p hp t hi

end Lox
