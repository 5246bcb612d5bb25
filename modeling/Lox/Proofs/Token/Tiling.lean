import Mathlib
import Lox.Proofs.Scope.Worded
import Lox.Proofs.Token.Bytes

/-!
# Lox.Proofs.Token.Tiling

The items of a scan tile the source (`tiles_source`): byte range after byte range, with only blanks
and comments between them, up to the one token for the end of the input, after which nothing comes.
-/

namespace Lox
namespace Scan

/-! ## What the scan promises -/

/-- Blanks and comments. A comment reaches up to the next line feed, and only one at the end of the
input, where `last` is true, has none after it. -/
inductive IsGap (last : Bool) : List Char → Prop where
  | nil : IsGap last []
  | blank {c : Char} {cs : List Char} (hc : c = ' ' ∨ c = '\r' ∨ c = '\t' ∨ c = '\n')
      (rest : IsGap last cs) : IsGap last (c :: cs)
  | comment {body cs : List Char} (hb : '\n' ∉ body) (rest : IsGap last ('\n' :: cs)) :
      IsGap last ('/' :: '/' :: (body ++ '\n' :: cs))
  | lastComment {body : List Char} (hb : '\n' ∉ body) (hl : last = true) :
      IsGap last ('/' :: '/' :: body)

/-- No token starts with the character, and no gap either. -/
structure Unexpected (c : Char) : Prop where
  blank : isBlank c = false
  punctuation : punctuation? c = none
  comparison : comparison? c = none
  quote : c ≠ '"'
  digit : c.isDigit = false
  word : startsWord c = false

/-- The byte after the last of `spans`. -/
def endOf (spans : List Span) : Nat := (spans.getLast?.map Span.stop).getD 0

def Span.IsEnd (s : Span) : Prop := ∃ t, s.item = .ok t ∧ t.kind = .eof

/-- What an error covers: one character that nothing starts with, or a quote with everything after
it, in which case only the token for the end of the input comes after it. -/
inductive Covers (source : String) (s : Span) (after : List Span) : LexProblem → Prop where
  | character {c : Char} (hc : Unexpected c)
      (text : slice source s.start s.stop = (String.singleton c).toByteArray) :
      Covers source s after (.unexpectedCharacter c)
  | quote {body : List Char} (hb : '"' ∉ body)
      (text : slice source s.start s.stop = (String.ofList ('"' :: body)).toByteArray)
      (rest : s.stop = source.utf8ByteSize) (last : ∃ e, e.IsEnd ∧ after = [e]) :
      Covers source s after .unterminatedString

/-- The place of an item in the source, among the items before and after it. -/
structure Placed (source : String) (before : List Span) (s : Span) (after : List Span) : Prop where
  forward : endOf before ≤ s.start ∧ s.start ≤ s.stop
  /-- Only the item for the end of the input is empty. -/
  full : s.start = s.stop ↔ s.IsEnd
  starts : String.Pos.Raw.IsValid source ⟨s.start⟩
  stops : String.Pos.Raw.IsValid source ⟨s.stop⟩
  gap : ∃ gap, IsGap (s.start == source.utf8ByteSize) gap ∧
    slice source (endOf before) s.start = (String.ofList gap).toByteArray
  token : ∀ t, s.item = .ok t →
    t.lexeme.toByteArray = slice source s.start s.stop ∧ t.line = 1 + lineFeeds source s.stop
  error : ∀ e, s.item = .error e → ∃ problem,
    e = .lex (1 + lineFeeds source s.stop) problem ∧ Covers source s after problem

/-- `spans` tile the source. -/
structure Tiles (source : String) (spans : List Span) : Prop where
  placed : ∀ before s after, spans = before ++ s :: after → Placed source before s after
  ordered : spans.Pairwise fun s t => s.stop ≤ t.start
  /-- The input ends once, where the source does. -/
  ends : ∃ before s, spans = before ++ [s] ∧ (∀ r ∈ before, ¬ r.IsEnd) ∧
    s.item = .ok { kind := .eof, lexeme := "", literal := none,
                   line := 1 + lineFeeds source source.utf8ByteSize } ∧
    s.stop = source.utf8ByteSize

/-! ## Gaps -/

/-- A comment that the scan is in the middle of: what stands before `cs` is its first slash, the
second being in `cs`, or both slashes with text after them. -/
inductive Opened (cs : List Char) : List Char → Prop where
  | slash (h : cs.head? = some '/') : Opened cs ['/']
  | text {body : List Char} (h : '\n' ∉ body) : Opened cs ('/' :: '/' :: body)

theorem Opened.push {cs lead : List Char} {c : Char} (h : Opened (c :: cs) lead) (hc : c ≠ '\n') :
    Opened cs (lead ++ [c]) := by
  cases h with
  | slash h =>
    have : c = '/' := by simpa using h
    subst this
    exact @Opened.text cs [] (by simp)
  | @text body h =>
    have : '\n' ∉ body ++ [c] := by
      simp only [List.mem_append, List.mem_singleton, not_or]
      exact ⟨h, Ne.symm hc⟩
    exact .text this

/-- What the scan splits off is a gap, also from the middle of a comment on. -/
theorem isGap_splitGap (cs : List Char) :
    IsGap (splitGap false cs).2.isEmpty (splitGap false cs).1 ∧
      ∀ lead, Opened cs lead →
        IsGap (splitGap true cs).2.isEmpty (lead ++ (splitGap true cs).1) := by
  induction cs with
  | nil =>
    refine ⟨.nil, fun lead h => ?_⟩
    cases h with
    | slash h => cases h
    | text h =>
      rw [splitGap, List.append_nil]
      exact .lastComment h rfl
  | cons c cs ih =>
    obtain ⟨plain, comment⟩ := ih
    refine ⟨?_, fun lead h => ?_⟩
    · simp only [splitGap]
      split
      · rename_i hc
        refine .blank ?_ plain
        simpa [isBlank, or_assoc] using hc
      · split
        · rename_i hc
          obtain ⟨rfl, hs⟩ : c = '/' ∧ cs.head? = some '/' := by simpa using hc
          exact comment ['/'] (.slash hs)
        · exact .nil
    · simp only [splitGap]
      by_cases hc : c = '\n'
      · subst hc
        cases h with
        | slash h => cases h
        | text h =>
          rw [bne_self_eq_false, List.cons_append, List.cons_append]
          exact .comment h (.blank (by simp) plain)
      · have hb : (c != '\n') = true := by simpa using hc
        rw [hb]
        have := comment _ (h.push hc)
        rwa [List.append_assoc, List.singleton_append] at this

theorem isBlank_of_splitGap {cs gap rest : List Char} {c : Char}
    (h : splitGap false cs = (gap, c :: rest)) : isBlank c = false := by
  suffices ∀ flag, splitGap flag cs = (gap, c :: rest) → isBlank c = false from this false h
  clear h
  intro flag
  induction cs generalizing flag gap with
  | nil => intro h; cases h
  | cons d cs ih =>
    intro h
    cases flag with
    | true =>
      simp only [splitGap, Prod.mk.injEq] at h
      exact ih _ (Prod.ext rfl h.2)
    | false =>
      simp only [splitGap] at h
      split at h
      · exact ih _ (Prod.ext rfl (Prod.mk.inj h).2)
      · split at h
        · exact ih _ (Prod.ext rfl (Prod.mk.inj h).2)
        · rename_i hd _
          cases h
          simpa using hd

/-! ## Items -/

theorem item_kind_ne_eof {c : Char} {cs : List Char} {kind : TokenKind} {literal : Option Literal}
    (h : (item c cs).found = .ok (kind, literal)) : kind ≠ .eof := by
  rintro rfl
  unfold item at h
  split at h
  · rename_i hp
    cases h
    unfold punctuation? at hp
    split at hp <;> cases hp
  · split at h
    · rename_i hc
      unfold comparison? at hc
      split at hc <;> cases hc <;> split at h <;> cases h
    · split at h
      · unfold string at h
        dsimp only at h
        split at h <;> cases h
      · split at h
        · cases h
        · split at h
          · have hw : TokenKind.ofWord _ = .eof := (Prod.mk.inj (Except.ok.inj h)).1
            have := TokenKind.mem_keywords_of_ofWord hw (by decide)
            simp [TokenKind.keywords] at this
          · cases h

/-- What the text of an error is. -/
theorem item_error {c : Char} {cs : List Char} {problem : LexProblem} (hb : isBlank c = false)
    (h : (item c cs).found = .error problem) :
    (problem = .unexpectedCharacter c ∧ Unexpected c ∧ (item c cs).taken = []) ∨
      (problem = .unterminatedString ∧ c = '"' ∧ '"' ∉ (item c cs).taken ∧
        (item c cs).rest = []) := by
  unfold item at h ⊢
  split at h
  · cases h
  · rename_i hp
    split at h
    · split at h <;> cases h
    · rename_i hc
      split at h
      · rename_i hq
        refine .inr ?_
        obtain rfl : c = '"' := by simpa using hq
        unfold string at h ⊢
        dsimp only at h ⊢
        split at h
        · rename_i hd
          cases h
          rw [if_pos hq]
          refine ⟨rfl, rfl, fun hm => ?_, rfl⟩
          simpa using List.mem_takeWhile_imp hm
        · cases h
      · rename_i hq
        split at h
        · cases h
        · rename_i hd
          split at h
          · cases h
          · rename_i hw
            cases h
            refine .inl ⟨rfl, ?_, ?_⟩
            · exact ⟨hb, hp, hc, by simpa using hq, by simpa using hd, by simpa using hw⟩
            · rw [if_neg hq, if_neg hd, if_neg hw]

theorem found_of_item_ok {p : Piece} {t : Token} (h : p.item = .ok t) :
    p.found = .ok (t.kind, t.literal) ∧ t.lexeme = String.ofList p.text ∧ t.line = p.line := by
  unfold Piece.item at h
  split at h
  · rename_i hf
    cases h
    exact ⟨hf, rfl, rfl⟩
  · cases h

theorem found_of_item_error {p : Piece} {e : Error} (h : p.item = .error e) :
    ∃ problem, p.found = .error problem ∧ e = .lex p.line problem := by
  unfold Piece.item at h
  split at h
  · cases h
  · rename_i problem hf
    cases h
    exact ⟨problem, hf, rfl⟩

/-! ## Ranges of the pieces -/

/-- The items of pieces that stand one after the other from the byte `offset` on. -/
def spansFrom (offset : Nat) : List Piece → List Span
  | [] => []
  | p :: ps =>
    { start := offset + byteSize p.gap, stop := offset + byteSize p.gap + byteSize p.text,
      item := p.item } ::
    spansFrom (offset + byteSize p.gap + byteSize p.text) ps

theorem map_item_spansFrom (offset : Nat) (ps : List Piece) :
    (spansFrom offset ps).map Span.item = ps.map Piece.item := by
  induction ps generalizing offset with
  | nil => rfl
  | cons p ps ih => rw [spansFrom, List.map_cons, List.map_cons, ih]

theorem Cursor.answer_of_left_none {c : Cursor} (h : c.left = none) (n : Nat) :
    c.answer n = none := by
  have hc : c.next = (none, c) := by
    rw [next, h]
  induction n with
  | zero => rw [answer, hc]
  | succ n ih => rw [answer, hc, ih]

/-- The calls of a cursor answer the pieces of what is left, in order, and then nothing. -/
theorem Cursor.answer_eq (offset line : Nat) (cs : List Char) (n : Nat) :
    Cursor.answer { offset := offset, line := line, left := some cs } n =
      (spansFrom offset (piecesFrom line cs))[n]? := by
  induction line, cs using piecesFrom.induct generalizing offset n with
  | case1 line cs gap hlen hgap =>
    rw [piecesFrom_of_nil line hgap]
    cases n with
    | zero => simp [answer, next, firstPiece, hgap, spansFrom]
    | succ n =>
      rw [answer, Cursor.answer_of_left_none (by simp [next, firstPiece, hgap])]
      simp [spansFrom]
  | case2 line cs gap c rest hlen hgap _ step line' ih =>
    rw [piecesFrom_of_cons line hgap]
    cases n with
    | zero => simp [answer, next, firstPiece, hgap, spansFrom]
    | succ n =>
      rw [spansFrom, List.getElem?_cons_succ, answer]
      simp only [next, firstPiece, hgap]
      exact ih _ n

/-! ## Placing the items -/

section

variable {source : String} {done gap text rest : List Char} {before after : List Span}
  {found : Except Error Token}

/-- An item is placed by what its text and the gap before it are. -/
theorem placed_of_text (hs : source.toList = done ++ gap ++ text ++ rest)
    (hb : endOf before = byteSize done) (hg : IsGap (text ++ rest).isEmpty gap)
    (hend : text = [] ↔ ∃ t, found = .ok t ∧ t.kind = .eof)
    (htoken : ∀ t, found = .ok t →
      t.lexeme = String.ofList text ∧ t.line = 1 + newlines (done ++ gap ++ text))
    (herror : ∀ e, found = .error e → ∃ problem,
      e = .lex (1 + newlines (done ++ gap ++ text)) problem ∧
        Covers source ⟨byteSize done + byteSize gap,
          byteSize done + byteSize gap + byteSize text, found⟩ after problem) :
    Placed source before ⟨byteSize done + byteSize gap,
      byteSize done + byteSize gap + byteSize text, found⟩ after := by
  have hgap : slice source (byteSize done) (byteSize done + byteSize gap) =
      (String.ofList gap).toByteArray := by
    refine @slice_eq source done gap (text ++ rest) ?_
    rw [hs, List.append_assoc _ text]
  have htext : slice source (byteSize (done ++ gap)) (byteSize (done ++ gap) + byteSize text) =
      (String.ofList text).toByteArray := slice_eq hs
  have hlines := lineFeeds_prefix hs
  have hstart : source.toList = (done ++ gap) ++ (text ++ rest) := by
    rw [hs, List.append_assoc _ text]
  have hsize : source.utf8ByteSize = byteSize done + byteSize gap + byteSize (text ++ rest) := by
    rw [← byteSize_toList, hstart, byteSize_append, byteSize_append]
  rw [byteSize_append] at htext
  rw [byteSize_append, byteSize_append] at hlines
  refine ⟨?_, ?_, ?_, ?_, ⟨gap, ?_, ?_⟩, fun t ht => ⟨?_, ?_⟩, fun e he => ?_⟩
  · rw [hb]
    exact ⟨Nat.le_add_right _ _, Nat.le_add_right _ _⟩
  · show byteSize done + byteSize gap = byteSize done + byteSize gap + byteSize text ↔ _
    rw [left_eq_add, byteSize_eq_zero, hend]
    rfl
  · rw [← byteSize_append]
    exact isValid_of_prefix hstart
  · rw [← byteSize_append, ← byteSize_append]
    exact isValid_of_prefix hs
  · have : (byteSize done + byteSize gap == source.utf8ByteSize) = (text ++ rest).isEmpty := by
      rw [hsize, Bool.eq_iff_iff, beq_iff_eq, left_eq_add, byteSize_eq_zero, List.isEmpty_iff]
    show IsGap (byteSize done + byteSize gap == source.utf8ByteSize) gap
    rw [this]
    exact hg
  · rw [hb]
    exact hgap
  · rw [(htoken t ht).1]
    exact htext.symm
  · rw [(htoken t ht).2, hlines]
  · obtain ⟨problem, rfl, hc⟩ := herror e he
    exact ⟨problem, by rw [hlines], hc⟩

end

theorem endOf_concat (before : List Span) (s : Span) : endOf (before ++ [s]) = s.stop := by
  simp [endOf]

theorem newlines_append (a b : List Char) : newlines (a ++ b) = newlines a + newlines b :=
  List.count_append

theorem splitGap_eq {cs gap rest : List Char} (h : splitGap false cs = (gap, rest)) :
    cs = gap ++ rest := by
  have := splitGap_append false cs
  rw [h] at this
  exact this.symm

/-- The item of a piece that has text. -/
theorem placed_item {source : String} {done gap rest : List Char} {c : Char}
    {before after : List Span} (hs : source.toList = done ++ (gap ++ c :: rest))
    (hb : endOf before = byteSize done) (hg : splitGap false (gap ++ c :: rest) = (gap, c :: rest))
    (hafter : (item c rest).rest = [] → ∃ e, e.IsEnd ∧ after = [e]) :
    Placed source before
      { start := byteSize done + byteSize gap
        stop := byteSize done + byteSize gap + byteSize (c :: (item c rest).taken)
        item := Piece.item
          { gap := gap, text := c :: (item c rest).taken
            line := 1 + newlines done + newlines gap + newlines (c :: (item c rest).taken)
            found := (item c rest).found } } after := by
  have hblank := isBlank_of_splitGap hg
  have hgap := (isGap_splitGap (gap ++ c :: rest)).1
  rw [hg] at hgap
  have hrest : c :: rest = (c :: (item c rest).taken) ++ (item c rest).rest := by
    rw [List.cons_append, item_append]
  have hsource : source.toList =
      done ++ gap ++ (c :: (item c rest).taken) ++ (item c rest).rest := by
    rw [hs, hrest, List.append_assoc, List.append_assoc]
  have hline : 1 + newlines done + newlines gap + newlines (c :: (item c rest).taken) =
      1 + newlines (done ++ gap ++ c :: (item c rest).taken) := by
    rw [newlines_append, newlines_append]
    omega
  refine placed_of_text hsource hb ?_ ?_ ?_ ?_
  · rw [← hrest]
    exact hgap
  · refine ⟨fun h => absurd h (List.cons_ne_nil _ _), fun ⟨t, ht, hk⟩ => ?_⟩
    exact absurd hk (item_kind_ne_eof (found_of_item_ok ht).1)
  · intro t ht
    obtain ⟨-, hx, hn⟩ := found_of_item_ok ht
    exact ⟨hx, hn.trans hline⟩
  · intro e he
    obtain ⟨problem, hf, rfl⟩ := found_of_item_error he
    refine ⟨problem, by rw [hline], ?_⟩
    have htext := slice_eq hsource
    rw [byteSize_append] at htext
    obtain ⟨rfl, hu, ht⟩ | ⟨rfl, rfl, hq, hr⟩ := item_error hblank hf
    · refine .character hu ?_
      rw [String.singleton_eq_ofList, ← ht]
      exact htext
    · refine .quote hq htext ?_ (hafter hr)
      show byteSize done + byteSize gap + _ = _
      rw [← byteSize_toList, hsource, hr, List.append_nil, byteSize_append, byteSize_append]

theorem placed_end {source : String} {done gap : List Char} {before : List Span}
    (hs : source.toList = done ++ gap) (hb : endOf before = byteSize done)
    (hg : splitGap false gap = (gap, [])) :
    Placed source before
      { start := byteSize done + byteSize gap
        stop := byteSize done + byteSize gap + byteSize []
        item := .ok { kind := .eof, lexeme := String.ofList [], literal := none,
                      line := 1 + newlines done + newlines gap } } [] := by
  have hgap := (isGap_splitGap gap).1
  rw [hg] at hgap
  have hs : source.toList = done ++ gap ++ [] ++ [] := by simpa using hs
  refine placed_of_text hs hb hgap ?_ ?_ ?_
  · exact ⟨fun _ => ⟨_, rfl, rfl⟩, fun _ => rfl⟩
  · intro t ht
    cases ht
    refine ⟨rfl, ?_⟩
    rw [List.append_nil, newlines_append, Nat.add_assoc]
  · intro e he
    cases he

/-- What is left of a source after the pieces that `before` stands for. -/
theorem placed_of_mem (source : String) (line : Nat) (cs done : List Char) (before : List Span)
    (hs : source.toList = done ++ cs) (hb : endOf before = byteSize done)
    (hl : line = 1 + newlines done) (b : List Span) (s : Span) (a : List Span)
    (h : spansFrom (byteSize done) (piecesFrom line cs) = b ++ s :: a) :
    Placed source (before ++ b) s a := by
  induction line, cs using piecesFrom.induct generalizing done before b with
  | case1 line cs gap hlen hgap =>
    obtain rfl : cs = gap := by simpa using splitGap_eq hgap
    subst hl
    rw [piecesFrom_of_nil _ hgap, spansFrom, spansFrom] at h
    obtain ⟨rfl, h⟩ | ⟨b', rfl, h⟩ := List.cons_eq_append_iff.1 h
    · cases h
      rw [List.append_nil]
      exact placed_end hs hb hgap
    · simp at h
  | case2 line cs gap c rest hlen hgap _ step line' ih =>
    obtain rfl := splitGap_eq hgap
    subst hl
    rw [piecesFrom_of_cons _ hgap, spansFrom] at h
    obtain ⟨rfl, h⟩ | ⟨b', hb', h⟩ := List.cons_eq_append_iff.1 h
    · cases h
      rw [List.append_nil]
      refine placed_item hs hb hgap fun hr => ?_
      rw [hr, piecesFrom_of_nil _ rfl]
      exact ⟨_, ⟨_, rfl, rfl⟩, rfl⟩
    · rw [hb', List.append_cons]
      refine ih (done ++ gap ++ c :: step.taken) _ ?_ ?_ ?_ b' ?_
      · rw [hs]
        simp only [List.append_assoc, List.cons_append, step, item_append]
      · rw [endOf_concat, byteSize_append, byteSize_append]
      · show _ = 1 + newlines (done ++ gap ++ c :: step.taken)
        rw [newlines_append, newlines_append]
        omega
      · rw [byteSize_append, byteSize_append]
        exact h

/-! ## The whole source -/

theorem offset_le_start {offset : Nat} {ps : List Piece} {s : Span} (h : s ∈ spansFrom offset ps) :
    offset ≤ s.start := by
  induction ps generalizing offset with
  | nil => cases h
  | cons p ps ih =>
    rw [spansFrom, List.mem_cons] at h
    obtain rfl | h := h
    · exact Nat.le_add_right _ _
    · have := ih h
      omega

theorem pairwise_spansFrom (offset : Nat) (ps : List Piece) :
    (spansFrom offset ps).Pairwise fun s t => s.stop ≤ t.start := by
  induction ps generalizing offset with
  | nil => exact .nil
  | cons p ps ih => exact .cons (fun t ht => offset_le_start ht) (ih _)

theorem ends_spansFrom (offset line : Nat) (cs : List Char) :
    ∃ before s, spansFrom offset (piecesFrom line cs) = before ++ [s] ∧
      (∀ r ∈ before, ¬ r.IsEnd) ∧
      s.item = .ok { kind := .eof, lexeme := "", literal := none, line := line + newlines cs } ∧
      s.stop = offset + byteSize cs := by
  induction line, cs using piecesFrom.induct generalizing offset with
  | case1 line cs gap hlen hgap =>
    obtain rfl : cs = gap := by simpa using splitGap_eq hgap
    rw [piecesFrom_of_nil _ hgap]
    exact ⟨[], _, rfl, by simp, rfl, rfl⟩
  | case2 line cs gap c rest hlen hgap _ step line' ih =>
    obtain rfl := splitGap_eq hgap
    rw [piecesFrom_of_cons _ hgap, spansFrom]
    obtain ⟨before, s, he, hn, hi, hs⟩ := ih (offset + byteSize gap + byteSize (c :: step.taken))
    have hrest : c :: rest = (c :: step.taken) ++ step.rest := by
      rw [List.cons_append, item_append]
    refine ⟨_ :: before, s, by rw [List.cons_append, ← he], ?_, ?_, ?_⟩
    · intro r hr
      obtain rfl | hr := List.mem_cons.1 hr
      · rintro ⟨t, ht, hk⟩
        exact item_kind_ne_eof (found_of_item_ok ht).1 hk
      · exact hn r hr
    · rw [hi, hrest, newlines_append, newlines_append]
      simp only [line', Nat.add_assoc, step]
    · rw [hs, hrest, byteSize_append, byteSize_append]
      omega

/-- Calling a cursor again and again ends: it answers the items of the source, which tile it, and
from then on nothing. -/
theorem tiles_source (source : String) :
    ∃ spans, Tiles source spans ∧ spans.map Span.item = items source ∧
      ∀ n, (Cursor.start source).answer n = spans[n]? := by
  refine ⟨spansFrom 0 (pieces source), ⟨fun b s a h => ?_, pairwise_spansFrom _ _, ?_⟩,
    map_item_spansFrom _ _, Cursor.answer_eq 0 1 source.toList⟩
  · exact placed_of_mem source 1 source.toList [] [] rfl rfl rfl b s a h
  · obtain ⟨before, s, he, hn, hi, hs⟩ := ends_spansFrom 0 1 source.toList
    have hsize : source.utf8ByteSize = byteSize source.toList := (byteSize_toList source).symm
    refine ⟨before, s, he, hn, ?_, ?_⟩
    · rw [hi, hsize, lineFeeds_prefix (List.append_nil _).symm]
    · rw [hs, hsize, Nat.zero_add]

end Scan
end Lox
