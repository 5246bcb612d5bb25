import Lox.Proofs.Token.Tiling
import Mathlib

/-!
# Lox.Proofs.Token.Split

A source of two texts with a line feed between them. No item goes over the line feed but a string that
the first text opens and does not close. Otherwise the items are those of the first text, up to its
end, and those of the second one further down (`items_around_newline`), and so are the tokens where
neither text has a lexical error (`scan_joined`).
-/

namespace Lox
namespace Scan

/-! ## Up to a line feed -/

theorem takeWhile_append_newline {p : Char → Bool} (hp : p '\n' = false) (cs ds : List Char) :
    (cs ++ '\n' :: ds).takeWhile p = cs.takeWhile p := by
  induction cs with
  | nil => simp [hp]
  | cons c cs ih => simp [List.takeWhile_cons, ih]

theorem dropWhile_append_newline {p : Char → Bool} (hp : p '\n' = false) (cs ds : List Char) :
    (cs ++ '\n' :: ds).dropWhile p = cs.dropWhile p ++ '\n' :: ds := by
  induction cs with
  | nil => simp [hp]
  | cons c cs ih => cases h : p c <;> simp [h, ih]

theorem splitFraction_of_ne {c : Char} (hc : c ≠ '.') (cs : List Char) :
    splitFraction (c :: cs) = ([], c :: cs) := by
  unfold splitFraction
  split
  · rename_i h
    cases h
    exact absurd rfl hc
  · rfl

theorem splitFraction_append_newline (cs ds : List Char) :
    splitFraction (cs ++ '\n' :: ds) =
      ((splitFraction cs).1, (splitFraction cs).2 ++ '\n' :: ds) := by
  match cs with
  | [] => rfl
  | [c] =>
    by_cases hc : c = '.'
    · subst hc
      rfl
    · rw [splitFraction_of_ne hc, List.cons_append, splitFraction_of_ne hc]
  | c :: d :: cs =>
    by_cases hc : c = '.'
    · subst hc
      simp only [splitFraction, List.cons_append]
      split
      · rw [takeWhile_append_newline rfl, dropWhile_append_newline rfl]
      · rfl
    · rw [splitFraction_of_ne hc, List.cons_append, splitFraction_of_ne hc]

theorem number_append_newline (c : Char) (cs ds : List Char) :
    number c (cs ++ '\n' :: ds) =
      { number c cs with rest := (number c cs).rest ++ '\n' :: ds } := by
  simp only [number]
  rw [takeWhile_append_newline rfl, dropWhile_append_newline rfl, splitFraction_append_newline]

theorem word_append_newline (c : Char) (cs ds : List Char) :
    word c (cs ++ '\n' :: ds) = { word c cs with rest := (word c cs).rest ++ '\n' :: ds } := by
  simp only [word]
  rw [takeWhile_append_newline rfl, dropWhile_append_newline rfl]

theorem string_append_newline {cs : List Char} (h : (string cs).found ≠ .error .unterminatedString)
    (ds : List Char) :
    string (cs ++ '\n' :: ds) = { string cs with rest := (string cs).rest ++ '\n' :: ds } := by
  have hdrop := @List.dropWhile_append _ (· != '"') cs ('\n' :: ds)
  have htake := @List.takeWhile_append _ (· != '"') cs ('\n' :: ds)
  have hsplit := congrArg List.length (@List.takeWhile_append_dropWhile _ (· != '"') cs)
  unfold string at h ⊢
  dsimp only at h ⊢
  split at h
  · exact absurd rfl h
  · rename_i q rest hrest
    rw [hrest] at hdrop hsplit
    rw [List.length_append, List.length_cons] at hsplit
    rw [if_neg (by omega)] at htake
    rw [htake, hdrop]
    rfl

/-- Only a string without an end takes the line feed with it. -/
theorem item_append_newline {c : Char} {cs : List Char}
    (h : (item c cs).found ≠ .error .unterminatedString) (ds : List Char) :
    item c (cs ++ '\n' :: ds) = { item c cs with rest := (item c cs).rest ++ '\n' :: ds } := by
  unfold item at h ⊢
  cases hp : punctuation? c with
  | some kind => rfl
  | none =>
    cases hc : comparison? c with
    | some kinds =>
      obtain ⟨alone, withEqual⟩ := kinds
      cases cs with
      | nil => rfl
      | cons d cs =>
        by_cases hd : d = '='
        · subst hd
          rfl
        · simp [hd]
    | none =>
      simp only [hp, hc] at h ⊢
      split
      · rename_i hq
        rw [if_pos hq] at h
        exact string_append_newline h ds
      · split
        · exact number_append_newline c cs ds
        · split
          · exact word_append_newline c cs ds
          · rfl

/-- What splitting off the gap comes to with a line feed and `ds` after the text. A gap up to the end
goes on, and a comment in it does not; any other gap stays as it is. -/
def extendGap (ds : List Char) (r : List Char × List Char) : List Char × List Char :=
  match r.2 with
  | [] => (r.1 ++ '\n' :: (splitGap false ds).1, (splitGap false ds).2)
  | c :: rest => (r.1, c :: (rest ++ '\n' :: ds))

theorem extendGap_cons (ds : List Char) (c : Char) (r : List Char × List Char) :
    extendGap ds (c :: r.1, r.2) = (c :: (extendGap ds r).1, (extendGap ds r).2) := by
  obtain ⟨gap, _ | ⟨d, rest⟩⟩ := r <;> rfl

theorem splitGap_append_newline (comment : Bool) (cs ds : List Char) :
    splitGap comment (cs ++ '\n' :: ds) = extendGap ds (splitGap comment cs) := by
  induction cs generalizing comment with
  | nil => cases comment <;> rfl
  | cons c cs ih =>
    cases comment with
    | true =>
      rw [List.cons_append, splitGap, splitGap, ih]
      exact (extendGap_cons ds c _).symm
    | false =>
      have hhead : ((cs ++ '\n' :: ds).head? == some '/') = (cs.head? == some '/') := by
        cases cs <;> rfl
      simp only [List.cons_append, splitGap, hhead, ih]
      split
      · exact (extendGap_cons ds c _).symm
      · split
        · exact (extendGap_cons ds c _).symm
        · rfl

/-! ## Items -/

/-- An item on a later line. -/
def shiftItem (lines : Nat) : Except Error Token → Except Error Token
  | .ok t => .ok { t with line := t.line + lines }
  | .error (.lex line problem) => .error (.lex (line + lines) problem)
  | .error e => .error e

/-- A text further down has the same items. -/
theorem map_item_piecesFrom_add (lines line : Nat) (cs : List Char) :
    (piecesFrom (line + lines) cs).map Piece.item =
      ((piecesFrom line cs).map Piece.item).map (shiftItem lines) := by
  induction line, cs using piecesFrom.induct with
  | case1 line cs gap hlen hgap =>
    rw [piecesFrom_of_nil _ hgap, piecesFrom_of_nil _ hgap]
    simp only [List.map_cons, List.map_nil, Piece.item, shiftItem, Nat.add_right_comm]
  | case2 line cs gap c rest hlen hgap _ step line' ih =>
    have hline : line + lines + newlines gap + newlines (c :: step.taken) = line' + lines := by
      omega
    rw [piecesFrom_of_cons _ hgap, piecesFrom_of_cons _ hgap, hline, List.map_cons, List.map_cons,
      List.map_cons, ih]
    congr 1
    unfold Piece.item shiftItem
    cases (item c rest).found <;> rfl

theorem piecesFrom_ne_nil (line : Nat) (cs : List Char) : piecesFrom line cs ≠ [] := by
  rcases h : splitGap false cs with ⟨gap, _ | ⟨c, rest⟩⟩
  · rw [piecesFrom_of_nil _ h]
    exact List.cons_ne_nil _ _
  · rw [piecesFrom_of_cons _ h]
    exact List.cons_ne_nil _ _

theorem newlines_gap (gap ds : List Char) :
    newlines (gap ++ '\n' :: ds) = newlines gap + 1 + newlines ds := by
  rw [newlines_append, Nat.add_assoc, Nat.add_comm 1]
  exact congrArg _ List.count_cons_self

/-- The items of the first text up to its end, then those of the second text. -/
theorem map_item_piecesFrom_append (line : Nat) (cs ds : List Char)
    (h : ∀ p ∈ piecesFrom line cs, p.found ≠ .error .unterminatedString) :
    (piecesFrom line (cs ++ '\n' :: ds)).map Piece.item =
      ((piecesFrom line cs).map Piece.item).dropLast ++
        (piecesFrom (line + newlines cs + 1) ds).map Piece.item := by
  induction line, cs using piecesFrom.induct with
  | case1 line cs gap hlen hgap =>
    obtain rfl : cs = gap := by simpa using splitGap_eq hgap
    have hsplit := splitGap_append_newline false cs ds
    have hline (gap : List Char) : line + newlines (cs ++ '\n' :: gap) =
        line + newlines cs + 1 + newlines gap := by
      rw [newlines_gap, Nat.add_assoc, Nat.add_assoc, Nat.add_assoc]
    rw [hgap, extendGap] at hsplit
    rw [piecesFrom_of_nil _ hgap]
    rcases hds : splitGap false ds with ⟨gap, _ | ⟨c, rest⟩⟩
    · rw [hds] at hsplit
      rw [piecesFrom_of_nil _ hsplit, piecesFrom_of_nil _ hds, hline]
      rfl
    · rw [hds] at hsplit
      rw [piecesFrom_of_cons _ hsplit, piecesFrom_of_cons _ hds, hline]
      rfl
  | case2 line cs gap c rest hlen hgap _ step line' ih =>
    have hsplit := splitGap_append_newline false cs ds
    have hline : line' + newlines step.rest = line + newlines cs := by
      have hrest : c :: rest = (c :: step.taken) ++ step.rest := by
        rw [List.cons_append, item_append]
      rw [splitGap_eq hgap, hrest, newlines_append, newlines_append]
      omega
    rw [hgap, extendGap] at hsplit
    rw [piecesFrom_of_cons _ hgap, List.forall_mem_cons] at h
    rw [piecesFrom_of_cons _ hsplit, item_append_newline h.1, piecesFrom_of_cons _ hgap,
      List.map_cons, List.map_cons, List.dropLast_cons_of_ne_nil]
    · rw [List.cons_append, ← hline, ← ih h.2]
    · exact fun hnil => piecesFrom_ne_nil _ _ (List.map_eq_nil_iff.1 hnil)

/-! ## Tokens -/

theorem token?_shiftItem (lines : Nat) (item : Except Error Token) :
    token? (shiftItem lines item) =
      (token? item).map fun t => { t with line := t.line + lines } := by
  cases item with
  | ok t => rfl
  | error e => cases e <;> rfl

theorem error?_shiftItem_eq_none {lines : Nat} {item : Except Error Token} :
    error? (shiftItem lines item) = none ↔ error? item = none := by
  cases item with
  | ok t => exact Iff.rfl
  | error e => cases e <;> simp [shiftItem, error?]

/-- The end of the input comes last, and once. -/
theorem exists_items_eq (source : String) : ∃ before,
    items source = before ++ [.ok (.endOfInput (1 + newlines source.toList))] ∧
      ∀ t ∈ before.filterMap token?, t.kind ≠ .eof := by
  obtain ⟨before, s, hspans, hnot, hitem, -⟩ := ends_spansFrom 0 1 source.toList
  refine ⟨before.map Span.item, ?_, fun t ht hk => ?_⟩
  · rw [items, pieces, ← map_item_spansFrom 0, hspans, List.map_append, List.map_singleton, hitem]
    rfl
  · rw [List.filterMap_map, List.mem_filterMap] at ht
    obtain ⟨r, hr, htoken⟩ := ht
    refine hnot r hr ⟨t, ?_, hk⟩
    rw [Function.comp_apply] at htoken
    cases hi : r.item with
    | ok u =>
      rw [hi] at htoken
      cases htoken
      rfl
    | error e =>
      rw [hi] at htoken
      cases htoken

theorem body_scan (source : String) :
    Token.body (Token.scan source) = (items source).dropLast.filterMap token? := by
  obtain ⟨before, hitems, hkind⟩ := exists_items_eq source
  rw [Token.scan, hitems, List.dropLast_concat, List.filterMap_append, Token.body,
    List.takeWhile_append_of_pos]
  · exact List.append_nil _
  · exact fun t ht => bne_iff_ne.2 (hkind t ht)

end Scan

/-- The tokens of a source end with the one for the end of the input. -/
theorem Token.scan_eq_body (source : String) :
    Token.scan source = Token.body (Token.scan source) ++
      [.endOfInput (1 + Scan.newlines source.toList)] := by
  obtain ⟨before, hitems, -⟩ := Scan.exists_items_eq source
  rw [Scan.body_scan, Token.scan, hitems, List.dropLast_concat, List.filterMap_append]
  rfl

/-- The first text may have any other errors. -/
theorem Scan.items_joined {first second : String}
    (h : ∀ line, .lex line .unterminatedString ∉ Token.scanErrors first) :
    items (first ++ "\n" ++ second) = (items first).dropLast ++
      (items second).map (shiftItem (newlines first.toList + 1)) := by
  have hlist : (first ++ "\n" ++ second).toList = first.toList ++ '\n' :: second.toList := by
    simp
  rw [items, pieces, hlist, map_item_piecesFrom_append, Nat.add_assoc, map_item_piecesFrom_add]
  · rfl
  · intro p hp hfound
    refine h p.line (List.mem_filterMap.2 ⟨p.item, List.mem_map_of_mem hp, ?_⟩)
    unfold Piece.item
    rw [hfound]
    rfl

/-- A line feed splits the items of a source, unless what stands before it ends within a string: the
items up to the line feed are those of the text before it, less the end of the input, and the others
are those of the text after it, on lines that count on. -/
theorem Scan.items_around_newline {before after : String}
    (h : ∀ line, .lex line .unterminatedString ∉ Token.scanErrors before) :
    ∃ found, items before = found ++ [.ok (.endOfInput (1 + newlines before.toList))] ∧
      (∀ t ∈ found.filterMap token?, t.kind ≠ .eof) ∧
      items (before ++ "\n" ++ after) =
        found ++ (items after).map (shiftItem (1 + newlines before.toList)) := by
  obtain ⟨found, hitems, hkind⟩ := exists_items_eq before
  refine ⟨found, hitems, hkind, ?_⟩
  rw [items_joined h, hitems, List.dropLast_concat, Nat.add_comm 1]

/-- The text before the line feed has a quote in a comment and a character that starts no token, and
ends with an operator that the text after it does not complete. -/
theorem Scan.items_around_newline_operator :
    (∀ line, Error.lex line .unterminatedString ∉ Token.scanErrors "// \"\né !") ∧
      items ("// \"\né !" ++ "\n" ++ "= \"open") =
        [.error (.lex 2 (.unexpectedCharacter 'é')),
          .ok { kind := .bang, lexeme := "!", line := 2 },
          .ok { kind := .equal, lexeme := "=", line := 3 },
          .error (.lex 3 .unterminatedString), .ok (.endOfInput 3)] := by
  have hbefore : items "// \"\né !" = [.error (.lex 2 (.unexpectedCharacter 'é')),
      .ok { kind := .bang, lexeme := "!", line := 2 }] ++ [.ok (.endOfInput 2)] := by cbv
  have hafter : items "= \"open" = [.ok { kind := .equal, lexeme := "=", line := 1 },
      .error (.lex 1 .unterminatedString), .ok (.endOfInput 1)] := by cbv
  have h : ∀ line, Error.lex line .unterminatedString ∉ Token.scanErrors "// \"\né !" := by
    intro line
    rw [Token.scanErrors, hbefore]
    simp [error?]
  obtain ⟨found, hfound, -, hjoined⟩ := @items_around_newline _ "= \"open" h
  obtain ⟨rfl, -⟩ := List.append_inj' (hbefore.symm.trans hfound) rfl
  refine ⟨h, hjoined.trans ?_⟩
  rw [hafter]
  rfl

/-- A source of two texts with a line feed between them has no lexical error if they have none, and
its tokens are those of the one text and then those of the other, further down. -/
theorem Token.scan_joined {first second : String} (h : Token.scanErrors first = [])
    (h' : Token.scanErrors second = []) :
    Token.scanErrors (first ++ "\n" ++ second) = [] ∧
      Token.body (Token.scan (first ++ "\n" ++ second)) = Token.body (Token.scan first) ++
        (Token.body (Token.scan second)).map fun t =>
          { t with line := t.line + (Scan.newlines first.toList + 1) } := by
  have hitems := @Scan.items_joined first second fun line => h ▸ List.not_mem_nil
  constructor
  · rw [Token.scanErrors, hitems, List.filterMap_append, List.append_eq_nil_iff]
    constructor
    · refine List.filterMap_eq_nil_iff.2 fun item hitem => ?_
      exact List.filterMap_eq_nil_iff.1 h item ((List.dropLast_sublist _).mem hitem)
    · refine List.filterMap_eq_nil_iff.2 fun item hitem => ?_
      obtain ⟨unshifted, hmem, rfl⟩ := List.mem_map.1 hitem
      exact Scan.error?_shiftItem_eq_none.2 (List.filterMap_eq_nil_iff.1 h' unshifted hmem)
  · have hne : (Scan.items second).map (Scan.shiftItem (Scan.newlines first.toList + 1)) ≠ [] := by
      obtain ⟨before, hbefore, -⟩ := Scan.exists_items_eq second
      simp [hbefore]
    rw [Scan.body_scan, hitems, List.dropLast_append_of_ne_nil hne, List.filterMap_append,
      Scan.body_scan, Scan.body_scan, ← List.map_dropLast, List.filterMap_map, List.map_filterMap]
    congr 2
    funext item
    exact Scan.token?_shiftItem _ item

end Lox
