import Lox.Proofs.Respell.Read
import Lox.Proofs.Token.Split

/-!
# Lox.Proofs.Respell.Text

A source text with another spelling for some of its identifiers. An item is told apart from what
follows by at most two characters, and of those it matters only whether a word begins there. So when
identifiers are replaced by identifiers, the text is cut where it was cut before
(`Scan.exists_respelled`).
-/

namespace Lox

namespace Scan

/-- A word that is an identifier, and not a keyword. -/
def isIdentifier (word : String) : Bool :=
  match word.toList with
  | [] => false
  | c :: cs =>
    startsWord c && cs.all continuesWord && decide (TokenKind.ofWord word = .identifier)

/-- The same piece, or one with an identifier of the old spelling, which has the new one. -/
def Piece.Respelled (old new : String) (p p' : Piece) : Prop :=
  p' = p ∨ p.found = .ok (.identifier, none) ∧ p.text = old.toList ∧
    p' = { p with text := new.toList }

/-- The second text is the first with the new spelling on some identifiers of the old one. -/
def Respelled (old new source source' : String) : Prop :=
  List.Forall₂ (Piece.Respelled old new) (pieces source) (pieces source')

/-! ## Characters -/

theorem isDigit_of_startsWord {c : Char} (h : startsWord c = true) : c.isDigit = false := by
  obtain h | h := Bool.or_eq_true _ _ ▸ h
  · simp only [Char.isAlpha, Char.isUpper, Char.isLower, Bool.or_eq_true, Bool.and_eq_true,
      decide_eq_true_eq, UInt32.le_iff_toNat_le] at h
    simp only [Char.isDigit, Bool.and_eq_false_iff, decide_eq_false_iff_not,
      UInt32.le_iff_toNat_le]
    simp only [UInt32.reduceToNat, Char.reduceVal] at h ⊢
    omega
  · rw [eq_of_beq h]
    rfl

theorem ne_of_startsWord {c d : Char} (h : startsWord c = true) (hd : startsWord d = false) :
    c ≠ d := by
  rintro rfl
  rw [h] at hd
  cases hd

theorem continuesWord_of_startsWord {c : Char} (h : startsWord c = true) :
    continuesWord c = true := by
  simp only [startsWord, continuesWord, Char.isAlphanum, Bool.or_eq_true] at h ⊢
  exact h.imp .inl id

theorem isBlank_of_startsWord {c : Char} (h : startsWord c = true) : isBlank c = false := by
  have hspace := ne_of_startsWord h (d := ' ') rfl
  have hreturn := ne_of_startsWord h (d := '\r') rfl
  have htab := ne_of_startsWord h (d := '\t') rfl
  have hfeed := ne_of_startsWord h (d := '\n') rfl
  simp [isBlank, hspace, hreturn, htab, hfeed]

/-! ## What follows -/

/-- Texts that are the same up to a place where a word begins in both. -/
inductive Akin : List Char → List Char → Prop
  | nil : Akin [] []
  | cons {c : Char} {cs cs' : List Char} : Akin cs cs' → Akin (c :: cs) (c :: cs')
  | word {c c' : Char} {cs cs' : List Char} : startsWord c = true → startsWord c' = true →
      Akin (c :: cs) (c' :: cs')

/-- The text does not go on with such a character. -/
def StopsAt (p : Char → Bool) (cs : List Char) : Prop := ∀ c ∈ cs.head?, p c = false

namespace Akin

variable {cs cs' rest rest' : List Char} {p : Char → Bool}

theorem refl (cs : List Char) : Akin cs cs := by
  induction cs with
  | nil => exact .nil
  | cons c cs ih => exact .cons ih

theorem append (before : List Char) (h : Akin cs cs') : Akin (before ++ cs) (before ++ cs') := by
  induction before with
  | nil => exact h
  | cons c before ih => exact .cons ih

theorem stopsAt (h : Akin cs cs')
    (hword : ∀ c c', startsWord c = true → startsWord c' = true → p c = false → p c' = false)
    (hs : StopsAt p cs) : StopsAt p cs' := by
  cases h with
  | nil => exact hs
  | cons h =>
    intro d hd
    exact hs d hd
  | word hc hc' =>
    intro d hd
    cases hd
    exact hword _ _ hc hc' (hs _ rfl)

/-- Both go on with the same character, if it does not begin a word. -/
theorem head?_eq (h : Akin cs cs') {d : Char} (hd : startsWord d = false) :
    (cs'.head? == some d) = (cs.head? == some d) := by
  cases h with
  | nil => rfl
  | cons _ => rfl
  | word hc hc' => simp [ne_of_startsWord hc hd, ne_of_startsWord hc' hd]

theorem stopsAt_isDigit (h : Akin cs cs') (hs : StopsAt Char.isDigit cs) :
    StopsAt Char.isDigit cs' :=
  h.stopsAt (fun _ _ _ hc' _ => isDigit_of_startsWord hc') hs

theorem stopsAt_continuesWord (h : Akin cs cs') (hs : StopsAt continuesWord cs) :
    StopsAt continuesWord cs' := by
  refine h.stopsAt (fun _ _ hc _ hstop => ?_) hs
  rw [continuesWord_of_startsWord hc] at hstop
  cases hstop

end Akin

theorem stopsAt_dropWhile (p : Char → Bool) (cs : List Char) : StopsAt p (cs.dropWhile p) := by
  intro c hc
  have h := List.head?_dropWhile_not p cs
  rw [Option.mem_def.1 hc] at h
  simpa using h

theorem takeWhile_append_of_stopsAt {p : Char → Bool} {taken rest : List Char}
    (ht : ∀ c ∈ taken, p c = true) (hr : StopsAt p rest) :
    (taken ++ rest).takeWhile p = taken ∧ (taken ++ rest).dropWhile p = rest := by
  rw [List.takeWhile_append_of_pos ht, List.dropWhile_append_of_pos ht]
  cases rest with
  | nil => exact ⟨List.append_nil taken, rfl⟩
  | cons c rest =>
    have hc := hr c rfl
    rw [List.takeWhile_cons, List.dropWhile_cons, hc]
    exact ⟨List.append_nil taken, rfl⟩

/-- A stretch of characters ends where it ended. -/
theorem takeWhile_takeWhile_append {p : Char → Bool} (cs : List Char) {rest' : List Char}
    (hr : StopsAt p rest') : (cs.takeWhile p ++ rest').takeWhile p = cs.takeWhile p ∧
      (cs.takeWhile p ++ rest').dropWhile p = rest' :=
  takeWhile_append_of_stopsAt (fun _ hc => List.mem_takeWhile_imp hc) hr

/-! ## Gaps -/

theorem splitGap_of_startsWord {c : Char} (hc : startsWord c = true) (cs : List Char) :
    splitGap false (c :: cs) = ([], c :: cs) := by
  have hslash := ne_of_startsWord hc (d := '/') rfl
  simp [splitGap, isBlank_of_startsWord hc, hslash]

/-- The slash that makes a comment of another one is in the gap. -/
theorem head?_splitGap_append {cs : List Char} (h : cs.head? = some '/') (rest' : List Char) :
    ((splitGap true cs).1 ++ rest').head? = some '/' := by
  cases cs with
  | nil => cases h
  | cons c cs =>
    cases h
    rfl

theorem splitGap_akin (comment : Bool) (cs : List Char) {rest' : List Char}
    (h : Akin (splitGap comment cs).2 rest') :
    splitGap comment ((splitGap comment cs).1 ++ rest') = ((splitGap comment cs).1, rest') := by
  induction cs generalizing comment with
  | nil =>
    cases comment <;> cases h <;> rfl
  | cons c cs ih =>
    cases comment with
    | true =>
      simp only [splitGap] at h ⊢
      rw [List.cons_append, splitGap, ih _ h]
    | false =>
      simp only [splitGap] at h ⊢
      split at h
      · rename_i hblank
        rw [if_pos hblank, List.cons_append, splitGap, if_pos hblank, ih _ h]
      · rename_i hblank
        split at h
        · rename_i hcomment
          obtain ⟨hslash, hhead⟩ := Bool.and_eq_true_iff.1 hcomment
          have hcomment' :
              (c == '/' && ((splitGap true cs).1 ++ rest').head? == some '/') = true := by
            rw [head?_splitGap_append (eq_of_beq hhead), hslash]
            rfl
          rw [if_neg hblank, if_pos hcomment, List.cons_append, splitGap, if_neg hblank,
            if_pos hcomment', ih _ h]
        · rename_i hcomment
          rw [if_neg hblank, if_neg hcomment]
          show splitGap false rest' = ([], rest')
          cases h with
          | word _ hc' => exact splitGap_of_startsWord hc' _
          | cons h =>
            rw [splitGap, if_neg hblank, if_neg]
            rwa [h.head?_eq rfl]

/-! ## Items -/

theorem splitFraction_cases (cs : List Char) :
    (∃ d ds, cs = '.' :: d :: ds ∧ d.isDigit = true) ∨ splitFraction cs = ([], cs) := by
  unfold splitFraction
  split
  · rename_i d ds
    by_cases hd : d.isDigit = true
    · exact .inl ⟨d, ds, rfl, hd⟩
    · exact .inr (if_neg hd)
  · exact .inr rfl

/-- Where there was no fraction there is none. -/
theorem splitFraction_eq_self {cs cs' : List Char} (h : Akin cs cs')
    (hcs : splitFraction cs = ([], cs)) : splitFraction cs' = ([], cs') := by
  obtain ⟨d, ds, rfl, hd⟩ | hcs' := splitFraction_cases cs'
  · cases h with
    | word _ hc' => cases hc'
    | cons h =>
      cases h with
      | word _ hc' =>
        rw [isDigit_of_startsWord hc'] at hd
        cases hd
      | cons h =>
        rw [splitFraction, if_pos hd] at hcs
        cases hcs
  · exact hcs'

/-- A fraction ends where it ended. -/
theorem splitFraction_akin {cs rest' : List Char} (h : Akin (splitFraction cs).2 rest') :
    splitFraction ((if (splitFraction cs).1.isEmpty then [] else '.' :: (splitFraction cs).1) ++
      rest') = ((splitFraction cs).1, rest') := by
  obtain ⟨d, ds, rfl, hd⟩ | hcs := splitFraction_cases cs
  · simp only [splitFraction, if_pos hd] at h ⊢
    have hspan := takeWhile_takeWhile_append ds (h.stopsAt_isDigit (stopsAt_dropWhile _ ds))
    simp only [List.isEmpty_cons, List.cons_append, if_pos hd, hspan, Bool.false_eq_true, if_false]
  · rw [hcs] at h ⊢
    exact splitFraction_eq_self h hcs

theorem number_akin (c : Char) (cs : List Char) {rest' : List Char}
    (h : Akin (number c cs).rest rest') :
    number c ((number c cs).taken ++ rest') = { number c cs with rest := rest' } := by
  have hfraction := splitFraction_akin h
  have hstop : StopsAt Char.isDigit
      ((if (splitFraction (cs.dropWhile Char.isDigit)).1.isEmpty then []
        else '.' :: (splitFraction (cs.dropWhile Char.isDigit)).1) ++ rest') := by
    obtain ⟨d, ds, hrest, hd⟩ | hrest := splitFraction_cases (cs.dropWhile Char.isDigit)
    · rw [hrest, splitFraction, if_pos hd]
      intro c hc
      cases hc
      rfl
    · rw [hrest]
      simp only [number, hrest] at h
      exact h.stopsAt_isDigit (stopsAt_dropWhile _ cs)
  obtain ⟨htake, hdrop⟩ := takeWhile_takeWhile_append cs hstop
  simp only [number, List.append_assoc, htake, hdrop, hfraction]

theorem word_akin (c : Char) (cs : List Char) {rest' : List Char}
    (h : Akin (word c cs).rest rest') :
    word c ((word c cs).taken ++ rest') = { word c cs with rest := rest' } := by
  obtain ⟨htake, hdrop⟩ :=
    takeWhile_takeWhile_append cs (h.stopsAt_continuesWord (stopsAt_dropWhile _ cs))
  simp only [word, htake, hdrop]

theorem string_akin (cs : List Char) {rest' : List Char} (h : Akin (string cs).rest rest') :
    string ((string cs).taken ++ rest') = { string cs with rest := rest' } := by
  have hstop := stopsAt_dropWhile (· != '"') cs
  unfold string at h ⊢
  cases hquote : cs.dropWhile (· != '"') with
  | nil =>
    simp only [hquote] at h hstop ⊢
    cases h
    obtain ⟨htake, hdrop⟩ := takeWhile_takeWhile_append cs hstop
    simp only [htake, hdrop]
  | cons q rest =>
    simp only [hquote] at h hstop ⊢
    have hstop : StopsAt (· != '"') (q :: rest') := hstop
    obtain ⟨htake, hdrop⟩ := takeWhile_takeWhile_append cs hstop
    simp only [List.append_assoc, List.singleton_append, htake, hdrop]

/-- An item that is followed by what it was followed by. -/
theorem item_akin (c : Char) (cs : List Char) {rest' : List Char}
    (h : Akin (item c cs).rest rest') :
    item c ((item c cs).taken ++ rest') = { item c cs with rest := rest' } := by
  unfold item at h ⊢
  cases hp : punctuation? c with
  | some kind => rfl
  | none =>
    simp only [hp] at h ⊢
    cases hc : comparison? c with
    | some kinds =>
      simp only [hc] at h ⊢
      split at h
      · rfl
      · rename_i hne
        split
        · rename_i heq
          have hhead := h.head?_eq (d := '=') rfl
          rw [List.nil_append] at heq
          rw [heq, List.head?_cons, beq_self_eq_true] at hhead
          obtain ⟨rest, rfl⟩ := List.head?_eq_some_iff.1 (eq_of_beq hhead.symm)
          exact absurd rfl (hne rest)
        · rfl
    | none =>
      simp only [hc] at h ⊢
      split
      · rename_i hq
        rw [if_pos hq] at h
        exact string_akin cs h
      · rename_i hq
        rw [if_neg hq] at h
        split
        · rename_i hd
          rw [if_pos hd] at h
          exact number_akin c cs h
        · rename_i hd
          rw [if_neg hd] at h
          split
          · rename_i hw
            rw [if_pos hw] at h
            exact word_akin c cs h
          · rfl

/-! ## Words -/

/-- Only a word is an identifier. -/
theorem word_of_identifier {c : Char} {cs : List Char} {literal : Option Literal}
    (h : (item c cs).found = .ok (.identifier, literal)) :
    startsWord c = true ∧ item c cs = word c cs ∧ literal = none := by
  unfold item at h ⊢
  cases hp : punctuation? c with
  | some kind =>
    simp only [hp] at h
    cases h
    exact absurd rfl (punctuation?_kind hp).1
  | none =>
    simp only [hp] at h ⊢
    cases hc : comparison? c with
    | some kinds =>
      obtain ⟨alone, withEqual⟩ := kinds
      obtain ⟨⟨halone, -⟩, hequal, -⟩ := comparison?_kind hc
      simp only [hc] at h
      split at h <;> cases h
      · exact absurd rfl hequal
      · exact absurd rfl halone
    | none =>
      simp only [hc] at h ⊢
      split at h
      · unfold string at h
        dsimp only at h
        split at h <;> cases h
      · rename_i hquote
        rw [if_neg hquote]
        split at h
        · cases h
        · rename_i hdigit
          rw [if_neg hdigit]
          split at h
          · rename_i hword
            exact ⟨hword, if_pos hword, (Prod.mk.inj (Except.ok.inj h)).2.symm⟩
          · cases h

theorem item_of_startsWord {c : Char} (hc : startsWord c = true) (cs : List Char) :
    item c cs = word c cs := by
  have hp : punctuation? c = none := by
    unfold punctuation?
    split <;> first | rfl | cases hc
  have hcomparison : comparison? c = none := by
    unfold comparison?
    split <;> first | rfl | cases hc
  have hquote := ne_of_startsWord hc (d := '"') rfl
  simp [item, hp, hcomparison, hquote, isDigit_of_startsWord hc, hc]

theorem newlines_word {c : Char} {cs : List Char} (hc : startsWord c = true)
    (hcs : ∀ d ∈ cs, continuesWord d = true) : newlines (c :: cs) = 0 := by
  refine List.count_eq_zero.2 fun hmem => ?_
  obtain h | h := List.mem_cons.1 hmem
  · exact ne_of_startsWord hc (d := '\n') rfl h.symm
  · cases hcs _ h

/-- An identifier is an item by itself, where no character follows that goes on with it. -/
theorem item_identifier {word : String} (h : isIdentifier word = true) :
    ∃ c cs, word.toList = c :: cs ∧ startsWord c = true ∧ newlines (c :: cs) = 0 ∧
      ∀ rest, StopsAt continuesWord rest →
        item c (cs ++ rest) = ⟨cs, rest, .ok (.identifier, none)⟩ := by
  unfold isIdentifier at h
  cases hlist : word.toList with
  | nil =>
    rw [hlist] at h
    cases h
  | cons c cs =>
    simp only [hlist, Bool.and_eq_true, List.all_eq_true, decide_eq_true_eq] at h
    obtain ⟨⟨hc, hcs⟩, hkind⟩ := h
    refine ⟨c, cs, rfl, hc, newlines_word hc hcs, fun rest hrest => ?_⟩
    obtain ⟨htake, hdrop⟩ := takeWhile_append_of_stopsAt hcs hrest
    have hlist : String.ofList (c :: cs) = word := by rw [← hlist, String.ofList_toList]
    rw [item_of_startsWord hc]
    simp only [Scan.word, htake, hdrop, hlist, hkind]

theorem ne_keyword_of_isIdentifier {word : String} (h : isIdentifier word = true) :
    word ≠ "this" ∧ word ≠ "super" := by
  unfold isIdentifier at h
  split at h
  · cases h
  · simp only [Bool.and_eq_true, decide_eq_true_eq] at h
    exact (TokenKind.worded_ofWord word none 1).1 h.2

/-! ## Pieces -/

/-- A piece is in error as before. -/
theorem Piece.Respelled.error?_eq {old new : String} {p p' : Piece} (h : p.Respelled old new p') :
    error? p'.item = error? p.item := by
  obtain rfl | ⟨hfound, -, rfl⟩ := h
  · rfl
  · unfold Piece.item
    simp only [hfound, error?]

theorem Respelled.scanErrors_eq {old new source source' : String}
    (h : Respelled old new source source') :
    Token.scanErrors source' = Token.scanErrors source := by
  simp only [Token.scanErrors, items, List.filterMap_map]
  unfold Respelled at h
  generalize pieces source = ps at h ⊢
  generalize pieces source' = ps' at h ⊢
  induction h with
  | nil => rfl
  | cons hp _ ih => rw [List.filterMap_cons, List.filterMap_cons, ih, Function.comp_apply,
      Function.comp_apply, hp.error?_eq]

theorem spelled_of_respelled {old new : String} {p : Piece} {t t' : Token} (hp : p.item = .ok t)
    (h : t.Respelled old new t') : t' = t ∨ p.found = .ok (.identifier, t.literal) ∧
      p.text = old.toList ∧ t' = t.spelled new := by
  obtain rfl | ⟨hkind, hlexeme, rfl⟩ := h
  · exact .inl rfl
  · obtain ⟨hfound, htext, -⟩ := found_of_item_ok hp
    refine .inr ⟨?_, ?_, rfl⟩
    · rw [hfound, hkind]
    · rw [← hlexeme, htext, String.toList_ofList]

theorem item_respelled {p : Piece} {t : Token} {new : String} (hp : p.item = .ok t)
    (hfound : p.found = .ok (.identifier, none)) :
    Piece.item { p with text := new.toList } = .ok (t.spelled new) := by
  unfold Piece.item at hp ⊢
  simp only [hfound] at hp ⊢
  cases hp
  rw [String.ofList_toList]
  rfl

/-- A text that goes on with another rest, where its first item is as it was. -/
theorem piecesFrom_akin (line : Nat) {cs gap rest rest' : List Char} {c : Char}
    (h : splitGap false cs = (gap, c :: rest)) (hrest : Akin (item c rest).rest rest') :
    Akin cs (gap ++ c :: ((item c rest).taken ++ rest')) ∧
      piecesFrom line (gap ++ c :: ((item c rest).taken ++ rest')) =
        { gap := gap, text := c :: (item c rest).taken,
          line := line + newlines gap + newlines (c :: (item c rest).taken),
          found := (item c rest).found } ::
        piecesFrom (line + newlines gap + newlines (c :: (item c rest).taken)) rest' := by
  have hakin : Akin (c :: rest) (c :: ((item c rest).taken ++ rest')) := by
    have := hrest.append (item c rest).taken
    rw [item_append] at this
    exact .cons this
  have hgap := splitGap_akin false cs (by rwa [h])
  rw [h] at hgap
  have hitem := item_akin c rest hrest
  constructor
  · rw [splitGap_eq h]
    exact hakin.append gap
  · rw [piecesFrom_of_cons line hgap, hitem]

/-- A text that goes on with another rest, where its first item is another identifier. -/
theorem piecesFrom_respelled {new : String} (hnew : isIdentifier new = true) (line : Nat)
    {cs gap rest rest' : List Char} {c : Char} {literal : Option Literal}
    (h : splitGap false cs = (gap, c :: rest)) (hrest : Akin (item c rest).rest rest')
    (hfound : (item c rest).found = .ok (.identifier, literal)) :
    Akin cs (gap ++ (new.toList ++ rest')) ∧
      piecesFrom line (gap ++ (new.toList ++ rest')) =
        { gap := gap, text := new.toList,
          line := line + newlines gap + newlines (c :: (item c rest).taken),
          found := (item c rest).found } ::
        piecesFrom (line + newlines gap + newlines (c :: (item c rest).taken)) rest' := by
  obtain ⟨d, ds, hlist, hd, hlines, hitem⟩ := item_identifier hnew
  obtain ⟨hc, hword, hliteral⟩ := word_of_identifier hfound
  rw [hfound, hliteral]
  rw [hword] at hrest ⊢
  have hstop := hrest.stopsAt_continuesWord (stopsAt_dropWhile _ rest)
  have hakin : Akin (c :: rest) (d :: (ds ++ rest')) := .word hc hd
  have hgap := splitGap_akin false cs (by rwa [h])
  rw [h] at hgap
  have hlines' : newlines (c :: (word c rest).taken) = 0 :=
    newlines_word hc fun _ he => List.mem_takeWhile_imp he
  rw [hlist, List.cons_append]
  constructor
  · rw [splitGap_eq h]
    exact hakin.append gap
  · rw [piecesFrom_of_cons line hgap, hitem rest' hstop, hlines, hlines']

/-- Tokens of which some are spelled anew are those of a text. -/
theorem exists_piecesFrom {old new : String} (hnew : isIdentifier new = true) (line : Nat)
    (cs : List Char) : ∀ ts' : List Token, (∀ p ∈ piecesFrom line cs, error? p.item = none) →
    List.Forall₂ (Token.Respelled old new)
      (((piecesFrom line cs).map Piece.item).filterMap token?) ts' →
    ∃ cs', Akin cs cs' ∧ List.Forall₂ (Piece.Respelled old new) (piecesFrom line cs)
        (piecesFrom line cs') ∧
      ((piecesFrom line cs').map Piece.item).filterMap token? = ts' := by
  induction line, cs using piecesFrom.induct with
  | case1 line cs gap hlen hgap =>
    intro ts' _ h
    refine ⟨cs, .refl cs, List.forall₂_same.2 fun _ _ => .inl rfl, ?_⟩
    rw [piecesFrom_of_nil line hgap] at h ⊢
    cases h with
    | cons h hnil =>
      cases hnil
      obtain rfl | ⟨hkind, -⟩ := h
      · rfl
      · cases hkind
  | case2 line cs gap c rest hlen hgap _ step line' ih =>
    intro ts' hclean h
    rw [piecesFrom_of_cons line hgap] at hclean h ⊢
    obtain ⟨hfirst, hclean⟩ := List.forall_mem_cons.1 hclean
    rw [List.map_cons, List.filterMap_cons] at h
    cases hitem : Piece.item ⟨gap, c :: (item c rest).taken, _, (item c rest).found⟩ with
    | error e =>
      rw [hitem] at hfirst
      cases hfirst
    | ok t =>
      rw [hitem] at h
      cases h with
      | cons ht hmore =>
        obtain ⟨rest', hakin, hpieces, htokens⟩ := ih _ hclean hmore
        obtain rfl | ⟨hfound, htext, rfl⟩ := spelled_of_respelled hitem ht
        · obtain ⟨hcs, heq⟩ := piecesFrom_akin line hgap hakin
          refine ⟨_, hcs, ?_, ?_⟩
          · rw [heq]
            exact .cons (.inl rfl) hpieces
          · rw [heq, List.map_cons, List.filterMap_cons, hitem, htokens]
            rfl
        · obtain ⟨hcs, heq⟩ := piecesFrom_respelled hnew line hgap hakin hfound
          have hliteral := (word_of_identifier hfound).2.2
          rw [hliteral] at hfound
          refine ⟨_, hcs, ?_, ?_⟩
          · rw [heq]
            exact .cons (.inr ⟨hfound, htext, rfl⟩) hpieces
          · rw [heq, List.map_cons, List.filterMap_cons, item_respelled hitem hfound, htokens]
            rfl

/-- When some identifiers of a text are spelled anew, the tokens are those of a text with the new
spelling. -/
theorem exists_respelled {old new source : String} {ts' : List Token}
    (hnew : isIdentifier new = true) (hclean : Token.scanErrors source = [])
    (h : List.Forall₂ (Token.Respelled old new) (Token.scan source) ts') :
    ∃ source', Respelled old new source source' ∧ Token.scanErrors source' = [] ∧
      Token.scan source' = ts' := by
  have herror (p : Piece) (hp : p ∈ pieces source) : error? p.item = none :=
    List.filterMap_eq_nil_iff.1 hclean p.item (List.mem_map_of_mem hp)
  obtain ⟨cs', -, hpieces, htokens⟩ := exists_piecesFrom hnew 1 source.toList ts' herror h
  have hsource : pieces (String.ofList cs') = piecesFrom 1 cs' := by
    rw [pieces, String.toList_ofList]
  have hrespelled : Respelled old new source (String.ofList cs') := by
    rw [Respelled, hsource]
    exact hpieces
  refine ⟨String.ofList cs', hrespelled, ?_, ?_⟩
  · rw [hrespelled.scanErrors_eq, hclean]
  · rw [Token.scan, items, hsource, htokens]

end Scan

end Lox
