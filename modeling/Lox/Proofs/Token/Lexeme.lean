import Mathlib
import Lox.Proofs.Respell.Text
import Lox.Proofs.Token.Tiling

/-!
# Lox.Proofs.Token.Lexeme

Scanning undoes writing (`scan_written`). A lexeme is a text that spells one token. Where a blank or
the end of the input follows a lexeme, the scan stops there and nowhere before, so lexemes that are
set apart by separators are taken back one by one.
-/

namespace Lox
namespace Scan

/-! ## What is written -/

/-- The punctuators and operators. -/
def symbols : List (String × TokenKind) :=
  [("(", .leftParen), (")", .rightParen), ("\x7b", .leftBrace), ("\x7d", .rightBrace),
   (",", .comma), (".", .dot), ("-", .minus), ("+", .plus), (";", .semicolon), ("/", .slash),
   ("*", .star), ("!", .bang), ("!=", .bangEqual), ("=", .equal), ("==", .equalEqual),
   (">", .greater), (">=", .greaterEqual), ("<", .less), ("<=", .lessEqual)]

/-- The natural that decimal digits spell, the most significant first. -/
def natural (digits : List Char) : Nat :=
  Nat.ofDigits 10 (digits.reverse.map fun d => d.toNat - '0'.toNat)

/-- The number nearest to the decimal `whole.fraction`. -/
def decimal (whole fraction : List Char) : Literal :=
  .number (Binary64.ofOrdinal
    (Binary64.nearest (natural (whole ++ fraction)) (10 ^ fraction.length)))

/-- A text that spells one token, of this kind and with this literal. -/
inductive IsLexeme : List Char → TokenKind → Option Literal → Prop where
  | symbol {text : String} {kind : TokenKind} (h : (text, kind) ∈ symbols) :
      IsLexeme text.toList kind none
  | keyword {word : String} {kind : TokenKind} (h : (word, kind) ∈ TokenKind.keywords) :
      IsLexeme word.toList kind none
  | identifier {c : Char} {cs : List Char} (hc : startsWord c = true)
      (hcs : ∀ d ∈ cs, continuesWord d = true)
      (hk : ∀ kind, (String.ofList (c :: cs), kind) ∉ TokenKind.keywords) :
      IsLexeme (c :: cs) .identifier none
  | integer {digits : List Char} (hne : digits ≠ []) (hd : ∀ d ∈ digits, d.isDigit = true) :
      IsLexeme digits .number (some (decimal digits []))
  | decimal {whole fraction : List Char} (hw : whole ≠ []) (hf : fraction ≠ [])
      (hd : ∀ d ∈ whole ++ fraction, d.isDigit = true) :
      IsLexeme (whole ++ '.' :: fraction) .number (some (decimal whole fraction))
  | string {body : List Char} (hb : '"' ∉ body) :
      IsLexeme ('"' :: (body ++ ['"'])) .string (some (.string (String.ofList body)))

structure Lexeme where
  text : List Char
  kind : TokenKind
  literal : Option Literal
  valid : IsLexeme text kind literal

/-- The token of a lexeme whose last character is on `line`. -/
def Lexeme.token (l : Lexeme) (line : Nat) : Token :=
  { kind := l.kind, lexeme := String.ofList l.text, literal := l.literal, line := line }

/-- What sets lexemes apart: a blank, then blanks and comments that end with their lines. -/
structure Separator where
  text : List Char
  starts : ∃ c ∈ text.head?, c = ' ' ∨ c = '\r' ∨ c = '\t' ∨ c = '\n'
  valid : IsGap false text

/-- Lexemes with separators between them, and possibly one after the last. -/
inductive Writing where
  | empty
  | last (l : Lexeme)
  | next (l : Lexeme) (sep : Separator) (rest : Writing)

namespace Writing

def text : Writing → List Char
  | empty => []
  | last l => l.text
  | next l sep rest => l.text ++ (sep.text ++ rest.text)

/-- One token for each lexeme, on the line where the lexeme ends, if the text starts on `line`. -/
def tokensFrom (line : Nat) : Writing → List Token
  | empty => []
  | last l => [l.token (line + newlines l.text)]
  | next l sep rest =>
    l.token (line + newlines l.text) ::
      rest.tokensFrom (line + newlines l.text + newlines sep.text)

end Writing

/-! ## Gaps -/

theorem isBlank_iff {c : Char} :
    isBlank c = true ↔ c = ' ' ∨ c = '\r' ∨ c = '\t' ∨ c = '\n' := by
  simp [isBlank, or_assoc]

/-- The scan goes on after a gap where an item starts. -/
theorem splitGap_of_ne {c : Char} {cs : List Char} (hblank : isBlank c = false)
    (hslash : c = '/' → cs.head? ≠ some '/') : splitGap false (c :: cs) = ([], c :: cs) := by
  have hcomment : (c == '/' && cs.head? == some '/') = false := by
    by_cases hc : c = '/'
    · simp [hslash hc]
    · simp [hc]
  simp [splitGap, hblank, hcomment]

theorem splitGap_blank {c : Char} (hc : isBlank c = true) (cs : List Char) :
    splitGap false (c :: cs) = (c :: (splitGap false cs).1, (splitGap false cs).2) := by
  simp [splitGap, hc]

/-- A comment ends before the next newline. -/
theorem splitGap_comment {body : List Char} (hb : '\n' ∉ body) (cs : List Char) :
    splitGap true (body ++ '\n' :: cs) =
      (body ++ (splitGap false ('\n' :: cs)).1, (splitGap false ('\n' :: cs)).2) := by
  induction body with
  | nil => simp [splitGap, isBlank]
  | cons c body ih =>
    obtain ⟨hc, hb⟩ := not_or.1 (mt List.mem_cons.2 hb)
    have hc : (c != '\n') = true := bne_iff_ne.2 (Ne.symm hc)
    rw [List.cons_append, splitGap, hc, ih hb]
    rfl

/-- A whole gap is split off, where an item starts or the input ends after it. -/
theorem splitGap_gap {gap cs : List Char} (h : IsGap false gap)
    (hcs : splitGap false cs = ([], cs)) : splitGap false (gap ++ cs) = (gap, cs) := by
  induction h with
  | nil => exact hcs
  | @blank c gap hc _ ih =>
    rw [List.cons_append, splitGap_blank (isBlank_iff.2 hc), ih]
  | @comment body gap hb _ ih =>
    rw [List.cons_append] at ih
    have hrun := splitGap_comment hb (gap ++ cs)
    rw [ih] at hrun
    have hsecond : splitGap true ('/' :: (body ++ '\n' :: (gap ++ cs))) =
        ('/' :: (body ++ '\n' :: gap), cs) := by
      rw [splitGap, show ('/' != '\n') = true from rfl, hrun]
    show splitGap false ('/' :: '/' :: (body ++ '\n' :: gap ++ cs)) = _
    simp only [List.append_assoc, List.cons_append]
    simp [splitGap.eq_def false, isBlank, hsecond]
  | lastComment _ hl => cases hl

/-! ## Items before a blank -/

/-- A blank follows, or the input ends. -/
def Parted (after : List Char) : Prop := ∀ c ∈ after.head?, isBlank c = true

theorem Parted.stopsAt {after : List Char} (h : Parted after) {p : Char → Bool}
    (hp : ∀ c, isBlank c = true → p c = false) : StopsAt p after :=
  fun c hc => hp c (h c hc)

theorem Parted.stopsAt_isDigit {after : List Char} (h : Parted after) :
    StopsAt Char.isDigit after :=
  h.stopsAt fun _ hc => by obtain rfl | rfl | rfl | rfl := isBlank_iff.1 hc <;> rfl

theorem Parted.stopsAt_continuesWord {after : List Char} (h : Parted after) :
    StopsAt continuesWord after :=
  h.stopsAt fun _ hc => by obtain rfl | rfl | rfl | rfl := isBlank_iff.1 hc <;> rfl

theorem Parted.head?_ne {after : List Char} (h : Parted after) {c : Char}
    (hc : isBlank c = false) : after.head? ≠ some c := by
  intro hhead
  rw [h c hhead] at hc
  cases hc

theorem Parted.splitFraction_eq {after : List Char} (h : Parted after) :
    splitFraction after = ([], after) := by
  obtain ⟨d, ds, rfl, -⟩ | hsplit := splitFraction_cases after
  · exact absurd rfl (h.head?_ne (c := '.') rfl)
  · exact hsplit

/-- The scan takes the text `c :: cs` as one item wherever a blank follows. -/
structure Reads (c : Char) (cs : List Char) (kind : TokenKind) (literal : Option Literal) :
    Prop where
  starts : ∀ after, Parted after → splitGap false (c :: (cs ++ after)) = ([], c :: (cs ++ after))
  item : ∀ after, Parted after → item c (cs ++ after) = ⟨cs, after, .ok (kind, literal)⟩

theorem reads_punctuation {c : Char} {kind : TokenKind} (h : punctuation? c = some kind) :
    Reads c [] kind none where
  starts after hafter := by
    refine splitGap_of_ne ?_ fun _ => hafter.head?_ne rfl
    unfold punctuation? at h
    split at h <;> first | rfl | cases h
  item after _ := by simp [Scan.item, h]

theorem isBlank_of_comparison {c : Char} {kinds : TokenKind × TokenKind}
    (h : comparison? c = some kinds) : isBlank c = false ∧ c ≠ '/' ∧ punctuation? c = none := by
  unfold comparison? at h
  split at h <;> cases h <;> exact ⟨rfl, by decide, rfl⟩

theorem reads_alone {c : Char} {alone withEqual : TokenKind}
    (h : comparison? c = some (alone, withEqual)) : Reads c [] alone none := by
  obtain ⟨hblank, hslash, hp⟩ := isBlank_of_comparison h
  refine ⟨fun after _ => splitGap_of_ne hblank fun hc => absurd hc hslash, fun after hafter => ?_⟩
  simp only [Scan.item, hp, h, List.nil_append]
  split
  · exact absurd rfl (hafter.head?_ne (c := '=') rfl)
  · rfl

theorem reads_withEqual {c : Char} {alone withEqual : TokenKind}
    (h : comparison? c = some (alone, withEqual)) : Reads c ['='] withEqual none := by
  obtain ⟨hblank, hslash, hp⟩ := isBlank_of_comparison h
  refine ⟨fun after _ => splitGap_of_ne hblank fun hc => absurd hc hslash, fun after _ => ?_⟩
  simp [Scan.item, hp, h]

theorem reads_symbol {text : String} {kind : TokenKind} (h : (text, kind) ∈ symbols) :
    ∃ c cs, text.toList = c :: cs ∧ Reads c cs kind none := by
  simp only [symbols, List.mem_cons, List.not_mem_nil, or_false, Prod.mk.injEq] at h
  rcases h with ⟨rfl, rfl⟩ | ⟨rfl, rfl⟩ | ⟨rfl, rfl⟩ | ⟨rfl, rfl⟩ | ⟨rfl, rfl⟩ | ⟨rfl, rfl⟩ |
    ⟨rfl, rfl⟩ | ⟨rfl, rfl⟩ | ⟨rfl, rfl⟩ | ⟨rfl, rfl⟩ | ⟨rfl, rfl⟩ | ⟨rfl, rfl⟩ | ⟨rfl, rfl⟩ |
    ⟨rfl, rfl⟩ | ⟨rfl, rfl⟩ | ⟨rfl, rfl⟩ | ⟨rfl, rfl⟩ | ⟨rfl, rfl⟩ | ⟨rfl, rfl⟩ <;>
  first
  | exact ⟨_, _, rfl, reads_punctuation rfl⟩
  | exact ⟨_, _, rfl, reads_withEqual rfl⟩
  | exact ⟨_, _, rfl, reads_alone rfl⟩

/-! ### Words -/

theorem reads_word {c : Char} {cs : List Char} (hc : startsWord c = true)
    (hcs : ∀ d ∈ cs, continuesWord d = true) :
    Reads c cs (TokenKind.ofWord (String.ofList (c :: cs))) none where
  starts after _ := splitGap_of_startsWord hc _
  item after hafter := by
    obtain ⟨htake, hdrop⟩ := takeWhile_append_of_stopsAt hcs hafter.stopsAt_continuesWord
    rw [item_of_startsWord hc]
    simp only [word, htake, hdrop]

theorem ofWord_of_mem {word : String} {kind : TokenKind} (h : (word, kind) ∈ TokenKind.keywords) :
    TokenKind.ofWord word = kind ∧
      ∃ c cs, word.toList = c :: cs ∧ startsWord c = true ∧ ∀ d ∈ cs, continuesWord d = true := by
  simp only [TokenKind.keywords, List.mem_cons, List.not_mem_nil, or_false, Prod.mk.injEq] at h
  rcases h with ⟨rfl, rfl⟩ | ⟨rfl, rfl⟩ | ⟨rfl, rfl⟩ | ⟨rfl, rfl⟩ | ⟨rfl, rfl⟩ | ⟨rfl, rfl⟩ |
    ⟨rfl, rfl⟩ | ⟨rfl, rfl⟩ | ⟨rfl, rfl⟩ | ⟨rfl, rfl⟩ | ⟨rfl, rfl⟩ | ⟨rfl, rfl⟩ | ⟨rfl, rfl⟩ |
    ⟨rfl, rfl⟩ | ⟨rfl, rfl⟩ <;>
  exact ⟨by simp [TokenKind.ofWord, TokenKind.keywords, List.lookup], _, _, rfl, rfl,
    List.all_eq_true.1 rfl⟩

theorem ofWord_of_not_mem {word : String} (h : ∀ kind, (word, kind) ∉ TokenKind.keywords) :
    TokenKind.ofWord word = .identifier := by
  by_contra hne
  exact h _ (TokenKind.mem_keywords_of_ofWord rfl hne)

/-! ### Numbers -/

theorem digitsValue_append (ds : List Char) (d : Char) :
    digitsValue (ds ++ [d]) = 10 * digitsValue ds + (d.toNat - '0'.toNat) := by
  simp [digitsValue]

theorem digitsValue_eq (ds : List Char) : digitsValue ds = natural ds := by
  induction ds using List.reverseRecOn with
  | nil => rfl
  | append_singleton ds d ih =>
    rw [digitsValue_append, ih, natural, natural, List.reverse_append, List.map_append,
      List.reverse_singleton, List.map_singleton, List.singleton_append, Nat.ofDigits_cons]
    exact Nat.add_comm _ _

theorem numberValue_eq (whole fraction : List Char) :
    Literal.number (numberValue whole fraction) = decimal whole fraction := by
  rw [numberValue, digitsValue_eq]
  rfl

theorem item_of_isDigit {c : Char} (hc : c.isDigit = true) (cs : List Char) :
    item c cs = number c cs := by
  have hp : punctuation? c = none := by
    unfold punctuation?
    split <;> first | rfl | cases hc
  have hcomparison : comparison? c = none := by
    unfold comparison?
    split <;> first | rfl | cases hc
  have hquote : c ≠ '"' := by
    rintro rfl
    cases hc
  simp [item, hp, hcomparison, hquote, hc]

theorem splitGap_of_isDigit {c : Char} (hc : c.isDigit = true) (cs : List Char) :
    splitGap false (c :: cs) = ([], c :: cs) := by
  refine splitGap_of_ne ?_ ?_
  · rw [Bool.eq_false_iff]
    intro hblank
    obtain rfl | rfl | rfl | rfl := isBlank_iff.1 hblank <;> cases hc
  · rintro rfl
    cases hc

/-- Digits end where something else follows, unless that is a fraction. -/
theorem item_integer {c : Char} {cs after : List Char} (hd : ∀ d ∈ c :: cs, d.isDigit = true)
    (hafter : StopsAt Char.isDigit after) (hpoint : splitFraction after = ([], after)) :
    item c (cs ++ after) = ⟨cs, after, .ok (.number, some (decimal (c :: cs) []))⟩ := by
  obtain ⟨htake, hdrop⟩ :=
    takeWhile_append_of_stopsAt (fun d h => hd d (List.mem_cons_of_mem c h)) hafter
  rw [item_of_isDigit (hd c List.mem_cons_self)]
  simp [number, htake, hdrop, hpoint, numberValue_eq]

/-- After its point a number has the digits up to where something else follows. -/
theorem item_decimal {c d : Char} {cs ds after : List Char} (hc : ∀ x ∈ c :: cs, x.isDigit = true)
    (hd : ∀ x ∈ d :: ds, x.isDigit = true) (hafter : StopsAt Char.isDigit after) :
    item c (cs ++ '.' :: d :: ds ++ after) =
      ⟨cs ++ '.' :: d :: ds, after, .ok (.number, some (decimal (c :: cs) (d :: ds)))⟩ := by
  have hpoint : StopsAt Char.isDigit ('.' :: d :: (ds ++ after)) := by
    intro x hx
    cases hx
    rfl
  obtain ⟨hwhole, hrest⟩ :=
    takeWhile_append_of_stopsAt (fun x h => hc x (List.mem_cons_of_mem c h)) hpoint
  obtain ⟨hfraction, hafter'⟩ :=
    takeWhile_append_of_stopsAt (fun x h => hd x (List.mem_cons_of_mem d h)) hafter
  have hsplit : splitFraction ('.' :: d :: (ds ++ after)) = (d :: ds, after) := by
    rw [splitFraction, if_pos (hd d List.mem_cons_self), hfraction, hafter']
  rw [item_of_isDigit (hc c List.mem_cons_self)]
  simp [number, hwhole, hrest, hsplit, numberValue_eq]

theorem reads_integer {c : Char} {cs : List Char} (hd : ∀ d ∈ c :: cs, d.isDigit = true) :
    Reads c cs .number (some (decimal (c :: cs) [])) where
  starts _ _ := splitGap_of_isDigit (hd c List.mem_cons_self) _
  item _ hafter := item_integer hd hafter.stopsAt_isDigit hafter.splitFraction_eq

theorem reads_decimal {c d : Char} {cs ds : List Char}
    (hc : ∀ x ∈ c :: cs, x.isDigit = true) (hd : ∀ x ∈ d :: ds, x.isDigit = true) :
    Reads c (cs ++ '.' :: d :: ds) .number (some (decimal (c :: cs) (d :: ds))) where
  starts _ _ := splitGap_of_isDigit (hc c List.mem_cons_self) _
  item _ hafter := item_decimal hc hd hafter.stopsAt_isDigit

/-! ### Strings -/

theorem reads_string {body : List Char} (hb : '"' ∉ body) :
    Reads '"' (body ++ ['"']) .string (some (.string (String.ofList body))) where
  starts after _ := splitGap_of_ne rfl fun h => absurd h (by decide)
  item after _ := by
    have hbody : ∀ c ∈ body, (c != '"') = true := by
      intro c hc
      refine bne_iff_ne.2 ?_
      rintro rfl
      exact hb hc
    have hquote : StopsAt (· != '"') ('"' :: after) := by
      intro c hc
      cases hc
      rfl
    obtain ⟨htake, hdrop⟩ := takeWhile_append_of_stopsAt hbody hquote
    show string (body ++ ['"'] ++ after) = _
    simp [string, htake, hdrop]

/-- Whatever its kind, a lexeme is read as what it spells. -/
theorem IsLexeme.reads {text : List Char} {kind : TokenKind} {literal : Option Literal}
    (h : IsLexeme text kind literal) : ∃ c cs, text = c :: cs ∧ Reads c cs kind literal := by
  cases h with
  | symbol h => exact reads_symbol h
  | @keyword word kind h =>
    obtain ⟨hkind, c, cs, htext, hc, hcs⟩ := ofWord_of_mem h
    have hword : String.ofList (c :: cs) = word := by rw [← htext, String.ofList_toList]
    have hreads := reads_word hc hcs
    rw [hword, hkind] at hreads
    exact ⟨c, cs, htext, hreads⟩
  | identifier hc hcs hk =>
    have hreads := reads_word hc hcs
    rw [ofWord_of_not_mem hk] at hreads
    exact ⟨_, _, rfl, hreads⟩
  | integer hne hd =>
    obtain ⟨c, cs, rfl⟩ := List.exists_cons_of_ne_nil hne
    exact ⟨c, cs, rfl, reads_integer hd⟩
  | decimal hw hf hd =>
    obtain ⟨c, cs, rfl⟩ := List.exists_cons_of_ne_nil hw
    obtain ⟨d, ds, rfl⟩ := List.exists_cons_of_ne_nil hf
    obtain ⟨hc, hd⟩ := List.forall_mem_append.1 hd
    exact ⟨c, _, rfl, reads_decimal hc hd⟩
  | string hb => exact ⟨_, _, rfl, reads_string hb⟩

/-! ## The whole text -/

theorem Separator.parted (sep : Separator) (cs : List Char) : Parted (sep.text ++ cs) := by
  obtain ⟨c, hhead, hc⟩ := sep.starts
  obtain ⟨rest, htext⟩ := List.head?_eq_some_iff.1 hhead
  rw [htext]
  intro d hd
  cases hd
  exact isBlank_iff.2 hc

/-- After a gap, a lexeme that a blank follows is one item; the scan goes on where it ends. -/
theorem items_lexeme (line : Nat) {gap after : List Char} (hgap : IsGap false gap) (l : Lexeme)
    (hafter : Parted after) :
    (piecesFrom line (gap ++ (l.text ++ after))).map Piece.item =
      .ok (l.token (line + newlines gap + newlines l.text)) ::
        (piecesFrom (line + newlines gap + newlines l.text) after).map Piece.item := by
  obtain ⟨c, cs, htext, hreads⟩ := l.valid.reads
  have hsplit : splitGap false (gap ++ (l.text ++ after)) = (gap, c :: (cs ++ after)) := by
    rw [htext, List.cons_append]
    exact splitGap_gap hgap (hreads.starts after hafter)
  rw [piecesFrom_of_cons line hsplit, hreads.item after hafter]
  simp [Piece.item, Lexeme.token, htext]

/-- Past the last lexeme there is only the end of the input. -/
theorem items_gap (line : Nat) {gap : List Char} (hgap : IsGap false gap) :
    (piecesFrom line gap).map Piece.item = [.ok (Token.endOfInput (line + newlines gap))] := by
  have hnil : splitGap false [] = ([], []) := rfl
  have hsplit : splitGap false gap = (gap, []) := by simpa using splitGap_gap hgap hnil
  rw [piecesFrom_of_nil line hsplit]
  rfl

theorem items_written (w : Writing) (line : Nat) {gap : List Char} (hgap : IsGap false gap) :
    (piecesFrom line (gap ++ w.text)).map Piece.item =
      (w.tokensFrom (line + newlines gap)).map .ok ++
        [.ok (Token.endOfInput (line + newlines gap + newlines w.text))] := by
  induction w generalizing line gap with
  | empty => simpa [Writing.text, Writing.tokensFrom, newlines] using items_gap line hgap
  | last l =>
    have hend : Parted [] := by simp [Parted]
    have hlexeme := items_lexeme line hgap l hend
    rw [items_gap _ .nil, List.append_nil] at hlexeme
    simpa [Writing.text, Writing.tokensFrom, newlines] using hlexeme
  | next l sep rest ih =>
    rw [Writing.text, items_lexeme line hgap l (sep.parted rest.text), ih _ sep.valid]
    simp [Writing.tokensFrom, newlines_append, Nat.add_assoc]

/-- Scanning undoes writing: a token for each lexeme, of the kind and with the literal that it
spells and on the line where it ends, then the end of the input, and no error. -/
theorem scan_written (w : Writing) :
    Token.scanErrors (String.ofList w.text) = [] ∧
      Token.scan (String.ofList w.text) =
        w.tokensFrom 1 ++ [Token.endOfInput (1 + newlines w.text)] := by
  have hitems : items (String.ofList w.text) =
      (w.tokensFrom 1).map .ok ++ [.ok (Token.endOfInput (1 + newlines w.text))] := by
    simpa [items, pieces, newlines] using items_written w 1 .nil
  constructor
  · simp [Token.scanErrors, hitems, error?]
  · have htoken : token? ∘ Except.ok = some := rfl
    simp [Token.scan, hitems, htoken, token?]

/-- A keyword, a comment with the end of its line, and a string over two lines. -/
def Writing.sample : Writing :=
  let comment : Separator :=
    { text := [' ', '/', '/', 'o', 'h', '\n']
      starts := ⟨' ', rfl, .inl rfl⟩
      valid := .blank (.inl rfl) (@IsGap.comment _ ['o', 'h'] [] (by decide)
        (.blank (.inr (.inr (.inr rfl))) .nil)) }
  .next ⟨"return".toList, .kwReturn, none, .keyword (by decide)⟩ comment
    (.last ⟨['"', 'a', '\n', 'b', '"'], .string, some (.string "a\nb"),
      @IsLexeme.string ['a', '\n', 'b'] (by decide)⟩)

example : String.ofList Writing.sample.text = "return //oh\n\"a\nb\"" ∧
    Token.scan (String.ofList Writing.sample.text) =
      [⟨.kwReturn, "return", none, 1⟩, ⟨.string, "\"a\nb\"", some (.string "a\nb"), 3⟩,
        .endOfInput 3] :=
  ⟨by cbv, by cbv⟩

end Scan
end Lox
