import Lox.Proofs.Number.Bits
import Lox.Proofs.Number.Nearest
import Lox.Proofs.Parse.RoundTrip
import Lox.Proofs.Rename.Accepted
import Lox.Proofs.Token.Lexeme
import Lox.Value

/-!
# Lox.Proofs.Number.ReadBack

Printed numbers read back: the text of a finite number, as a statement, evaluates to a number of the
same bits (`evaluate_number_text`). The text is a sign and a numeral; the numeral is one lexeme,
whether it is written as an integer or with the fewest digits (`exists_numeral`), its literal is the
positive number with the ordinal that was printed, and the sign is negation again.
-/

namespace Lox

open Scan (IsLexeme natural)

/-! ## Digits -/

namespace Scan

theorem natural_eq (ds : List Char) : natural ds = Nat.ofDigitChars 10 ds 0 :=
  (digitsValue_eq ds).symm

theorem natural_append_zeros (ds : List Char) (n : Nat) :
    natural (ds ++ List.replicate n '0') = natural ds * 10 ^ n := by
  rw [natural_eq, natural_eq, Nat.ofDigitChars_append, Nat.ofDigitChars_replicate_zero,
    Nat.mul_comm]

theorem natural_zeros_append (n : Nat) (ds : List Char) :
    natural (List.replicate n '0' ++ ds) = natural ds := by
  rw [natural_eq, natural_eq, Nat.ofDigitChars_append, Nat.ofDigitChars_replicate_zero,
    Nat.mul_zero]

end Scan

namespace Decimal

theorem natural_digitChars (n : Nat) : natural (digitChars n) = n := by
  rw [Scan.natural_eq, digitChars, Nat.ofDigitChars_ten_toDigits]

theorem digitChars_ne_nil (n : Nat) : digitChars n ≠ [] :=
  Nat.toDigits_ne_nil

theorem isDigit_of_mem_digitChars {n : Nat} {c : Char} (h : c ∈ digitChars n) :
    c.isDigit = true :=
  Nat.isDigit_of_mem_toDigits (by decide) (by decide) h

theorem isDigit_of_mem_zeros {n : Nat} {c : Char} (h : c ∈ List.replicate n '0') :
    c.isDigit = true := by
  rw [List.eq_of_mem_replicate h]
  rfl

/-! ## Numerals -/

/-- The literal of the positive number with an ordinal. -/
def literal (k : Nat) : Literal := .number (Binary64.ofOrdinal k)

/-- Zeros after the digits are part of the integer. -/
theorem isLexeme_append_zeros (n zeros : Nat) :
    IsLexeme (digitChars n ++ List.replicate zeros '0') .number
      (some (literal (Binary64.nearest (n * 10 ^ zeros) 1))) := by
  have hdigits : ∀ c ∈ digitChars n ++ List.replicate zeros '0', c.isDigit = true :=
    List.forall_mem_append.2
      ⟨fun _ => isDigit_of_mem_digitChars, fun _ => isDigit_of_mem_zeros⟩
  have h := IsLexeme.integer (by simp [digitChars_ne_nil]) hdigits
  rwa [Scan.decimal, List.append_nil, Scan.natural_append_zeros, natural_digitChars,
    List.length_nil, Nat.pow_zero] at h

theorem isLexeme_digitChars (n : Nat) :
    IsLexeme (digitChars n) .number (some (literal (Binary64.nearest n 1))) := by
  simpa using isLexeme_append_zeros n 0

/-- A numeral with a point counts as its digits over a power of ten. -/
theorem isLexeme_point {whole fraction : List Char} {n places : Nat} (hwhole : whole ≠ [])
    (hplaces : 0 < places) (hlength : fraction.length = places)
    (hdigits : ∀ c ∈ whole ++ fraction, c.isDigit = true) (hn : natural (whole ++ fraction) = n) :
    IsLexeme (whole ++ '.' :: fraction) .number
      (some (literal (Binary64.nearest n (10 ^ places)))) := by
  have hfraction : fraction ≠ [] := by
    rw [← List.length_pos_iff, hlength]
    exact hplaces
  have h := IsLexeme.decimal hwhole hfraction hdigits
  rwa [Scan.decimal, hn, hlength] at h

/-- An integer may have a zero after a point. -/
theorem isLexeme_tenths (n : Nat) :
    IsLexeme (digitChars n ++ ".0".toList) .number
      (some (literal (Binary64.nearest (n * 10) 10))) := by
  have hdigits : ∀ c ∈ digitChars n ++ ['0'], c.isDigit = true :=
    List.forall_mem_append.2
      ⟨fun _ => isDigit_of_mem_digitChars, List.forall_mem_singleton.2 rfl⟩
  have hn : natural (digitChars n ++ ['0']) = n * 10 := by
    simpa [natural_digitChars] using Scan.natural_append_zeros (digitChars n) 1
  have h := isLexeme_point (digitChars_ne_nil n) (Nat.one_pos : 0 < 1) rfl hdigits hn
  rwa [Nat.pow_one] at h

/-- The point stands within the digits. -/
theorem isLexeme_split (n : Nat) {places : Nat} (hplaces : 0 < places)
    (hlt : places < (digitChars n).length) :
    IsLexeme ((digitChars n).take ((digitChars n).length - places) ++
        '.' :: (digitChars n).drop ((digitChars n).length - places)) .number
      (some (literal (Binary64.nearest n (10 ^ places)))) := by
  refine isLexeme_point ?_ hplaces ?_ ?_ ?_
  · rw [← List.length_pos_iff, List.length_take]
    omega
  · rw [List.length_drop]
    omega
  · rw [List.take_append_drop]
    exact fun _ => isDigit_of_mem_digitChars
  · rw [List.take_append_drop, natural_digitChars]

/-- The point stands before the digits, with zeros to fill the places after it. -/
theorem isLexeme_zeros_append (n : Nat) {places : Nat} (hplaces : 0 < places)
    (hle : (digitChars n).length ≤ places) :
    IsLexeme (['0'] ++
        '.' :: (List.replicate (places - (digitChars n).length) '0' ++ digitChars n)) .number
      (some (literal (Binary64.nearest n (10 ^ places)))) := by
  have hzeros : ['0'] ++ (List.replicate (places - (digitChars n).length) '0' ++ digitChars n) =
      List.replicate (places - (digitChars n).length + 1) '0' ++ digitChars n := by
    rw [List.replicate_succ]
    rfl
  refine isLexeme_point (List.cons_ne_nil _ _) hplaces ?_ ?_ ?_
  · rw [List.length_append, List.length_replicate]
    omega
  · rw [hzeros]
    exact List.forall_mem_append.2
      ⟨fun _ => isDigit_of_mem_zeros, fun _ => isDigit_of_mem_digitChars⟩
  · rw [hzeros, Scan.natural_zeros_append, natural_digitChars]

/-- A decimal with all digits in place is a lexeme, read as what the decimal stands for. -/
theorem isLexeme_positional (d : Decimal) :
    IsLexeme d.positional .number (some (literal d.toOrdinal)) := by
  by_cases he : 0 ≤ d.exponent
  · simpa [positional, toOrdinal, ratio, he] using
      isLexeme_append_zeros d.digits d.exponent.toNat
  · have hplaces : 0 < (-d.exponent).toNat := by omega
    have hordinal : d.toOrdinal = Binary64.nearest d.digits (10 ^ (-d.exponent).toNat) := by
      simp [toOrdinal, ratio, he]
    simp only [positional, if_neg he, hordinal]
    split
    · rename_i hlt
      exact isLexeme_split d.digits hplaces hlt
    · rename_i hlt
      exact isLexeme_zeros_append d.digits hplaces (Nat.le_of_not_lt hlt)

end Decimal

namespace NumberText

open Binary64 (ordinal signBit)

/-- The text of a finite number is that of its magnitude, with its sign. -/
theorem withSpecials_of_isFinite {x : Float} (hx : x.isFinite = true) (finite : Nat → List Char) :
    withSpecials x finite =
      String.ofList
        (if signBit x then '-' :: finite (ordinal x) else finite (ordinal x)) := by
  have hk := Binary64.ordinal_lt_infinity hx
  simp only [withSpecials, if_neg (Nat.lt_asymm hk), signed, if_neg hk.ne]

/-- The text of a finite number is its sign and a numeral for its ordinal. -/
theorem exists_numeral {x : Float} (hx : x.isFinite = true) :
    ∃ text, value x = String.ofList (if signBit x then '-' :: text else text) ∧
      IsLexeme text .number (some (Decimal.literal (ordinal x))) := by
  have hk := Binary64.ordinal_lt_infinity hx
  refine ⟨_, withSpecials_of_isFinite hx _, ?_⟩
  split
  · rename_i hinteger
    have h := Decimal.isLexeme_digitChars (Binary64.integerPart (ordinal x))
    rwa [Binary64.nearest_integerPart hk (Bool.and_eq_true_iff.1 hinteger).1] at h
  · have h := Decimal.isLexeme_positional (Decimal.shortest .up (ordinal x))
    rwa [Decimal.toOrdinal_shortest .up hk] at h

/-- So is its text as a literal. -/
theorem exists_literal_numeral {x : Float} (hx : x.isFinite = true) :
    ∃ text, literal x = String.ofList (if signBit x then '-' :: text else text) ∧
      IsLexeme text .number (some (Decimal.literal (ordinal x))) := by
  have hk := Binary64.ordinal_lt_infinity hx
  refine ⟨_, withSpecials_of_isFinite hx _, ?_⟩
  split
  · rename_i hinteger
    have h := Decimal.isLexeme_tenths (Binary64.integerPart (ordinal x))
    rwa [Binary64.nearest_tenths hk hinteger] at h
  · have h := Decimal.isLexeme_positional (Decimal.shortest .up (ordinal x))
    rwa [Decimal.toOrdinal_shortest .up hk] at h

end NumberText

/-! ## The tokens -/

namespace Scan

/-- Where an item starts, it is scanned, and the scan goes on where it ends. -/
theorem items_of_item (line : Nat) {c : Char} {cs taken rest : List Char} {kind : TokenKind}
    {literal : Option Literal} (hstart : splitGap false (c :: cs) = ([], c :: cs))
    (hitem : item c cs = ⟨taken, rest, .ok (kind, literal)⟩) :
    (piecesFrom line (c :: cs)).map Piece.item =
      .ok ⟨kind, String.ofList (c :: taken), literal, line + newlines (c :: taken)⟩ ::
        (piecesFrom (line + newlines (c :: taken)) rest).map Piece.item := by
  rw [piecesFrom_of_cons line hstart, hitem]
  simp [Piece.item, newlines]

/-- A numeral ends at a semicolon. -/
theorem items_numeral (line : Nat) {text : List Char} {literal : Option Literal}
    (h : IsLexeme text .number literal) (rest : List Char) :
    (piecesFrom line (text ++ ';' :: rest)).map Piece.item =
      .ok ⟨.number, String.ofList text, literal, line + newlines text⟩ ::
        (piecesFrom (line + newlines text) (';' :: rest)).map Piece.item := by
  have hstop : StopsAt Char.isDigit (';' :: rest) := by
    intro c hc
    cases hc
    rfl
  cases h with
  | symbol h => simp [symbols] at h
  | keyword h => simp [TokenKind.keywords] at h
  | integer hne hd =>
    obtain ⟨c, cs, rfl⟩ := List.exists_cons_of_ne_nil hne
    exact items_of_item line (splitGap_of_isDigit (hd c List.mem_cons_self) _)
      (item_integer hd hstop rfl)
  | decimal hw hf hd =>
    obtain ⟨c, cs, rfl⟩ := List.exists_cons_of_ne_nil hw
    obtain ⟨d, ds, rfl⟩ := List.exists_cons_of_ne_nil hf
    obtain ⟨hc, hd⟩ := List.forall_mem_append.1 hd
    exact items_of_item line (splitGap_of_isDigit (hc c List.mem_cons_self) _)
      (item_decimal hc hd hstop)

theorem items_minus (line : Nat) (rest : List Char) :
    (piecesFrom line ('-' :: rest)).map Piece.item =
      .ok ⟨.minus, "-", none, line⟩ :: (piecesFrom line rest).map Piece.item :=
  items_of_item line (splitGap_of_ne rfl fun h => absurd h (by decide)) rfl

theorem items_semicolon (line : Nat) :
    (piecesFrom line [';']).map Piece.item =
      [.ok ⟨.semicolon, ";", none, line⟩, .ok (Token.endOfInput line)] := by
  have hsemicolon : (piecesFrom line [';']).map Piece.item =
      .ok ⟨.semicolon, ";", none, line⟩ :: (piecesFrom line []).map Piece.item :=
    items_of_item line (splitGap_of_ne rfl fun h => absurd h (by decide)) rfl
  rw [hsemicolon, items_gap line .nil]
  rfl

/-- A sign, a numeral and a semicolon are a token each. -/
theorem scan_number {text : List Char} {literal : Option Literal} (negative : Bool)
    (h : IsLexeme text .number literal) :
    ∃ sign number semicolon last : Token,
      items (String.ofList (if negative then '-' :: text else text) ++ ";") =
          ((if negative then [sign] else []) ++ [number, semicolon, last]).map .ok ∧
        sign.kind = .minus ∧ number.kind = .number ∧ number.literal = literal ∧
        semicolon.kind = .semicolon ∧ last.kind = .eof := by
  refine ⟨⟨.minus, "-", none, 1⟩, ⟨.number, String.ofList text, literal, 1 + newlines text⟩,
    ⟨.semicolon, ";", none, 1 + newlines text⟩, Token.endOfInput (1 + newlines text), ?_,
    rfl, rfl, rfl, rfl, rfl⟩
  have hnumeral := items_numeral 1 h []
  rw [items_semicolon] at hnumeral
  cases negative with
  | false => simpa [items, pieces] using hnumeral
  | true =>
    have hminus := items_minus 1 (text ++ [';'])
    rw [hnumeral] at hminus
    simpa [items, pieces] using hminus

theorem scan_of_items {source : String} {tokens : List Token}
    (h : items source = tokens.map .ok) :
    Token.scanErrors source = [] ∧ Token.scan source = tokens := by
  constructor
  · simp [Token.scanErrors, h, error?]
  · rw [Token.scan, h, List.filterMap_map]
    exact List.filterMap_some

end Scan

/-! ## The statement -/

/-- The tree of a number with a sign. -/
def signedNumber (negative : Bool) (sign : Token) (x : Float) : Expr :=
  if negative then .unary sign (.constant (.number x)) else .constant (.number x)

theorem phrase_signedNumber (negative : Bool) (sign number : Stamped) {x : Float}
    (hsign : sign.token.kind = .minus) (hnumber : number.token.kind = .number)
    (hliteral : number.token.literal = some (.number x)) :
    Phrase (.expression (signedNumber negative sign.token x))
      ((if negative then [sign] else []) ++ [number]) := by
  have hprimary : Phrase (.primary (.constant (.number x))) [number] :=
    .constant_of_spelledBy ⟨hnumber, hliteral⟩
  cases negative with
  | false => exact Phrase.phrase_expression (n := 9) hprimary
  | true =>
    have hoperand : Phrase (.unary (.constant (.number x))) [number] :=
      Phrase.phrase_of_le (m := 7) (n := 9) (by decide) hprimary
    exact Phrase.phrase_expression (n := 7) (.unary (by simp [hsign]) hoperand)

theorem evaluate_signedNumber (negative : Bool) {sign : Token} (hsign : sign.kind = .minus)
    (x : Float) (fuel : Nat) (m : Machine) :
    Eval.evaluate (fuel + 2) (signedNumber negative sign x) m =
      .done (.number (if negative then -x else x)) m := by
  cases negative with
  | false =>
    rw [signedNumber, if_neg Bool.false_ne_true, Eval.evaluate]
    rfl
  | true =>
    have hminus : Operator.unary sign (.number x : Value) = .ok (.number (-x)) := by
      rw [Operator.unary, hsign]
    rw [signedNumber, if_pos rfl, Eval.evaluate, Eval.evaluate]
    show Computation.ofExcept (Operator.unary sign (.number x)) m = _
    rw [hminus]
    rfl

theorem phrase_expressionProgram {e : Expr} {u : List Stamped} (h : Phrase (.expression e) u)
    (semicolon : Stamped) (hsemicolon : semicolon.token.kind = .semicolon) :
    Phrase (.declarations [.expression e]) (u ++ [semicolon]) :=
  .declarations_singleton (.statement (.expressionForm (.expressionStatement h hsemicolon)))

/-- A number with a sign and a semicolon after it is a program of one statement. -/
theorem phrase_statement (first : RefId) (negative : Bool) {sign number semicolon last : Token}
    {x : Float} (hsign : sign.kind = .minus) (hnumber : number.kind = .number)
    (hliteral : number.literal = some (.number x)) (hsemicolon : semicolon.kind = .semicolon)
    (hlast : last.kind = .eof) :
    Phrase (.declarations [.expression (signedNumber negative sign x)])
      (Stamped.ofTokens first (Token.body
        ((if negative then [sign] else []) ++ [number, semicolon, last]))) := by
  have hbody : Token.body ((if negative then [sign] else []) ++ [number, semicolon, last]) =
      (if negative then [sign] else []) ++ [number, semicolon] := by
    cases negative <;> simp [Token.body, hsign, hnumber, hsemicolon, hlast]
  rw [hbody]
  cases negative with
  | false =>
    exact phrase_expressionProgram
      (phrase_signedNumber false ⟨sign, first⟩ ⟨number, first⟩ hsign hnumber hliteral)
      ⟨semicolon, first + 1⟩ hsemicolon
  | true =>
    exact phrase_expressionProgram
      (phrase_signedNumber true ⟨sign, first⟩ ⟨number, first + 1⟩ hsign hnumber hliteral)
      ⟨semicolon, first + 1 + 1⟩ hsemicolon

/-- Number text reads back. With a semicolon after it, the text of a finite number scans without an
error to one number, with a minus before it just when the number has its sign bit set. These tokens
parse without an error to one expression statement, and on any machine the expression evaluates to a
number of the same bits and leaves the machine as it was. -/
theorem evaluate_number_text (first : RefId) {x : Float} (hx : x.isFinite = true) :
    let source := (Value.number x : Value).text ++ ";"
    Token.scanErrors source = [] ∧
      (Token.scan source).map Token.kind =
        (if Binary64.signBit x then [.minus] else []) ++ [.number, .semicolon, .eof] ∧
      (Parse.ofTokens first (Token.scan source)).errors = [] ∧
      ∃ (e : Expr) (y : Float),
        (Parse.ofTokens first (Token.scan source)).statements = [.expression e] ∧
          (∀ (fuel : Nat) (m : Machine), Eval.evaluate (fuel + 2) e m = .done (.number y) m) ∧
          y.toBits = x.toBits := by
  intro source
  obtain ⟨text, htext, hlexeme⟩ := NumberText.exists_numeral hx
  obtain ⟨sign, number, semicolon, last, hitems, hsign, hnumber, hliteral, hsemicolon, hlast⟩ :=
    Scan.scan_number (Binary64.signBit x) hlexeme
  rw [← htext] at hitems
  obtain ⟨herrors, htokens⟩ : Token.scanErrors source = [] ∧ Token.scan source = _ :=
    Scan.scan_of_items hitems
  obtain ⟨hstatements, hparse⟩ := Parse.ofTokens_of_phrase
    (phrase_statement first (Binary64.signBit x) hsign hnumber hliteral hsemicolon hlast)
  rw [htokens]
  refine ⟨herrors, ?_, hparse, _, _, hstatements, evaluate_signedNumber _ hsign _, ?_⟩
  · cases Binary64.signBit x <;> simp [hsign, hnumber, hsemicolon, hlast]
  · rw [Binary64.ofOrdinal_ordinal hx]

/-- Negative zero is written `-0`, and its sign comes back. -/
theorem evaluate_negative_zero_text :
    (-0.0 : Float).isFinite = true ∧ (Value.number (-0.0) : Value).text = "-0" ∧
      (Token.scan "-0;").map Token.kind = [.minus, .number, .semicolon, .eof] ∧
      ∃ (e : Expr) (y : Float),
        (Parse.ofTokens 0 (Token.scan "-0;")).statements = [.expression e] ∧
          (∀ m : Machine, Eval.evaluate 2 e m = .done (.number y) m) ∧
          y.toBits = 0x8000000000000000 := by
  have hfinite : (-0.0 : Float).isFinite = true := by decide
  have htext : (Value.number (-0.0) : Value).text = "-0" := by decide +kernel
  obtain ⟨-, hkinds, -, e, y, he, heval, hbits⟩ := evaluate_number_text 0 hfinite
  rw [htext] at hkinds he
  exact ⟨hfinite, htext, hkinds, e, y, he, heval 0, hbits.trans (by decide)⟩

end Lox
