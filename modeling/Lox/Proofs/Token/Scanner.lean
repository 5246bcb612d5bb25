import Mathlib
import Lox.Proofs.Token.Tiling
import Lox.Token.Scanner

/-!
# Lox.Proofs.Token.Scanner

Byte by byte and character by character the scan is the same (`Scanner.answer_eq`). A scanner that
is about to start a round stands between two characters of the source (`Stands`). From there

* a round over a blank or a comment leaves it behind that much of the gap (`skips_blank`,
  `skips_comment`), which a cursor goes over in the same call (`Cursor.next_gap`);
* any other round finds what `item` finds and goes over the same characters (`round_item`);

and either way it stands between two characters again. Every test of a byte is one of the character
that the byte belongs to, since no byte of a character beyond ASCII is that of an ASCII character
(`test_of_mem_utf8EncodeChar`).
-/

namespace Lox
namespace Scan

/-! ## Bytes of characters -/

/-- The bytes of characters in UTF-8. -/
def encoded (cs : List Char) : List UInt8 := cs.flatMap String.utf8EncodeChar

theorem encoded_cons (c : Char) (cs : List Char) :
    encoded (c :: cs) = String.utf8EncodeChar c ++ encoded cs := List.flatMap_cons

theorem encoded_append (a b : List Char) : encoded (a ++ b) = encoded a ++ encoded b :=
  List.flatMap_append

theorem data_utf8Encode (cs : List Char) : cs.utf8Encode.data.toList = encoded cs := by
  rw [List.utf8Encode, List.data_toByteArray]
  rfl

theorem length_encoded (cs : List Char) : (encoded cs).length = byteSize cs := by
  rw [← size_utf8Encode, ← data_utf8Encode]
  rfl

theorem count_encoded (cs : List Char) : (encoded cs).count 10 = newlines cs := by
  rw [← data_utf8Encode, Array.count_toList, count_utf8Encode]

theorem utf8Size_ascii {c : Char} (h : c.toNat < 128) : c.utf8Size = 1 := by
  rw [Char.utf8Size_eq_one_iff, UInt32.le_iff_toNat_le]
  exact Nat.le_of_lt_succ h

theorem byteSize_ascii {c : Char} (h : c.toNat < 128) : byteSize [c] = 1 := by
  rw [byteSize_cons, utf8Size_ascii h, byteSize_nil]

/-- An ASCII character is its byte. -/
theorem encoded_ascii {c : Char} (h : c.toNat < 128) :
    String.utf8EncodeChar c = [c.toUInt8] := by
  rw [String.utf8EncodeChar_eq_singleton (utf8Size_ascii h)]
  rfl

theorem toNat_ofUInt8 (b : UInt8) : (Char.ofUInt8 b).toNat = b.toNat := by
  simp [Char.ofUInt8, Char.toNat]

theorem ofUInt8_toUInt8 {c : Char} (h : c.toNat < 128) : Char.ofUInt8 c.toUInt8 = c := by
  refine Char.toNat_inj.1 ?_
  rw [toNat_ofUInt8, Char.toUInt8, UInt32.toNat_toUInt8]
  exact Nat.mod_eq_of_lt (Nat.lt_trans h (by decide))

theorem ofUInt8_eq_iff {a : Char} (ha : a.toNat < 128) {b : UInt8} :
    Char.ofUInt8 b = a ↔ b = a.toUInt8 := by
  refine ⟨fun h => ?_, fun h => by rw [h, ofUInt8_toUInt8 ha]⟩
  rw [← UInt8.toNat_inj, ← toNat_ofUInt8, ← toNat_ofUInt8, h, ofUInt8_toUInt8 ha]

/-- The bytes of other characters are no ASCII. -/
theorem le_of_mem_utf8EncodeChar {c : Char} (h : 128 ≤ c.toNat) {b : UInt8}
    (hb : b ∈ String.utf8EncodeChar c) : 128 ≤ (Char.ofUInt8 b).toNat := by
  rw [toNat_ofUInt8]
  have hval : 128 ≤ c.val.toNat := h
  simp only [String.utf8EncodeChar] at hb
  have hmod (n : Nat) (hn : 128 ≤ n % 256) (hb : b = UInt8.ofNat n) : 128 ≤ b.toNat := by
    rw [hb, UInt8.toNat_ofNat']
    exact hn
  split_ifs at hb <;> simp only [List.mem_cons, List.not_mem_nil, or_false] at hb
  · omega
  · obtain hb | hb := hb <;> exact hmod _ (by omega) hb
  · obtain hb | hb | hb := hb <;> exact hmod _ (by omega) hb
  · obtain hb | hb | hb | hb := hb <;> exact hmod _ (by omega) hb

theorem ne_of_le {a c : Char} (ha : a.toNat < 128) (h : 128 ≤ c.toNat) : c ≠ a := by
  rintro rfl
  exact absurd h (Nat.not_le.2 ha)

theorem isAlphanum_of_le {c : Char} (h : 128 ≤ c.toNat) : c.isAlphanum = false := by
  have hval : 128 ≤ c.val.toNat := h
  have hZ : 'Z'.val.toNat = 90 := rfl
  have hz : 'z'.val.toNat = 122 := rfl
  have h9 : '9'.val.toNat = 57 := rfl
  simp only [Char.isAlphanum, Char.isAlpha, Char.isUpper, Char.isLower, Char.isDigit,
    Bool.or_eq_false_iff, Bool.and_eq_false_iff, decide_eq_false_iff_not, ge_iff_le,
    UInt32.le_iff_toNat_le]
  omega

theorem isDigit_of_le {c : Char} (h : 128 ≤ c.toNat) : c.isDigit = false := by
  have := isAlphanum_of_le h
  rw [Char.isAlphanum, Bool.or_eq_false_iff] at this
  exact this.2

theorem continuesWord_of_le {c : Char} (h : 128 ≤ c.toNat) : continuesWord c = false := by
  rw [continuesWord, isAlphanum_of_le h, Bool.false_or]
  exact beq_false_of_ne (ne_of_le (by decide) h)

/-- All that the scan knows is ASCII. -/
theorem unexpected_of_le {c : Char} (h : 128 ≤ c.toNat) : Unexpected c := by
  have hword := isAlphanum_of_le h
  rw [Char.isAlphanum, Bool.or_eq_false_iff] at hword
  have hne {a : Char} (ha : a.toNat < 128) : c ≠ a := ne_of_le ha h
  refine ⟨?_, ?_, ?_, hne (by decide), hword.2, ?_⟩
  · simp [isBlank, hne (a := ' ') (by decide), hne (a := '\r') (by decide),
      hne (a := '\t') (by decide), hne (a := '\n') (by decide)]
  · unfold punctuation?
    split
    all_goals first | rfl | exact absurd h (by decide)
  · unfold comparison?
    split
    all_goals first | rfl | exact absurd h (by decide)
  · rw [startsWord, hword.1, Bool.false_or]
    exact beq_false_of_ne (hne (by decide))

/-- A test that says the same of all characters beyond ASCII is done byte by byte. -/
theorem test_of_mem_utf8EncodeChar {q : Char → Bool} {v : Bool}
    (hq : ∀ c : Char, 128 ≤ c.toNat → q c = v) (c : Char) {b : UInt8}
    (hb : b ∈ String.utf8EncodeChar c) : q (Char.ofUInt8 b) = q c := by
  by_cases hc : c.toNat < 128
  · rw [encoded_ascii hc, List.mem_singleton] at hb
    rw [hb, ofUInt8_toUInt8 hc]
  · have hc := Nat.le_of_not_lt hc
    rw [hq _ (le_of_mem_utf8EncodeChar hc hb), hq c hc]

theorem exists_utf8EncodeChar (c : Char) : ∃ b bs, String.utf8EncodeChar c = b :: bs := by
  refine List.ne_nil_iff_exists_cons.1 (List.ne_nil_of_length_pos ?_)
  rw [String.length_utf8EncodeChar]
  exact c.utf8Size_pos

theorem takeWhile_encoded {q : Char → Bool} {v : Bool}
    (hq : ∀ c : Char, 128 ≤ c.toNat → q c = v) (cs : List Char) :
    (encoded cs).takeWhile (fun b => q (Char.ofUInt8 b)) = encoded (cs.takeWhile q) := by
  induction cs with
  | nil => rfl
  | cons c cs ih =>
    have hbytes := fun b => @test_of_mem_utf8EncodeChar q v hq c b
    rw [encoded_cons]
    cases hc : q c with
    | true =>
      rw [List.takeWhile_append_of_pos (fun b hb => (hbytes b hb).trans hc), ih,
        List.takeWhile_cons_of_pos hc, encoded_cons]
    | false =>
      rw [List.takeWhile_cons_of_neg (by simp [hc])]
      obtain ⟨b, bs, hbs⟩ := exists_utf8EncodeChar c
      have hb := hbytes b (hbs ▸ List.mem_cons_self)
      rw [hbs, List.cons_append, List.takeWhile_cons_of_neg (by simp [hb, hc])]
      rfl

/-! ## Standing between two characters -/

/-- The scanner stands between two characters of the source: it has looked at `done`, and `cs` is
still before it. -/
structure Stands (source : String) (done cs : List Char) (s : Scanner) : Prop where
  text : s.source = source
  split : source.toList = done ++ cs
  curr : s.curr = byteSize done

section

variable {source : String} {done cs : List Char} {c : Char} {s s' : Scanner}

open Scanning Scanner

namespace Stands

theorem bytes (h : Stands source done cs s) : s.bytes = encoded done ++ encoded cs := by
  rw [Scanner.bytes, h.text, ← @String.ofList_toList source, h.split, String.toByteArray_ofList,
    data_utf8Encode, encoded_append]

theorem length (h : Stands source done cs s) : s.bytes.length = s.curr + byteSize cs := by
  rw [h.bytes, List.length_append, length_encoded, length_encoded, h.curr]

theorem drop (h : Stands source done cs s) : s.bytes.drop s.curr = encoded cs := by
  rw [h.bytes, h.curr, ← length_encoded, List.drop_left]

theorem getElem? (h : Stands source done cs s) (k : Nat) :
    s.bytes[s.curr + k]? = (encoded cs)[k]? := by
  rw [← h.drop, List.getElem?_drop]

/-- After some more characters it stands behind these. -/
theorem moved {a b : List Char} (h : Stands source done (a ++ b) s) (hs : s'.source = s.source)
    (hcurr : s'.curr = s.curr + byteSize a) : Stands source (done ++ a) b s' where
  text := hs.trans h.text
  split := by rw [h.split, List.append_assoc]
  curr := by rw [hcurr, h.curr, byteSize_append]

/-- The first byte of the next character is there. -/
theorem exists_byte (h : Stands source done (c :: cs) s) :
    ∃ b ∈ String.utf8EncodeChar c, s.bytes[s.curr]? = some b := by
  have hget := h.getElem? 0
  rw [encoded_cons, Nat.add_zero] at hget
  obtain ⟨b, bs, hbs⟩ := exists_utf8EncodeChar c
  rw [hbs] at hget ⊢
  exact ⟨b, List.mem_cons_self, hget⟩

end Stands

theorem advance_of_getElem? {b : UInt8} (h : s.bytes[s.curr]? = some b) :
    advance s = some (b, { s with curr := s.curr + 1 }) := by
  rw [advance, h]
  rfl

/-- The next byte is one of an ASCII character where the next character is this one. -/
theorem Stands.byte_eq {a : Char} (ha : a.toNat < 128) (h : Stands source done (c :: cs) s) :
    (s.peek == a.toUInt8) = (c == a) := by
  obtain ⟨b, hb, hget⟩ := h.exists_byte
  have htest := test_of_mem_utf8EncodeChar (q := (· == a)) (v := false)
    (fun d hd => beq_false_of_ne fun heq => absurd ha (Nat.not_lt.2 (heq ▸ hd))) c hb
  rw [← htest, Scanner.peek, hget, Option.getD_some, Bool.eq_iff_iff, beq_iff_eq, beq_iff_eq,
    ofUInt8_eq_iff ha]

theorem Stands.isAtEnd (h : Stands source done cs s) : s.isAtEnd = cs.isEmpty := by
  rw [Scanner.isAtEnd, h.length, Bool.eq_iff_iff, decide_eq_true_iff, List.isEmpty_iff,
    ← byteSize_eq_zero]
  omega

theorem Stands.matchByte {a : Char} (ha : a.toNat < 128) (h : Stands source done cs s) :
    Scanning.matchByte a s =
      if cs.head? = some a then some (true, { s with curr := s.curr + 1 })
      else some (false, s) := by
  have hrun : Scanning.matchByte a s =
      if !s.isAtEnd && s.peek == a.toUInt8 then
        (advance s).map fun r => (true, r.2)
      else some (false, s) := by
    show (if !s.isAtEnd && s.peek == a.toUInt8 then _ else _ : Scanning Bool) s = _
    split
    · show (advance s).bind _ = _
      cases advance s <;> rfl
    · rfl
  rw [hrun, h.isAtEnd]
  cases cs with
  | nil => rfl
  | cons d cs =>
    obtain ⟨b, -, hget⟩ := h.exists_byte
    rw [h.byte_eq ha, advance_of_getElem? hget]
    by_cases hd : d = a
    · simp [hd]
    · simp [hd]

/-! ## Loops -/

theorem advanceWhile_eq (p : UInt8 → Bool) (s : Scanner) : s.advanceWhile p =
    { s with curr := s.curr + ((s.bytes.drop s.curr).takeWhile p).length } := by
  fun_induction Scanner.advanceWhile p s with
  | case1 s hlt hp ih =>
    rw [ih, List.drop_eq_getElem_cons hlt, List.takeWhile_cons_of_pos hp, List.length_cons]
    simp only [Scanner.bytes, Nat.add_assoc, Nat.add_comm 1]
  | case2 s hlt hp =>
    rw [List.drop_eq_getElem_cons hlt, List.takeWhile_cons_of_neg hp]
    rfl
  | case3 s hlt =>
    rw [List.drop_eq_nil_of_le (Nat.le_of_not_lt hlt)]
    rfl

theorem toUInt8_lineFeed : '\n'.toUInt8 = 10 := rfl

theorem advanceToQuote_eq (s : Scanner) : s.advanceToQuote =
    { s with
      curr := s.curr + ((s.bytes.drop s.curr).takeWhile (· != '"'.toUInt8)).length
      line := s.line + ((s.bytes.drop s.curr).takeWhile (· != '"'.toUInt8)).count 10 } := by
  fun_induction Scanner.advanceToQuote s with
  | case1 s hlt b hb =>
    rw [List.drop_eq_getElem_cons hlt, List.takeWhile_cons_of_neg (by simpa [b] using hb)]
    rfl
  | case2 s hlt b hb line ih =>
    rw [ih, List.drop_eq_getElem_cons hlt, List.takeWhile_cons_of_pos (by simpa [b] using hb),
      List.length_cons, List.count_cons]
    have hline : line = s.line + if b == 10 then 1 else 0 := by
      by_cases hlf : (b == 10) = true <;> simp [line, toUInt8_lineFeed, hlf]
    have hb : s.bytes[s.curr] = b := rfl
    rw [hb, hline]
    simp only [Scanner.bytes]
    congr 1 <;> omega
  | case3 s hlt =>
    rw [List.drop_eq_nil_of_le (Nat.le_of_not_lt hlt)]
    rfl

theorem getD_findIdx? (p : UInt8 → Bool) (bs : List UInt8) :
    (bs.findIdx? p).getD bs.length = (bs.takeWhile fun b => !p b).length := by
  induction bs with
  | nil => rfl
  | cons b bs ih =>
    rw [List.findIdx?_cons, List.takeWhile_cons]
    cases p b with
    | true => rfl
    | false =>
      simp only [Bool.not_false, if_true, List.length_cons, ← ih]
      cases bs.findIdx? p <;> rfl

theorem advanceToLineFeed_eq (h : s.curr ≤ s.bytes.length) : s.advanceToLineFeed =
    { s with
      curr := s.curr + ((s.bytes.drop s.curr).takeWhile (· != '\n'.toUInt8)).length } := by
  have hfound := getD_findIdx? (· == '\n'.toUInt8) (s.bytes.drop s.curr)
  rw [List.length_drop] at hfound
  unfold Scanner.advanceToLineFeed
  cases hindex : (s.bytes.drop s.curr).findIdx? (· == '\n'.toUInt8) with
  | some k =>
    rw [hindex] at hfound
    rw [show k = _ from hfound]
    rfl
  | none =>
    rw [hindex] at hfound
    have hend : s.bytes.length = s.curr + (s.bytes.length - s.curr) := by omega
    rw [show s.bytes.length - s.curr = _ from hfound] at hend
    dsimp only
    rw [hend]
    rfl

theorem takeWhile_ne {a : Char} (ha : a.toNat < 128) (cs : List Char) :
    (encoded cs).takeWhile (· != a.toUInt8) = encoded (cs.takeWhile (· != a)) := by
  rw [← @takeWhile_encoded (· != a) true
    (fun d hd => bne_iff_ne.2 fun heq => absurd ha (Nat.not_lt.2 (heq ▸ hd)))]
  congr 1
  funext b
  rw [Bool.eq_iff_iff, bne_iff_ne, bne_iff_ne, not_iff_not, ofUInt8_eq_iff ha]

theorem newlines_singleton (hn : c ≠ '\n') : newlines [c] = 0 := by
  rw [newlines, List.count_singleton, if_neg (by simpa using hn)]

theorem newlines_takeWhile {q : Char → Bool} (hq : q '\n' = false) (cs : List Char) :
    newlines (cs.takeWhile q) = 0 := by
  refine List.count_eq_zero.2 fun hmem => ?_
  rw [List.mem_takeWhile_imp hmem] at hq
  cases hq

/-- From `s` to `s'` the scanner goes over `taken`, in one lexeme. -/
structure Passes (source : String) (done taken cs : List Char) (s s' : Scanner) : Prop where
  stands : Stands source (done ++ taken) cs s'
  start : s'.start = s.start
  line : s'.line = s.line + newlines taken

theorem Passes.trans {a b left : List Char} {s₁ s₂ : Scanner} (h : Passes source done a left s s₁)
    (h' : Passes source (done ++ a) b cs s₁ s₂) : Passes source done (a ++ b) cs s s₂ where
  stands := by
    rw [← List.append_assoc]
    exact h'.stands
  start := h'.start.trans h.start
  line := by rw [h'.line, h.line, newlines_append, Nat.add_assoc]

namespace Stands

theorem advance (hc : c.toNat < 128) (h : Stands source done (c :: cs) s) :
    Scanning.advance s = some (c.toUInt8, { s with curr := s.curr + 1 }) ∧
      Stands source (done ++ [c]) cs { s with curr := s.curr + 1 } := by
  obtain ⟨b, hb, hget⟩ := h.exists_byte
  rw [encoded_ascii hc, List.mem_singleton] at hb
  subst hb
  exact ⟨advance_of_getElem? hget, h.moved (a := [c]) rfl (by rw [byteSize_ascii hc])⟩

theorem passes_advance (hc : c.toNat < 128) (hn : c ≠ '\n') (h : Stands source done (c :: cs) s) :
    Scanning.advance s = some (c.toUInt8, { s with curr := s.curr + 1 }) ∧
      Passes source done [c] cs s { s with curr := s.curr + 1 } := by
  obtain ⟨hadvance, hstands⟩ := h.advance hc
  exact ⟨hadvance, hstands, rfl, by rw [newlines_singleton hn]; rfl⟩

theorem passes_advanceWhile {q : Char → Bool} (hq : ∀ c : Char, 128 ≤ c.toNat → q c = false)
    (hn : q '\n' = false) (h : Stands source done cs s) :
    Passes source done (cs.takeWhile q) (cs.dropWhile q) s
      (s.advanceWhile fun b => q (Char.ofUInt8 b)) := by
  rw [advanceWhile_eq, h.drop, takeWhile_encoded hq, length_encoded]
  rw [← List.takeWhile_append_dropWhile (p := q) (l := cs)] at h
  refine ⟨h.moved rfl rfl, rfl, ?_⟩
  rw [newlines_takeWhile hn]
  rfl

theorem passes_advanceToQuote (h : Stands source done cs s) :
    Passes source done (cs.takeWhile (· != '"')) (cs.dropWhile (· != '"')) s s.advanceToQuote := by
  rw [advanceToQuote_eq, h.drop, takeWhile_ne (by decide), length_encoded, count_encoded]
  rw [← List.takeWhile_append_dropWhile (p := (· != '"')) (l := cs)] at h
  exact ⟨h.moved rfl rfl, rfl, rfl⟩

theorem passes_advanceToLineFeed (h : Stands source done cs s) :
    Passes source done (cs.takeWhile (· != '\n')) (cs.dropWhile (· != '\n')) s
      s.advanceToLineFeed := by
  rw [advanceToLineFeed_eq (by rw [h.length]; exact Nat.le_add_right _ _), h.drop,
    takeWhile_ne (by decide), length_encoded]
  rw [← List.takeWhile_append_dropWhile (p := (· != '\n')) (l := cs)] at h
  refine ⟨h.moved rfl rfl, rfl, ?_⟩
  rw [newlines_takeWhile (by decide)]
  rfl

end Stands

/-- A text between characters can be cut out. -/
theorem cut_eq {a b d : List Char} (hs : s.source.toList = a ++ b ++ d) :
    s.cut (byteSize a) (byteSize a + byteSize b) = some (String.ofList b) := by
  have hstart : String.Pos.Raw.IsValid s.source ⟨byteSize a⟩ :=
    isValid_of_prefix (by rw [hs, List.append_assoc])
  have hstop : String.Pos.Raw.IsValid s.source ⟨byteSize a + byteSize b⟩ := by
    rw [← byteSize_append]
    exact isValid_of_prefix hs
  have htext := slice_eq hs
  rw [slice] at htext
  rw [Scanner.cut, String.Pos.Raw.isValid_eq_true_iff.2 hstart,
    String.Pos.Raw.isValid_eq_true_iff.2 hstop, htext]
  exact dif_pos (String.ofList b).isValidUTF8

theorem bind_of_some {α β : Type} {m : Scanning α} {f : α → Scanning β} {a : α}
    (h : m s = some (a, s')) : (m >>= f) s = f a s' := by
  show (m s).bind (fun r => f r.1 r.2) = _
  rw [h]
  rfl

theorem bind_of_cut {β : Type} {start stop : Nat} {f : String → Scanning β} {text : String}
    (h : s'.cut start stop = some text) : (liftM (s'.cut start stop) >>= f) s = f text s := by
  rw [h]
  rfl

theorem Stands.lexeme {text : List Char} (h : Stands source (done ++ text) cs s)
    (hs : s.start = byteSize done) : Scanning.lexeme s = some (String.ofList text, s) := by
  have hcut := @cut_eq s done text cs (by rw [h.text, h.split])
  rw [Scanning.lexeme, hs, h.curr, byteSize_append, hcut]
  rfl

theorem Passes.lexeme {text : List Char} (h : Passes source (done ++ [c]) text cs s s')
    (hs : s.start = byteSize done) :
    Scanning.lexeme s' = some (String.ofList (c :: text), s') := by
  have htext := h.stands
  rw [List.append_assoc] at htext
  exact htext.lexeme (h.start.trans hs)

/-! ## Items -/

/-- A scanner in `s` finds what `step` does, and goes over what `step` takes. -/
def Finds (source : String) (done : List Char) (step : Step) (m : Scanning Found) (s : Scanner) :
    Prop :=
  ∃ s', m s = some (step.found.map some, s') ∧ Passes source done step.taken step.rest s s'

theorem finds_string (h : Stands source (done ++ ['"']) cs s) (hs : s.start = byteSize done) :
    Finds source (done ++ ['"']) (Scan.string cs) Scanning.string s := by
  obtain ⟨body, hbody⟩ : ∃ body, body = cs.takeWhile (· != '"') := ⟨_, rfl⟩
  obtain ⟨left, hleft⟩ : ∃ left, left = cs.dropWhile (· != '"') := ⟨_, rfl⟩
  obtain ⟨s₁, hs₁⟩ : ∃ s₁, s₁ = s.advanceToQuote := ⟨_, rfl⟩
  have hpass := h.passes_advanceToQuote
  rw [← hbody, ← hleft, ← hs₁] at hpass
  have hrun : Scanning.string s = _ := (bind_of_some rfl).trans (bind_of_some rfl)
  rw [← hs₁, hpass.stands.isAtEnd] at hrun
  cases left with
  | nil =>
    have hstring : Scan.string cs = ⟨body, [], .error .unterminatedString⟩ := by
      simp only [Scan.string, ← hleft, ← hbody]
    rw [Finds, hstring, hrun]
    exact ⟨s₁, rfl, hpass⟩
  | cons q rest =>
    obtain rfl : q = '"' := by
      have := List.head?_dropWhile_not (· != '"') cs
      rw [← hleft] at this
      simpa using this
    have hstring : Scan.string cs =
        ⟨body ++ ['"'], rest, .ok (.string, some (.string (String.ofList body)))⟩ := by
      simp only [Scan.string, ← hleft, ← hbody]
    obtain ⟨hadvance, hlast⟩ := hpass.stands.passes_advance (by decide) (by decide)
    have hstart : s₁.start + 1 = byteSize (done ++ ['"']) := by
      rw [hpass.start, byteSize_append, byteSize_ascii (by decide), ← hs]
    have hstop : s₁.curr + 1 - 1 = byteSize (done ++ ['"']) + byteSize body := by
      rw [Nat.add_sub_cancel, hpass.stands.curr, byteSize_append]
    have hcut := @cut_eq { s₁ with curr := s₁.curr + 1 } (done ++ ['"']) body ('"' :: rest)
      (by rw [hpass.stands.text, hpass.stands.split])
    rw [← hstop, ← hstart] at hcut
    rw [Finds, hstring, hrun]
    exact ⟨_, (bind_of_some hadvance).trans ((bind_of_some rfl).trans (bind_of_cut hcut)),
      hpass.trans hlast⟩

/-- A point with a digit after it starts a fraction. -/
theorem Stands.fraction (h : Stands source done cs s) :
    (s.peek == '.'.toUInt8 && isDigitByte s.peekNext) = !(splitFraction cs).1.isEmpty := by
  have hpeek : s.peek = (encoded cs)[0]?.getD 0 := congrArg (·.getD 0) (h.getElem? 0)
  have hnext : s.peekNext = (encoded cs)[1]?.getD 0 := congrArg (·.getD 0) (h.getElem? 1)
  cases cs with
  | nil =>
    rw [hpeek]
    rfl
  | cons c cs =>
    rw [h.byte_eq (by decide)]
    by_cases hc : c = '.'
    · subst hc
      rw [encoded_cons, encoded_ascii (by decide), List.singleton_append,
        List.getElem?_cons_succ] at hnext
      cases cs with
      | nil =>
        rw [hnext]
        rfl
      | cons d cs =>
        have hdigit : isDigitByte s.peekNext = d.isDigit := by
          obtain ⟨b, bs, hbs⟩ := exists_utf8EncodeChar d
          rw [encoded_cons, hbs] at hnext
          rw [show s.peekNext = b from hnext]
          exact test_of_mem_utf8EncodeChar (fun _ => isDigit_of_le) d (hbs ▸ List.mem_cons_self)
        rw [hdigit, splitFraction]
        cases d.isDigit <;> rfl
    · have hnone : splitFraction (c :: cs) = ([], c :: cs) := by
        unfold splitFraction
        split
        · rename_i heq
          cases heq
          exact absurd rfl hc
        · rfl
      rw [hnone, beq_false_of_ne hc]
      rfl

/-- A fraction is split off with all of its digits, or nothing is. -/
theorem splitFraction_eq (cs : List Char) : splitFraction cs = ([], cs) ∨
    ∃ ds, cs = '.' :: ds ∧ ds.takeWhile Char.isDigit ≠ [] ∧
      splitFraction cs = (ds.takeWhile Char.isDigit, ds.dropWhile Char.isDigit) := by
  unfold splitFraction
  split
  · rename_i d cs
    split
    · rename_i hd
      refine .inr ⟨d :: cs, rfl, ?_, ?_⟩
      · rw [List.takeWhile_cons_of_pos hd]
        exact List.cons_ne_nil _ _
      · rw [List.takeWhile_cons_of_pos hd, List.dropWhile_cons_of_pos hd]
    · exact .inl rfl
  · exact .inl rfl

theorem decimalValue_eq {whole : List Char} (hw : ∀ d ∈ whole, d.isDigit) :
    decimalValue (String.ofList whole) = numberValue whole [] := by
  rw [decimalValue, String.toList_ofList, List.takeWhile_eq_self_iff.2 hw,
    List.dropWhile_eq_nil_iff.2 hw]
  rfl

theorem decimalValue_point {whole : List Char} (hw : ∀ d ∈ whole, d.isDigit) (ds : List Char) :
    decimalValue (String.ofList (whole ++ '.' :: ds)) = numberValue whole ds := by
  have hpoint : ¬ '.'.isDigit = true := by decide
  rw [decimalValue, String.toList_ofList, List.takeWhile_append_of_pos hw,
    List.dropWhile_append_of_pos hw, List.takeWhile_cons_of_neg hpoint,
    List.dropWhile_cons_of_neg hpoint, List.append_nil]
  rfl

theorem finds_number (hc : c.isDigit) (h : Stands source (done ++ [c]) cs s)
    (hs : s.start = byteSize done) :
    Finds source (done ++ [c]) (Scan.number c cs) Scanning.number s := by
  obtain ⟨whole, hwhole⟩ : ∃ whole, whole = cs.takeWhile Char.isDigit := ⟨_, rfl⟩
  obtain ⟨left, hleft⟩ : ∃ left, left = cs.dropWhile Char.isDigit := ⟨_, rfl⟩
  obtain ⟨s₁, hs₁⟩ : ∃ s₁, s₁ = s.advanceWhile isDigitByte := ⟨_, rfl⟩
  have hdigits : ∀ d ∈ c :: whole, d.isDigit := by
    rintro d (_ | ⟨_, hd⟩)
    · exact hc
    · exact List.mem_takeWhile_imp (hwhole ▸ hd)
  have hpass : Passes source _ _ _ s (s.advanceWhile isDigitByte) :=
    h.passes_advanceWhile (fun _ => isDigit_of_le) (by decide)
  rw [← hwhole, ← hleft, ← hs₁] at hpass
  have hrun : Scanning.number s = _ := (bind_of_some rfl).trans (bind_of_some rfl)
  rw [← hs₁, hpass.stands.fraction] at hrun
  obtain hnone | ⟨ds, rfl, hne, hsome⟩ := splitFraction_eq left
  · have hnumber : Scan.number c cs =
        ⟨whole, left, .ok (.number, some (.number (numberValue (c :: whole) [])))⟩ := by
      simp [Scan.number, ← hwhole, ← hleft, hnone]
    rw [hnone] at hrun
    rw [Finds, hnumber, hrun, ← decimalValue_eq hdigits]
    exact ⟨s₁, bind_of_some (hpass.lexeme hs), hpass⟩
  · have hnumber : Scan.number c cs =
        ⟨whole ++ '.' :: ds.takeWhile Char.isDigit, ds.dropWhile Char.isDigit,
          .ok (.number,
            some (.number (numberValue (c :: whole) (ds.takeWhile Char.isDigit))))⟩ := by
      simp [Scan.number, ← hwhole, ← hleft, hsome, hne]
    obtain ⟨hadvance, hpoint⟩ := hpass.stands.passes_advance (by decide) (by decide)
    have hfraction := hpass.trans <| hpoint.trans <|
      hpoint.stands.passes_advanceWhile (fun _ => isDigit_of_le) (by decide)
    rw [hsome, if_pos (by simpa using hne)] at hrun
    rw [Finds, hnumber, hrun, ← decimalValue_point hdigits]
    exact ⟨_, (bind_of_some hadvance).trans <| (bind_of_some rfl).trans <|
      bind_of_some (hfraction.lexeme hs), hfraction⟩

theorem finds_word (h : Stands source (done ++ [c]) cs s) (hs : s.start = byteSize done) :
    Finds source (done ++ [c]) (Scan.word c cs) Scanning.word s := by
  have hpass : Passes source _ _ _ s (s.advanceWhile isWordByte) :=
    h.passes_advanceWhile (fun _ => continuesWord_of_le) (by decide)
  exact ⟨_, (bind_of_some rfl).trans (bind_of_some (hpass.lexeme hs)), hpass⟩

/-- The scanner may be in the middle of the character that its lexeme starts with. -/
theorem finds_unexpected (ht : s.source = source) (hsource : source.toList = done ++ c :: cs)
    (hs : s.start = byteSize done) :
    Finds source (done ++ [c]) ⟨[], cs, .error (.unexpectedCharacter c)⟩ Scanning.unexpected s := by
  have hcut := @cut_eq s done (c :: cs) [] (by rw [ht, hsource, List.append_nil])
  have hlength : s.bytes.length = byteSize done + byteSize (c :: cs) := by
    rw [Scanner.bytes, ht, ← byteSize_append, ← hsource, byteSize_toList]
    rfl
  rw [← hlength, ← hs] at hcut
  refine ⟨{ s with curr := s.start + c.utf8Size }, ?_, ⟨ht, by simpa using hsource, ?_⟩, rfl, rfl⟩
  · refine (bind_of_some rfl).trans ((bind_of_cut hcut).trans ?_)
    rw [String.toList_ofList]
    rfl
  · rw [hs, List.append_nil, byteSize_append, byteSize_cons, byteSize_nil]
    rfl

/-! ## Rounds -/

/-- A round has nothing to show, and goes over `gap`. -/
def Skips (source : String) (done gap cs : List Char) (s : Scanner) : Prop :=
  ∃ s', round s = some (.ok none, s') ∧ Stands source (done ++ gap) cs s' ∧
    s'.line = s.line + newlines gap

theorem ascii_of_isBlank (hc : isBlank c) : c.toNat < 128 := by
  by_contra h
  rw [(unexpected_of_le (Nat.le_of_not_lt h)).blank] at hc
  cases hc

theorem round_eq {b : UInt8} (h : Scanning.advance s = some (b, s')) :
    round s = roundAfter (Char.ofUInt8 b) s' := bind_of_some h

theorem skips_blank (hc : isBlank c) (h : Stands source done (c :: cs) s) :
    Skips source done [c] cs s := by
  have hascii := ascii_of_isBlank hc
  obtain ⟨hadvance, hstands⟩ := h.advance hascii
  rw [Skips, round_eq hadvance, ofUInt8_toUInt8 hascii]
  by_cases hn : c = '\n'
  · subst hn
    exact ⟨{ s with curr := s.curr + 1, line := s.line + 1 }, rfl,
      ⟨hstands.text, hstands.split, hstands.curr⟩, rfl⟩
  · rw [roundAfter, if_neg (by simpa using hn), if_pos hc, newlines_singleton hn]
    exact ⟨_, rfl, hstands, rfl⟩

theorem skips_comment (h : Stands source done ('/' :: '/' :: cs) s) :
    Skips source done ('/' :: '/' :: cs.takeWhile (· != '\n')) (cs.dropWhile (· != '\n')) s := by
  obtain ⟨hadvance, hslash⟩ := h.passes_advance (by decide) (by decide)
  obtain ⟨-, hslashes⟩ := hslash.stands.passes_advance (by decide) (by decide)
  have hcomment := hslash.trans (hslashes.trans hslashes.stands.passes_advanceToLineFeed)
  have hmatch := hslash.stands.matchByte (a := '/') (by decide)
  rw [List.head?_cons, if_pos rfl] at hmatch
  rw [Skips, round_eq hadvance, ofUInt8_toUInt8 (by decide)]
  exact ⟨_, bind_of_some hmatch, hcomment.stands, hcomment.line⟩

theorem ne_of_isBlank (hc : isBlank c = false) : c ≠ '\n' := by
  rintro rfl
  cases hc

theorem roundAfter_unexpected (hc : Unexpected c) : roundAfter c = unexpected := by
  have hn := ne_of_isBlank hc.blank
  have hslash : c ≠ '/' := by
    rintro rfl
    exact absurd hc.punctuation (by decide)
  simp [roundAfter, hn, hc.blank, hslash, hc.punctuation, hc.comparison, hc.quote, hc.digit,
    hc.word]

theorem item_unexpected (hc : Unexpected c) (cs : List Char) :
    item c cs = ⟨[], cs, .error (.unexpectedCharacter c)⟩ := by
  simp [item, hc.punctuation, hc.comparison, hc.quote, hc.digit, hc.word]

/-- What a character starts that is no gap, with the scanner right after it. -/
theorem finds_after (hb : isBlank c = false) (hgap : c = '/' → cs.head? ≠ some '/')
    (h : Stands source (done ++ [c]) cs s) (hs : s.start = byteSize done) :
    Finds source (done ++ [c]) (item c cs) (roundAfter c) s := by
  have hn := ne_of_isBlank hb
  have hstay : Passes source (done ++ [c]) [] cs s s := ⟨by rwa [List.append_nil], rfl, rfl⟩
  unfold roundAfter
  rw [if_neg (by simpa using hn), if_neg (by simp [hb])]
  by_cases hslash : c = '/'
  · subst hslash
    have hmatch := h.matchByte (a := '/') (by decide)
    rw [if_neg (hgap rfl)] at hmatch
    exact ⟨s, bind_of_some hmatch, hstay⟩
  rw [if_neg (by simpa using hslash)]
  unfold item
  cases hpunctuation : punctuation? c with
  | some kind => exact ⟨s, rfl, hstay⟩
  | none =>
    cases hcomparison : comparison? c with
    | some kinds =>
      obtain ⟨alone, withEqual⟩ := kinds
      have hmatch := h.matchByte (a := '=') (by decide)
      dsimp only
      split
      · rw [List.head?_cons, if_pos rfl] at hmatch
        obtain ⟨-, hpass⟩ := h.passes_advance (by decide) (by decide)
        exact ⟨_, bind_of_some hmatch, hpass⟩
      · rename_i hequal
        have hhead : cs.head? ≠ some '=' := fun h => hequal _ (List.eq_cons_of_mem_head? h)
        rw [if_neg hhead] at hmatch
        exact ⟨_, bind_of_some hmatch, hstay⟩
    | none =>
      dsimp only
      split_ifs with hquote hdigit hword
      · obtain rfl : c = '"' := by simpa using hquote
        exact finds_string h hs
      · exact finds_number hdigit h hs
      · exact finds_word h hs
      · exact finds_unexpected h.text (by simpa using h.split) hs

theorem round_item (hb : isBlank c = false) (hgap : c = '/' → cs.head? ≠ some '/')
    (h : Stands source done (c :: cs) s) (hs : s.start = byteSize done) :
    ∃ s', round s = some ((item c cs).found.map some, s') ∧
      Passes source done (c :: (item c cs).taken) (item c cs).rest s s' := by
  have hn := ne_of_isBlank hb
  by_cases hc : c.toNat < 128
  · obtain ⟨hadvance, hfirst⟩ := h.passes_advance hc hn
    obtain ⟨s', hrun, hpass⟩ := finds_after hb hgap hfirst.stands hs
    rw [round_eq hadvance, ofUInt8_toUInt8 hc]
    exact ⟨s', hrun, hfirst.trans hpass⟩
  · have hc := Nat.le_of_not_lt hc
    obtain ⟨b, hmem, hget⟩ := h.exists_byte
    have hbyte := unexpected_of_le (le_of_mem_utf8EncodeChar hc hmem)
    obtain ⟨s', hrun, hpass⟩ :=
      @finds_unexpected source done cs c { s with curr := s.curr + 1 } h.text h.split hs
    rw [round_eq (advance_of_getElem? hget), roundAfter_unexpected hbyte,
      item_unexpected (unexpected_of_le hc)]
    refine ⟨s', hrun, by simpa using hpass.stands, hpass.start, ?_⟩
    rw [newlines_singleton hn]
    exact hpass.line

/-! ## Calls -/

theorem splitGap_true (cs : List Char) : splitGap true cs =
    (cs.takeWhile (· != '\n') ++ (splitGap false (cs.dropWhile (· != '\n'))).1,
      (splitGap false (cs.dropWhile (· != '\n'))).2) := by
  induction cs with
  | nil => rfl
  | cons c cs ih =>
    by_cases hn : c = '\n'
    · subst hn
      rfl
    · have hn : (c != '\n') = true := by simpa using hn
      rw [splitGap, hn, ih, List.takeWhile_cons, if_pos hn, List.dropWhile_cons, if_pos hn]
      rfl

/-- A cursor goes over the start of a gap and the rest of it in one call. -/
theorem Cursor.next_gap {gap : List Char} (offset line : Nat)
    (h : splitGap false (gap ++ cs) = (gap ++ (splitGap false cs).1, (splitGap false cs).2)) :
    Cursor.next ⟨offset, line, some (gap ++ cs)⟩ =
      Cursor.next ⟨offset + byteSize gap, line + newlines gap, some cs⟩ := by
  simp only [Cursor.next, firstPiece, h]
  rcases splitGap false cs with ⟨rest, _ | ⟨c, cs⟩⟩
  · simp only [byteSize_append, newlines_append, Nat.add_assoc, Piece.item]
  · simp only [byteSize_append, newlines_append, Nat.add_assoc, Piece.item]

/-- The scanner is where the cursor is. -/
inductive Follows (source : String) : Scanner → Cursor → Prop where
  | stands {done cs : List Char} {s : Scanner} (h : Stands source done cs s) :
      Follows source s ⟨byteSize done, s.line, some cs⟩
  | ended {s : Scanner} (offset line : Nat) (h : s.bytes.length < s.curr) :
      Follows source s ⟨offset, line, none⟩

/-- So many rounds from `s` on answer one call as the cursor does. -/
def Answers (source : String) (done cs : List Char) (n : Nat) (s : Scanner) : Prop :=
  ∃ s', nextIn n s = some ((Cursor.next ⟨byteSize done, s.line, some cs⟩).1, s') ∧
    Follows source s' (Cursor.next ⟨byteSize done, s.line, some cs⟩).2

/-- A round over some of a gap leaves the rest to the other rounds. -/
theorem Answers.gap {gap : List Char} {n : Nat} (hgap : gap ≠ [])
    (hsplit : splitGap false (gap ++ cs) = (gap ++ (splitGap false cs).1, (splitGap false cs).2))
    (h : Stands source done (gap ++ cs) s)
    (hskips : Skips source done gap cs { s with start := s.curr })
    (rest : ∀ s', Stands source (done ++ gap) cs s' → Answers source (done ++ gap) cs n s') :
    Answers source done (gap ++ cs) (n + 1) s := by
  obtain ⟨s₁, hround, hstands, hline⟩ := hskips
  obtain ⟨s', hrest, hfollows⟩ := rest s₁ hstands
  have hpos : byteSize gap ≠ 0 := mt byteSize_eq_zero.1 hgap
  have hlength := h.length
  rw [byteSize_append] at hlength
  have hrun : nextIn (n + 1) s = _ := bind_of_some rfl
  rw [if_neg (by omega), if_neg (by omega)] at hrun
  rw [Answers, Cursor.next_gap _ _ hsplit, hrun, ← byteSize_append]
  rw [show s₁.line = s.line + newlines gap from hline] at hrest hfollows
  exact ⟨s', (bind_of_some rfl).trans ((bind_of_some hround).trans hrest), hfollows⟩

theorem Answers.item (n : Nat) (hb : isBlank c = false) (hgap : c = '/' → cs.head? ≠ some '/')
    (h : Stands source done (c :: cs) s) : Answers source done (c :: cs) (n + 1) s := by
  have hsplit : splitGap false (c :: cs) = ([], c :: cs) := by
    have hcomment : ¬ ((c == '/' && cs.head? == some '/') = true) := by
      simpa using hgap
    rw [splitGap, if_neg (by simp [hb]), if_neg hcomment]
  have hstart : Stands source done (c :: cs) { s with start := s.curr } :=
    ⟨h.text, h.split, h.curr⟩
  obtain ⟨s', hround, hpass⟩ := round_item hb hgap hstart h.curr
  have hlexeme := hpass.stands.lexeme (hpass.start.trans h.curr)
  obtain ⟨step, hstep⟩ : ∃ step, step = Scan.item c cs := ⟨_, rfl⟩
  rw [← hstep] at hround hpass hlexeme
  have hnext : Cursor.next ⟨byteSize done, s.line, some (c :: cs)⟩ =
      (some ⟨s'.start, s'.curr, Piece.item ⟨[], c :: step.taken, s'.line, step.found⟩⟩,
        ⟨byteSize (done ++ c :: step.taken), s'.line, some step.rest⟩) := by
    simp only [Cursor.next, firstPiece, hsplit, ← hstep]
    rw [hpass.start, hpass.line, hpass.stands.curr, byteSize_append, h.curr]
    rfl
  have hlength := h.length
  have hsize := c.utf8Size_pos
  rw [byteSize_cons] at hlength
  have hrun : nextIn (n + 1) s = _ := bind_of_some rfl
  rw [if_neg (by omega), if_neg (by omega)] at hrun
  have hrun := hrun.trans ((bind_of_some rfl).trans (bind_of_some hround))
  rw [Answers, hnext, hrun]
  refine ⟨s', ?_, .stands hpass.stands⟩
  cases step.found with
  | error problem => rfl
  | ok found => exact bind_of_some hlexeme

theorem Answers.finish (n : Nat) (h : Stands source done [] s) :
    Answers source done [] (n + 1) s := by
  have hlength : s.bytes.length = s.curr := h.length
  refine ⟨{ s with curr := s.curr + 1 }, (bind_of_some rfl).trans ?_, .ended _ _ ?_⟩
  · rw [if_neg (by omega), if_pos hlength, h.curr]
    rfl
  · show s.bytes.length < s.curr + 1
    omega

/-- Every round goes over a byte, so there are enough of them. -/
theorem answers_of_lt {n : Nat} (hn : byteSize cs < n) (h : Stands source done cs s) :
    Answers source done cs n s := by
  induction n generalizing done cs s with
  | zero => exact absurd hn (Nat.not_lt_zero _)
  | succ n ih =>
    have hstart : Stands source done cs { s with start := s.curr } := ⟨h.text, h.split, h.curr⟩
    cases cs with
    | nil => exact .finish n h
    | cons c cs =>
      rw [byteSize_cons] at hn
      have hsize := c.utf8Size_pos
      cases hb : isBlank c with
      | true =>
        refine .gap (List.cons_ne_nil c []) ?_ h (skips_blank hb hstart)
          fun s' hs' => ih (by omega) hs'
        rw [List.singleton_append, splitGap, if_pos hb]
        rfl
      | false =>
        by_cases hcomment : c = '/' ∧ cs.head? = some '/'
        · obtain ⟨rfl, hhead⟩ := hcomment
          obtain ⟨cs, rfl⟩ : ∃ rest, cs = '/' :: rest := ⟨_, List.eq_cons_of_mem_head? hhead⟩
          have hcs : '/' :: '/' :: cs = ('/' :: '/' :: cs.takeWhile (· != '\n')) ++
              cs.dropWhile (· != '\n') := by
            rw [List.cons_append, List.cons_append, List.takeWhile_append_dropWhile]
          have hskips := skips_comment hstart
          rw [hcs] at h ⊢
          refine .gap (List.cons_ne_nil _ _) ?_ h hskips fun s' hs' => ih ?_ hs'
          · rw [← hcs, List.cons_append, List.cons_append]
            simp [splitGap, isBlank, splitGap_true]
          · have hsizes := congrArg byteSize hcs
            simp only [byteSize_append, byteSize_cons] at hsizes hn
            omega
        · exact .item n hb (fun hc hhead => hcomment ⟨hc, hhead⟩) h

theorem next_eq {c : Cursor} (h : Follows source s c) :
    ∃ s', next s = some (c.next.1, s') ∧ Follows source s' c.next.2 := by
  cases h with
  | stands h => exact answers_of_lt (by rw [h.length]; omega) h
  | ended offset line h =>
    have hrun : next s = nextIn (0 + 1) s := by
      rw [next, show s.bytes.length + 1 - s.curr = 0 by omega]
    refine ⟨s, hrun.trans ((bind_of_some rfl).trans ?_), .ended offset line h⟩
    rw [if_pos h]
    rfl

theorem answer_of_follows {c : Cursor} (h : Follows source s c) (n : Nat) :
    s.answer n = some (c.answer n) := by
  induction n generalizing s c with
  | zero =>
    obtain ⟨s', hnext, -⟩ := next_eq h
    rw [Scanner.answer, hnext]
    rfl
  | succ n ih =>
    obtain ⟨s', hnext, hfollows⟩ := next_eq h
    rw [Scanner.answer, hnext]
    exact ih hfollows

end

/-- Scanning byte by byte never runs into the end or into a character, and answers what the cursor
does, call by call. -/
theorem Scanner.answer_eq (source : String) (n : Nat) :
    (Scanner.new source).answer n = some ((Cursor.start source).answer n) :=
  answer_of_follows (@Follows.stands source [] source.toList _ ⟨rfl, rfl, rfl⟩) n

end Scan
end Lox
