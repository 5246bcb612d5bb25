import Mathlib
import Lox.Token.Cursor

/-!
# Lox.Proofs.Token.Bytes

Between the characters of a source and its bytes: a list of characters inside the source is a range of
bytes that starts and stops between characters, and line feeds can be counted in either.
-/

namespace Lox
namespace Scan

/-- The bytes of the source from `start` up to but without `stop`. -/
def slice (source : String) (start stop : Nat) : ByteArray := source.toByteArray.extract start stop

/-- How many of the first `stop` bytes of the source are line feeds. -/
def lineFeeds (source : String) (stop : Nat) : Nat := (slice source 0 stop).data.count 10

@[simp] theorem byteSize_nil : byteSize [] = 0 := rfl

@[simp] theorem byteSize_cons (c : Char) (cs : List Char) :
    byteSize (c :: cs) = c.utf8Size + byteSize cs := rfl

@[simp] theorem byteSize_append (a b : List Char) :
    byteSize (a ++ b) = byteSize a + byteSize b := by
  induction a with
  | nil => simp
  | cons c a ih => simp [ih, Nat.add_assoc]

theorem byteSize_eq_zero {cs : List Char} : byteSize cs = 0 ↔ cs = [] := by
  cases cs with
  | nil => simp
  | cons c cs =>
    have := c.utf8Size_pos
    simp only [byteSize_cons, reduceCtorEq, iff_false]
    omega

theorem utf8ByteSize_ofList (cs : List Char) : (String.ofList cs).utf8ByteSize = byteSize cs := by
  rw [String.utf8ByteSize_ofList]
  induction cs with
  | nil => rfl
  | cons c cs ih => rw [String.utf8Len_cons, ih, byteSize_cons, Nat.add_comm]

theorem size_utf8Encode (cs : List Char) : cs.utf8Encode.size = byteSize cs := by
  rw [← utf8ByteSize_ofList, ← String.size_toByteArray, String.toByteArray_ofList]

/-! ## Ranges -/

/-- The bytes of characters that stand in the source after `a`. -/
theorem slice_eq {source : String} {a b d : List Char} (h : source.toList = a ++ b ++ d) :
    slice source (byteSize a) (byteSize a + byteSize b) = (String.ofList b).toByteArray := by
  have hs : source.toByteArray = (a.utf8Encode ++ b.utf8Encode) ++ d.utf8Encode := by
    rw [← @String.ofList_toList source, h, String.toByteArray_ofList,
      List.utf8Encode_append, List.utf8Encode_append]
  rw [slice, hs, ByteArray.append_assoc, ByteArray.extract_append]
  have ha : (a.utf8Encode).extract (byteSize a) (byteSize a + byteSize b) = ByteArray.empty := by
    rw [← size_utf8Encode a]
    exact ByteArray.extract_eq_empty_iff.2 (by omega)
  rw [ha, ByteArray.empty_append, size_utf8Encode, Nat.sub_self, Nat.add_sub_cancel_left,
    ByteArray.extract_append_eq_left (size_utf8Encode b).symm, String.toByteArray_ofList]

theorem slice_prefix {source : String} {a d : List Char} (h : source.toList = a ++ d) :
    slice source 0 (byteSize a) = (String.ofList a).toByteArray := by
  have := @slice_eq source [] a d (by simpa using h)
  simpa using this

/-- The byte after characters the source starts with lies between two characters. -/
theorem isValid_of_prefix {source : String} {a d : List Char} (h : source.toList = a ++ d) :
    String.Pos.Raw.IsValid source ⟨byteSize a⟩ := by
  refine String.Pos.Raw.isValid_iff_exists_append.2 ⟨String.ofList a, String.ofList d, ?_, ?_⟩
  · rw [← String.ofList_append, ← h, String.ofList_toList]
  · rw [String.rawEndPos, utf8ByteSize_ofList]

theorem byteSize_toList (source : String) : byteSize source.toList = source.utf8ByteSize := by
  rw [← utf8ByteSize_ofList, String.ofList_toList]

/-! ## Line feeds -/

/-- Only the line feed has its byte in its encoding. -/
theorem count_utf8EncodeChar (c : Char) :
    (String.utf8EncodeChar c).count 10 = if c = '\n' then 1 else 0 := by
  have hc : c = '\n' ↔ c.val.toNat = 10 := by
    constructor
    · rintro rfl
      rfl
    · intro h
      exact Char.ext (UInt32.toNat_inj.1 h)
  have hb (n : Nat) : UInt8.ofNat n = 10 ↔ n % 256 = 10 := by
    rw [← UInt8.toNat_inj]
    simp
  unfold String.utf8EncodeChar
  simp only [hc]
  split_ifs <;>
    simp only [List.count_cons, List.count_nil, beq_iff_eq, hb] <;>
    split_ifs <;>
    omega

theorem count_utf8Encode (cs : List Char) : cs.utf8Encode.data.count 10 = newlines cs := by
  rw [List.utf8Encode, List.data_toByteArray, List.count_toArray, List.count_flatMap]
  induction cs with
  | nil => rfl
  | cons c cs ih =>
    rw [List.map_cons, List.sum_cons, ih, Function.comp_apply, count_utf8EncodeChar, newlines,
      newlines, List.count_cons, Nat.add_comm]
    simp only [beq_iff_eq]

theorem lineFeeds_prefix {source : String} {a d : List Char} (h : source.toList = a ++ d) :
    lineFeeds source (byteSize a) = newlines a := by
  rw [lineFeeds, slice_prefix h, String.toByteArray_ofList, count_utf8Encode]

end Scan
end Lox
