import Mathlib.Data.List.Basic
import SyntaxTree.Text.Cursor

/-! # The bytes of a text

A text as the list of the bytes that encode its characters. -/

namespace SyntaxTree

namespace Text

/-- The bytes of the characters, one after another. -/
def encode (text : List Char) : List UInt8 := text.flatMap String.utf8EncodeChar

@[simp] theorem encode_nil : encode [] = [] := rfl

@[simp] theorem encode_cons (c : Char) (text : List Char) :
    encode (c :: text) = String.utf8EncodeChar c ++ encode text := rfl

/-- The loop turns the bytes from `i` on, behind those it has seen, by induction on their number. -/
theorem toList_loop (bytes : ByteArray) (i : Nat) (seen : List UInt8) :
    ByteArray.toList.loop bytes i seen = seen.reverse ++ bytes.data.toList.drop i := by
  fun_induction ByteArray.toList.loop bytes i seen with
  | case1 i seen hi ih =>
      have hi' : i < bytes.data.toList.length := by simpa using hi
      have hget : bytes.get! i = bytes.data.toList[i] := by simp [ByteArray.get!, hi]
      rw [ih, List.reverse_cons, List.append_assoc, List.singleton_append, hget,
        ← List.drop_eq_getElem_cons hi']
  | case2 i seen hi =>
      have hi' : bytes.data.toList.length ≤ i := by simpa using hi
      rw [List.drop_of_length_le hi', List.append_nil]

theorem toList_eq (bytes : ByteArray) : bytes.toList = bytes.data.toList := by
  rw [ByteArray.toList, toList_loop]
  simp

/-- The bytes of a string are the encodings of its characters in a row. -/
theorem toList_toUTF8 (s : String) : s.toUTF8.toList = encode s.toList := by
  rw [toList_eq, String.toUTF8, ← String.utf8Encode_toList, List.utf8Encode,
    List.toList_data_toByteArray, encode]

theorem length_encode (text : List Char) : (encode text).length = byteLength text := by
  induction text with
  | nil => rfl
  | cons c text ih => simp [ih]

theorem length_toUTF8 (s : String) : s.toUTF8.toList.length = s.utf8ByteSize := by
  rw [toList_eq, Array.length_toList]
  rfl

theorem byteLength_toList (s : String) : byteLength s.toList = s.utf8ByteSize := by
  rw [← length_encode, ← toList_toUTF8, length_toUTF8]

/-! ## Single characters -/

/-- The number of bytes of a character that begins with this byte. -/
def leadSize (lead : UInt8) : Nat :=
  if lead.toNat < 0x80 then 1
  else if lead.toNat < 0xe0 then 2
  else if lead.toNat < 0xf0 then 3
  else 4

/-- A character of one byte is that byte, and no byte of another character is below `0x80`. -/
theorem utf8EncodeChar_lead (c : Char) : ∃ lead rest, String.utf8EncodeChar c = lead :: rest ∧
    c.utf8Size = leadSize lead ∧
    (c.toNat < 0x80 ∧ lead.toNat = c.toNat ∨ 0x80 ≤ c.toNat ∧ 0x80 ≤ lead.toNat) ∧
      ∀ b ∈ rest, 0x80 ≤ b.toNat := by
  rw [← String.length_utf8EncodeChar]
  unfold String.utf8EncodeChar leadSize
  dsimp only [Char.toNat_val]
  split
  · refine ⟨_, _, rfl, ?_, .inl ⟨by omega, ?_⟩, by simp⟩
    · rw [if_pos (by simp; omega)]; rfl
    · simp; omega
  · split
    · refine ⟨_, _, rfl, ?_, .inr ⟨by omega, by simp; omega⟩, by simp; omega⟩
      rw [if_neg (by simp; omega), if_pos (by simp; omega)]; rfl
    · split
      · refine ⟨_, _, rfl, ?_, .inr ⟨by omega, by simp; omega⟩, by simp; omega⟩
        rw [if_neg (by simp; omega), if_neg (by simp; omega), if_pos (by simp; omega)]; rfl
      · refine ⟨_, _, rfl, ?_, .inr ⟨by omega, by simp; omega⟩, by simp; omega⟩
        rw [if_neg (by simp; omega), if_neg (by simp; omega), if_neg (by simp; omega)]; rfl

/-- Different characters have different encodings. -/
theorem utf8EncodeChar_injective {c d : Char}
    (h : String.utf8EncodeChar c = String.utf8EncodeChar d) : c = d := by
  have hc := ByteArray.utf8DecodeChar?_utf8EncodeChar_append (b := .empty) (c := c)
  rw [h, ByteArray.utf8DecodeChar?_utf8EncodeChar_append] at hc
  exact (Option.some.inj hc).symm

/-- The byte that ends a line. -/
def newline : UInt8 := 10

/-- The byte of a newline is no part of another character. -/
theorem newline_notMem {c : Char} (hc : c ≠ '\n') : newline ∉ String.utf8EncodeChar c := by
  obtain ⟨lead, rest, heq, -, hlead, hrest⟩ := utf8EncodeChar_lead c
  have hnewline : newline.toNat = 10 := rfl
  rw [heq, List.mem_cons, not_or]
  constructor
  · rintro rfl
    have hne : c.toNat ≠ '\n'.toNat := fun h => hc (Char.toNat_inj.1 h)
    have : '\n'.toNat = 10 := rfl
    omega
  · intro h
    have := hrest _ h
    omega

end Text

end SyntaxTree
