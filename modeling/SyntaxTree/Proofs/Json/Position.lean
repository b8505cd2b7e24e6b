import Mathlib.Data.List.DropRight
import SyntaxTree.Json.Fault
import SyntaxTree.Proofs.Text.Utf8

/-! # Lines and columns

The position of an offset counts the newlines before it and the bytes since the last of them. It is
a function of the bytes before the offset, wherever the offset falls. -/

namespace SyntaxTree

namespace Json

open Text (encode newline)

/-- The offset just after the last newline, or the start of the text. -/
def lineStart (bytes : List UInt8) : Nat := (bytes.rdropWhile (· != newline)).length

namespace Position

/-- Moves over one byte. -/
def step (here : Position) (byte : UInt8) : Position :=
  if byte = newline then ⟨here.line + 1, 0⟩ else ⟨here.line, here.column + 1⟩

/-- Within a line only the column changes. -/
theorem foldl_step_of_notMem {bytes : List UInt8} (h : newline ∉ bytes) (here : Position) :
    bytes.foldl step here = ⟨here.line, here.column + bytes.length⟩ := by
  induction bytes generalizing here with
  | nil => rfl
  | cons b bytes ih =>
      obtain ⟨hb, hbytes⟩ := not_or.1 (mt List.mem_cons.2 h)
      rw [List.foldl_cons, step, if_neg (Ne.symm hb), ih hbytes, List.length_cons]
      simp only [Nat.add_assoc, Nat.add_comm 1]

/-- Moving over characters is moving over their bytes. -/
theorem advance_eq_foldl (offset start : Nat) (here : Position) (text : List Char) :
    advance offset start here text = ((encode text).take (offset - start)).foldl step here := by
  induction text generalizing start here with
  | nil => simp [advance]
  | cons c text ih =>
      rw [advance]
      split
      · rename_i hle
        rw [Nat.sub_eq_zero_of_le hle]
        rfl
      · rename_i hlt
        obtain ⟨n, hn⟩ : ∃ n, offset - start = n + 1 := Nat.exists_eq_add_one.2 (by omega)
        split
        · rename_i hc
          subst hc
          have hrest : offset - (start + 1) = n := by omega
          rw [ih, hn, hrest]
          rfl
        · rename_i hc
          have hsize : (String.utf8EncodeChar c).length = c.utf8Size :=
            String.length_utf8EncodeChar c
          have hcolumn := foldl_step_of_notMem
            (mt List.mem_of_mem_take (Text.newline_notMem hc) :
              newline ∉ (String.utf8EncodeChar c).take (offset - start)) here
          rw [ih, Text.encode_cons, List.take_append, List.foldl_append, hcolumn, List.length_take,
            hsize, ← Nat.sub_sub]
          congr 2
          omega

/-- The position of an offset is what the bytes before it lead to. -/
theorem ofOffset_eq (source : String) (k : Nat) :
    ofOffset source k = (source.toUTF8.toList.take k).foldl step ⟨1, 0⟩ := by
  rw [ofOffset, advance_eq_foldl, Text.toList_toUTF8, Nat.sub_zero]

theorem foldl_step_line (bytes : List UInt8) (here : Position) :
    (bytes.foldl step here).line = here.line + bytes.count newline := by
  induction bytes generalizing here with
  | nil => rfl
  | cons b bytes ih =>
      rw [List.foldl_cons, ih, List.count_cons, step]
      split <;> simp_all
      omega

theorem foldl_step_column (bytes : List UInt8) :
    (bytes.foldl step ⟨1, 0⟩).column = bytes.length - lineStart bytes := by
  induction bytes using List.reverseRecOn with
  | nil => rfl
  | append_singleton bytes b ih =>
      rw [List.foldl_append, List.foldl_cons, List.foldl_nil, step]
      by_cases hb : b = newline
      · simp [hb, lineStart]
      · have hle : lineStart bytes ≤ bytes.length :=
          (List.rdropWhile_prefix (· != newline) bytes).length_le
        have hstart : lineStart (bytes ++ [b]) = lineStart bytes := by
          simp [lineStart, hb]
        rw [if_neg hb, ih, hstart, List.length_append, List.length_singleton]
        dsimp only
        omega

/-- The position of the byte `k`: the line counts the newlines before it, and the column the bytes
since the last of them. -/
structure Denotes (p : Position) (source : String) (k : Nat) : Prop where
  le : k ≤ source.utf8ByteSize
  line_eq : p.line = 1 + (source.toUTF8.toList.take k).count newline
  column_eq : p.column = k - lineStart (source.toUTF8.toList.take k)

theorem ofOffset_denotes {source : String} {k : Nat} (hk : k ≤ source.utf8ByteSize) :
    (ofOffset source k).Denotes source k := by
  have hlength : (source.toUTF8.toList.take k).length = k := by
    rw [List.length_take, Text.length_toUTF8, Nat.min_eq_left hk]
  rw [ofOffset_eq]
  refine ⟨hk, foldl_step_line _ _, ?_⟩
  rw [foldl_step_column, hlength]

/-- A text of one line has its end on that line. -/
theorem ofOffset_end {source : String} (h : '\n' ∉ source.toList) :
    ofOffset source source.utf8ByteSize = ⟨1, source.utf8ByteSize⟩ := by
  have hbytes : newline ∉ source.toUTF8.toList := by
    rw [Text.toList_toUTF8]
    intro hmem
    obtain ⟨c, hc, hb⟩ := List.mem_flatMap.1 hmem
    exact Text.newline_notMem (fun heq => h (heq ▸ hc)) hb
  rw [ofOffset_eq, ← Text.length_toUTF8, List.take_length, foldl_step_of_notMem hbytes,
    Nat.zero_add]

end Position

end Json

end SyntaxTree
