import SyntaxTree.Proofs.Json.Record

/-! # Written texts

What the writer makes of strings, numbers, lists and records is in the grammar. It writes no
blanks, and an escape undoes what the grammar reads it as. -/

namespace SyntaxTree

namespace Json

open Grammar

/-! ## Strings -/

/-- Every control character is written as a code that the grammar reads back. -/
theorem codeText_control {n : Nat} (h : n < 0x20) :
    CodeText ['0', '0', Nat.digitChar (n / 16), Nat.digitChar (n % 16)] n := by
  have hzero : HexDigit (Nat.digitChar 0) 0 := .lower (by decide)
  have hcode := CodeText.digits hzero hzero (.lower (n := n / 16) (by omega))
    (.lower (n := n % 16) (by omega))
  have hvalue : 0 * 0x1000 + 0 * 0x100 + n / 16 * 0x10 + n % 16 = n := by omega
  rwa [hvalue] at hcode

theorem letters_escapeChar (c : Char) {text value : List Char} (h : Letters text value) :
    Letters (escapeChar c ++ text) (c :: value) := by
  unfold escapeChar
  split
  · exact .short .quote h
  · exact .short .backslash h
  · exact .short .backspace h
  · exact .short .tab h
  · exact .short .lineFeed h
  · exact .short .formFeed h
  · exact .short .carriageReturn h
  · rename_i hquote hbackslash _ _ _ _ _
    split
    · rename_i hcontrol
      exact .code (codeText_control hcontrol) h
    · exact .plain hquote hbackslash (by omega) h

/-- The escaped characters of a text decode to the text. -/
theorem letters_escape (value : List Char) : Letters (value.flatMap escapeChar) value := by
  induction value with
  | nil => exact .nil
  | cons c value ih => exact letters_escapeChar c ih

theorem quote_text (value : String) : StringText (quote value).toList value := by
  refine ⟨value.toList.flatMap escapeChar, ?_, letters_escape value.toList⟩
  rw [quote, String.toList_ofList]

/-- A name that needs no escapes. -/
def Plain (name : String) : Prop := ∀ c ∈ name.toList, c ≠ '"' ∧ c ≠ '\\' ∧ 0x20 ≤ c.toNat

instance (name : String) : Decidable (Plain name) := List.decidableBAll _ _

/-- Characters that need no escape decode to themselves. -/
theorem letters_plain {value : List Char}
    (h : ∀ c ∈ value, c ≠ '"' ∧ c ≠ '\\' ∧ 0x20 ≤ c.toNat) : Letters value value := by
  induction value with
  | nil => exact .nil
  | cons c value ih =>
      obtain ⟨⟨hquote, hbackslash, hc⟩, h⟩ := List.forall_mem_cons.1 h
      exact .plain hquote hbackslash hc (ih h)

/-- A plain name between quotes is the text of a string. -/
theorem plain_text {name : String} (h : Plain name) :
    StringText ('"' :: (name.toList ++ ['"'])) name := ⟨name.toList, rfl, letters_plain h⟩

/-! ## Integers -/

theorem digits_toDigits (n : Nat) : Digits (Nat.toDigits 10 n) := by
  refine ⟨Nat.toDigits_ne_nil, fun c hc => ?_⟩
  exact Nat.isDigit_of_mem_toDigits (by decide) (by decide) hc

/-- Only zero is written with a zero in front. -/
theorem head?_toDigits_ne {n : Nat} (hn : n ≠ 0) : (Nat.toDigits 10 n).head? ≠ some '0' := by
  induction n using Nat.strongRecOn with
  | ind n ih =>
      rw [Nat.toDigits_eq_if (by decide)]
      split
      · simpa using hn
      · rw [List.head?_append_of_ne_nil _ Nat.toDigits_ne_nil]
        exact ih (n / 10) (by omega) (by omega)

theorem toDigits_text (n : Nat) : WholeText (Nat.toDigits 10 n) := by
  refine ⟨digits_toDigits n, fun h => ?_⟩
  rcases eq_or_ne n 0 with rfl | hn
  · rfl
  · exact absurd h (head?_toDigits_ne hn)

/-- The decimal form of a number below the limit is the text of it. -/
theorem repr_text {n : Nat} (hn : n < Nat.pow 2 64) : NaturalText n.repr.toList n := by
  rw [Nat.toList_repr]
  exact ⟨toDigits_text n, Nat.ofDigitChars_ten_toDigits, hn⟩

/-! ## Brackets -/

theorem spaced_flatten (pieces : List (List Char)) : Spaced pieces pieces.flatten := by
  induction pieces with
  | nil => exact .nil
  | cons piece pieces ih => exact .cons blank_nil ih

/-- The items of a bracket are written with a comma between any two. -/
theorem flatten_separated (items : List (List (List Char))) :
    (separated items).flatten = [','].intercalate (items.map List.flatten) := by
  cases items with
  | nil => rfl
  | cons first rest =>
      simp only [separated, List.flatten_append, List.map_cons]
      induction rest generalizing first with
      | nil => simp
      | cons second rest ih =>
          rw [List.map_cons, List.intercalate_cons_cons, ← ih second]
          simp

theorem array_text (values : List String) :
    ArrayText (values.map String.toList) (array values).toList := by
  refine ⟨([','].intercalate (values.map String.toList)) ++ [']'], ?_, ?_⟩
  · simp [array]
  · have h := spaced_flatten
      (separated ((values.map String.toList).map fun item => [item]) ++ [[']']])
    rw [List.flatten_append, flatten_separated] at h
    simpa [List.map_map, Function.comp_def] using h

/-- The entry of a field that is written. -/
def writtenEntry (field : String × String) : Entry :=
  ⟨⟨'"' :: (field.1.toList ++ ['"']), field.2.toList⟩, field.1⟩

theorem object_text (fields : List (String × String)) :
    ObjectText (fields.map fun field => (writtenEntry field).toMember) (object fields).toList := by
  refine ⟨([','].intercalate (fields.map fun field =>
    (writtenEntry field).pieces.flatten)) ++ ['\x7d'], ?_, ?_⟩
  · simp [object, Function.comp_def, writtenEntry, Member.pieces]
  · have h := spaced_flatten (separated ((fields.map fun field =>
      (writtenEntry field).toMember).map Member.pieces) ++ [['\x7d']])
    rw [List.flatten_append, flatten_separated] at h
    simpa [List.map_map, Function.comp_def] using h

/-! ## Records and variants -/

/-- A written object has every field, once, and no other. -/
theorem covers_written {fields : List (String × String)} (hplain : ∀ f ∈ fields, Plain f.1)
    (hnames : (fields.map Prod.fst).Nodup) :
    Covers (fields.map writtenEntry) (fields.map fun field => (field.1, field.2.toList)) := by
  induction fields with
  | nil => exact covers_nil_iff.2 ⟨fun e he => absurd he List.not_mem_nil, by simp⟩
  | cons field rest ih =>
      obtain ⟨name, value⟩ := field
      obtain ⟨hfirst, hplain⟩ := List.forall_mem_cons.1 hplain
      rw [List.map_cons, List.nodup_cons] at hnames
      obtain ⟨hname, hnames⟩ := hnames
      have hother : ∀ e ∈ rest.map writtenEntry, e.name ≠ name := by
        rintro _ he rfl
        obtain ⟨f, hf, rfl⟩ := List.mem_map.1 he
        exact hname (List.mem_map.2 ⟨f, hf, rfl⟩)
      have hnone : (rest.map writtenEntry).filter (·.name == name) = [] :=
        List.filter_eq_nil_iff.2 fun e he => by simpa using hother e he
      have hall : (rest.map writtenEntry).filter (·.name != name) = rest.map writtenEntry :=
        List.filter_eq_self.2 fun e he => by simpa using hother e he
      have hrest := ih hplain hnames
      rw [List.map_cons, List.map_cons, covers_cons_iff (by simpa using hname)]
      refine ⟨List.forall_mem_cons.2 ⟨plain_text hfirst, hrest.spelled⟩, ?_, ?_⟩
      · simp [writtenEntry, hnone]
      · simpa [writtenEntry, hall] using hrest

/-- The fields are written as an object, in their order. -/
theorem object_record (names : List String) (hplain : ∀ name ∈ names, Plain name)
    (hnames : names.Nodup) (values : List String) (hlength : names.length = values.length) :
    RecordText (names.zip (values.map String.toList)) (object (names.zip values)).toList := by
  have hfst : (names.zip values).map Prod.fst = names := List.map_fst_zip (Nat.le_of_eq hlength)
  have hcovers : Covers ((names.zip values).map writtenEntry)
      (names.zip (values.map String.toList)) := by
    rw [List.zip_map_right]
    refine covers_written (fun f hf => hplain _ ?_) (by rwa [hfst])
    exact hfst ▸ List.mem_map_of_mem hf
  refine .object ?_ hcovers
  rw [List.map_map]
  exact object_text _

/-- A payload that is written between blanks is tagged as it is without them. -/
theorem single_text {name value : String} (hname : Plain name) {before p after : List Char}
    (hvalue : value.toList = before ++ p ++ after) (hb : Blank before) (ha : Blank after) :
    TaggedText name p (single name value).toList := by
  refine ⟨'"' :: (name.toList ++ ['"']), plain_text hname, _, ?_,
    .cons blank_nil (.cons blank_nil (.cons hb (.cons ha .nil)))⟩
  simp [single, hvalue]

theorem single_solid {name : String} (hname : Plain name) (value : String) :
    TaggedText name value.toList (single name value).toList :=
  single_text hname (by simp : value.toList = [] ++ value.toList ++ []) blank_nil blank_nil

end Json

end SyntaxTree
