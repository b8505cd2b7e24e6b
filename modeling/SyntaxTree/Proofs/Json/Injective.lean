import SyntaxTree.Proofs.Json.Skip
import SyntaxTree.Proofs.Json.Writer
import SyntaxTree.Proofs.Text.Separated

/-! # Written values are determined by their text

The reader that passes over a value stops at the end of its text, whatever comes next, and so no
text of a value begins another one. A written array therefore has one list of values and a written
object one list of fields. -/

namespace SyntaxTree

namespace Json

open Text (Cursor byteLength EndsItself Follows)
open Reader Grammar

/-! ## Where a value ends -/

/-- A sign that may follow a value inside a bracket. -/
def EndsValue (x : Char) : Prop := x = ',' ∨ x = ']' ∨ x = '\x7d'

/-- Both values are passed over by the same run of the reader. -/
theorem anyText_append_inj {p p' rest rest' : List Char} (h : AnyText p) (h' : AnyText p')
    (hrest : Follows EndsValue rest) (hrest' : Follows EndsValue rest')
    (heq : p ++ rest = p' ++ rest') : p = p' ∧ rest = rest' := by
  have reads {q tail : List Char} (hq : AnyText q) (htail : Follows EndsValue tail) :
      skipValue.Reads ⟨q ++ tail, 0⟩ () ⟨tail, byteLength q⟩ := by
    have hpasses : (⟨q ++ tail, 0⟩ : Cursor).Passes q ⟨tail, byteLength q⟩ :=
      ⟨rfl, (Nat.zero_add _).symm⟩
    have hdelimited : Delimited ⟨tail, byteLength q⟩ := fun x hx => .inr (htail x hx)
    exact (skipValue_accepts q.length).complete (a := ()) hq (Nat.le_refl _)
      (crosses_of_passes hpasses) hdelimited
  have hreads := reads h hrest
  rw [heq] at hreads
  obtain ⟨-, hcursor⟩ := hreads.unique (reads h' hrest')
  obtain rfl : rest = rest' := congrArg Cursor.rest hcursor
  exact ⟨List.append_cancel_right heq, rfl⟩

/-- A name without escapes ends at the first quote. -/
theorem plain_append_inj {name name' : String} (h : Plain name) (h' : Plain name')
    {rest rest' : List Char} (heq : name.toList ++ '"' :: rest = name'.toList ++ '"' :: rest') :
    name = name' ∧ rest = rest' := by
  have htest {name : String} (h : Plain name) : ∀ c ∈ name.toList, (c != '"') = true :=
    fun c hc => bne_iff_ne.2 (h c hc).1
  have hquote {rest : List Char} : ∀ c ∈ ('"' :: rest).head?, (c != '"') = false := by simp
  obtain ⟨hname, hrest⟩ := Text.append_inj_of_test (htest h) (htest h') hquote hquote heq
  exact ⟨String.toList_inj.1 hname, (List.cons.inj hrest).2⟩

/-! ## Values and fields -/

/-- The string is the text of a value. -/
def IsValue (value : String) : Prop := AnyText value.toList

/-- The name needs no escapes, and the string is the text of a value. -/
def IsField (field : String × String) : Prop := Plain field.1 ∧ IsValue field.2

/-- The text of a field: its name between quotes, a colon and its value. -/
def fieldText (field : String × String) : List Char :=
  '"' :: (field.1.toList ++ '"' :: ':' :: field.2.toList)

/-- No value is a proper front of another that a comma or a bracket may end. -/
theorem IsValue.endsItself {value : String} (h : IsValue value) :
    EndsItself EndsValue String.toList IsValue value := by
  intro value' rest rest' h' hrest hrest' heq
  obtain ⟨hvalue, htail⟩ := anyText_append_inj h h' hrest hrest' heq
  exact ⟨String.toList_inj.1 hvalue, htail⟩

theorem IsField.endsItself {field : String × String} (h : IsField field) :
    EndsItself EndsValue fieldText IsField field := by
  rintro ⟨name', value'⟩ rest rest' ⟨hname', hvalue'⟩ hrest hrest' heq
  obtain ⟨name, value⟩ := field
  simp only [fieldText, List.cons_append, List.append_assoc, List.cons.injEq, true_and] at heq
  obtain ⟨rfl, htail⟩ := plain_append_inj h.1 hname' heq
  obtain ⟨rfl, hrest⟩ := h.2.endsItself hvalue' hrest hrest' (List.cons.inj htail).2
  exact ⟨rfl, hrest⟩

/-- The characters of an array: its values separated by commas between brackets. -/
theorem toList_array (values : List String) :
    (array values).toList = '[' :: ([','].intercalate (values.map String.toList) ++ [']']) := by
  simp [array]

/-- The characters of an object: its fields separated by commas between braces. -/
theorem toList_object (fields : List (String × String)) :
    (object fields).toList = '\x7b' :: ([','].intercalate (fields.map fieldText) ++ ['\x7d']) := by
  unfold fieldText
  simp [object, Function.comp_def]

/-- Arrays of values are equal item by item. -/
theorem array_inj {values values' : List String} (h : ∀ v ∈ values, IsValue v)
    (h' : ∀ v ∈ values', IsValue v) (heq : array values = array values') : values = values' := by
  have hopens (value : String) (hvalue : IsValue value) :
      ∃ x text, value.toList = x :: text ∧ ¬ EndsValue x := by
    obtain ⟨x, text, htext, -, hx⟩ := anyText_opens hvalue
    exact ⟨x, text, htext, fun hends => by rcases hends with rfl | rfl | rfl <;> simp at hx⟩
  have htext := congrArg String.toList heq
  rw [toList_array, toList_array] at htext
  exact (Text.intercalate_inj (.inl rfl) (.inr (.inl rfl)) (by decide) hopens
    (fun v hv => ⟨h v hv, (h v hv).endsItself⟩) h' (List.cons.inj htext).2).1

/-- Objects are equal field by field, in the order of writing. -/
theorem object_inj {fields fields' : List (String × String)} (h : ∀ f ∈ fields, IsField f)
    (h' : ∀ f ∈ fields', IsField f) (heq : object fields = object fields') : fields = fields' := by
  have hopens (field : String × String) (_ : IsField field) :
      ∃ x text, fieldText field = x :: text ∧ ¬ EndsValue x :=
    ⟨'"', _, rfl, by simp [EndsValue]⟩
  have htext := congrArg String.toList heq
  rw [toList_object, toList_object] at htext
  exact (Text.intercalate_inj (.inl rfl) (.inr (.inr rfl)) (by decide) hopens
    (fun f hf => ⟨h f hf, (h f hf).endsItself⟩) h' (List.cons.inj htext).2).1

/-- Objects with one key are equal in the key and in the value. -/
theorem single_inj {name name' value value' : String} (h : Plain name) (h' : Plain name')
    (heq : single name value = single name' value') : name = name' ∧ value = value' := by
  have toList (name value : String) : (single name value).toList =
      '\x7b' :: '"' :: (name.toList ++ '"' :: ':' :: (value.toList ++ ['\x7d'])) := by
    simp [single]
  have htext := congrArg String.toList heq
  rw [toList, toList] at htext
  obtain ⟨hname, hrest⟩ := plain_append_inj h h' (List.cons.inj (List.cons.inj htext).2).2
  have hvalue := List.append_cancel_right (List.cons.inj hrest).2
  exact ⟨hname, String.toList_inj.1 hvalue⟩

/-- An object is not written as a string. -/
theorem single_ne_quote (name value text : String) : single name value ≠ quote text := by
  intro h
  have hhead := congrArg (fun s => s.toList.head?) h
  simp [single, quote] at hhead

/-! ## Texts of values -/

/-- Letters that are decoded are letters that can be skipped. -/
theorem looseLetters_of_letters {text value : List Char} (h : Letters text value) :
    LooseLetters text := by
  induction h with
  | nil => exact .nil
  | plain hquote hbackslash hc _ ih => exact .plain hquote hbackslash hc ih
  | short he _ ih => exact .short he ih
  | code hn _ ih => exact .code hn ih
  | pair hn _ hm _ _ _ ih => exact .code hn (.code hm ih)

/-- A string that is decoded is one that can be skipped. -/
theorem looseStringText_of {text : List Char} {value : String} (h : StringText text value) :
    LooseStringText text := by
  obtain ⟨body, rfl, hbody⟩ := h
  exact ⟨body, rfl, looseLetters_of_letters hbody⟩

@[simp] theorem quote_isValue (value : String) : IsValue (quote value) :=
  .string (looseStringText_of (quote_text value))

theorem array_isValue {values : List String} (h : ∀ v ∈ values, IsValue v) :
    IsValue (array values) :=
  .array (array_text values) (List.forall_mem_map.2 h)

theorem object_isValue {fields : List (String × String)} (h : ∀ f ∈ fields, IsField f) :
    IsValue (object fields) := by
  refine .object (object_text fields) (List.forall_mem_map.2 ?_) (List.forall_mem_map.2 ?_)
  · exact fun field hfield => looseStringText_of (plain_text (h field hfield).1)
  · exact fun field hfield => (h field hfield).2

theorem single_isValue {name value : String} (hname : Plain name) (hvalue : IsValue value) :
    IsValue (single name value) := by
  have hobject : single name value = object [(name, value)] := by
    simp [single, object, ← String.toList_inj]
  rw [hobject]
  exact object_isValue (List.forall_mem_singleton.2 ⟨hname, hvalue⟩)

/-- A string is read off its text. -/
theorem quote_inj {value value' : String} (h : quote value = quote value') : value = value' := by
  have hreads (value : String) : string.Reads ⟨(quote value).toList, 0⟩ value
      ⟨[], byteLength (quote value).toList⟩ := by
    refine (reads_string ?_).2 ⟨_, quote_text value, by simp, (Nat.zero_add _).symm⟩
    rw [quote, String.toList_ofList, List.head?_cons]
  have hvalue := hreads value
  rw [h] at hvalue
  exact (hvalue.unique (hreads value')).1

/-! ## Records -/

section Record

variable (names values : List String)

theorem isField_zip (hnames : ∀ n ∈ names, Plain n) (h : ∀ v ∈ values, IsValue v) :
    ∀ f ∈ names.zip values, IsField f := by
  rintro ⟨name, value⟩ hf
  obtain ⟨hname, hvalue⟩ := List.of_mem_zip hf
  exact ⟨hnames name hname, h value hvalue⟩

theorem record_isValue {name : String} (hname : Plain name) (hnames : ∀ n ∈ names, Plain n)
    (h : ∀ v ∈ values, IsValue v) : IsValue (single name (object (names.zip values))) :=
  single_isValue hname (object_isValue (isField_zip names values hnames h))

/-- A record tells its values. -/
theorem record_inj (values' : List String) {name : String} (hname : Plain name)
    (hnames : ∀ n ∈ names, Plain n) (hlength : values.length ≤ names.length)
    (hlength' : values'.length ≤ names.length) (h : ∀ v ∈ values, IsValue v)
    (h' : ∀ v ∈ values', IsValue v)
    (heq : single name (object (names.zip values)) = single name (object (names.zip values'))) :
    values = values' := by
  have hfields := object_inj (isField_zip names values hnames h)
    (isField_zip names values' hnames h') (single_inj hname hname heq).2
  rw [← List.map_snd_zip hlength, hfields, List.map_snd_zip hlength']

end Record

end Json

end SyntaxTree
