import SyntaxTree.Proofs.Json.Denotation
import SyntaxTree.Proofs.Json.Injective

/-! # The parts of a text are determined by it

The text of an array of values has one list of items, and the text of a record one text for each
field, wherever there are blanks. A reader that gives back the text it has passed over accepts the
values, and a reader gives only one result. -/

namespace SyntaxTree

theorem Text.Cursor.Passes.take_eq {c d : Cursor} {text : List Char} (h : c.Passes text d) :
    c.rest.take (c.rest.length - d.rest.length) = text := by
  rw [h.length_eq, Nat.add_sub_cancel, h.rest_eq, List.take_left]

namespace Json

open Text (Cursor)
open Reader Grammar

/-! ## Readers that give texts back -/

/-- A value of any shape, as its own text. -/
def captured : Reader (List Char) := do
  skipBlanks
  let text ← ofStep fun cursor => (.ok cursor.rest, cursor)
  skipValue
  let left ← remaining
  pure (text.take (text.length - left))

/-- The text of a value stands for itself. -/
def Itself (p value : List Char) : Prop := AnyText p ∧ value = p

variable {n : Nat} {c d : Cursor}

/-- Capturing a value skips it and keeps the text in between. -/
theorem reads_captured {value : List Char} :
    captured.Reads c value d ↔ ∃ m, skipBlanks.Reads c () m ∧ skipValue.Reads m () d ∧
      value = m.rest.take (m.rest.length - d.rest.length) := by
  constructor
  · intro h
    obtain ⟨_, m, hs, h⟩ := reads_bind.1 h
    obtain ⟨text, m', htext, h⟩ := reads_bind.1 h
    simp only [reads_ofStep, Prod.mk.injEq, Except.ok.injEq] at htext
    obtain ⟨rfl, rfl⟩ := htext
    obtain ⟨_, k, hk, h⟩ := reads_bind.1 h
    rw [reads_remaining_bind] at h
    obtain ⟨rfl, rfl⟩ := reads_pure.1 h
    exact ⟨m, hs, hk, rfl⟩
  · rintro ⟨m, hs, hk, rfl⟩
    refine reads_bind.2 ⟨(), m, hs, reads_bind.2 ⟨m.rest, m, rfl, reads_bind.2 ⟨(), d, hk, ?_⟩⟩⟩
    exact reads_remaining_bind.2 (reads_pure.2 ⟨rfl, rfl⟩)

/-- The reader that captures a value accepts every value, each as itself. -/
theorem captured_accepts (n : Nat) : Accepts n captured Itself where
  sound := by
    intro c value d h
    obtain ⟨m, hs, hk, rfl⟩ := reads_captured.1 h
    obtain ⟨p, hp, hc⟩ := (skipValue_accepts n).sound hk
    obtain ⟨x, rest, rfl, hx⟩ := anyText_opens hp
    have hc := hc.of_skipBlanks hs
    obtain ⟨m', hs', -, hpass⟩ := crosses_start hx.1 hc
    obtain ⟨-, rfl⟩ := hs.unique hs'
    exact ⟨_, ⟨hp, hpass.take_eq⟩, hc⟩
  complete := by
    rintro c p _ d ⟨hp, rfl⟩ hlength hc hd
    obtain ⟨x, rest, rfl, hx⟩ := anyText_opens hp
    obtain ⟨m, hs, -, hpass⟩ := crosses_start hx.1 hc
    refine reads_captured.2 ⟨m, hs, ?_, hpass.take_eq.symm⟩
    exact (skipValue_accepts n).complete (a := ()) hp hlength (crosses_of_passes hpass) hd
  opens := fun h => anyText_opens h.1

/-! ## One reading of each text -/

section Unique

variable {α : Type} {r : Reader α} {L : List Char → α → Prop} {a b : α}

/-- A reader is a function, so a source is a document of one value at most. -/
theorem document_unique (h : ∀ n, Accepts n r L) {source : String} (ha : Document L source a)
    (hb : Document L source b) : a = b :=
  Except.ok.inj (((readDocument_iff h).2 ha).symm.trans ((readDocument_iff h).2 hb))

/-- A text that a reader accepts stands for one value only. -/
theorem text_unique (h : ∀ n, Accepts n r L) {p : List Char} (ha : L p a) (hb : L p b) : a = b := by
  have document {value : α} (hvalue : L p value) : Document L (String.ofList p) value :=
    ⟨[], p, [], by simp, blank_nil, blank_nil, hvalue⟩
  exact document_unique h (document ha) (document hb)

end Unique

/-! ## Arrays and records -/

theorem itself_forall₂ {texts : List (List Char)} (h : ∀ p ∈ texts, AnyText p) :
    List.Forall₂ Itself texts texts :=
  List.forall₂_same.2 fun p hp => ⟨h p hp, rfl⟩

/-- An array has its items in one way. The reader that captures items decides. -/
theorem arrayText_unique {items items' : List (List Char)} {text : List Char}
    (h : ArrayText items text) (h' : ArrayText items' text) (hitems : ∀ p ∈ items, AnyText p)
    (hitems' : ∀ p ∈ items', AnyText p) : items = items' :=
  text_unique (fun n => list_accepts (captured_accepts n)) ⟨items, h, itself_forall₂ hitems⟩
    ⟨items', h', itself_forall₂ hitems'⟩

/-- One text for each name. -/
abbrev Texts (names : List String) : Type := Values (names.map fun _ => List Char)

/-- Fields that capture their values. -/
def capturedFields : (names : List String) → Fields (names.map fun _ => List Char)
  | [] => .nil
  | name :: names => .field name captured (capturedFields names)

/-- The language of each such field: a value, as itself. -/
def itselfLangs : (names : List String) → Langs (names.map fun _ => List Char)
  | [] => .nil
  | _ :: names => .cons Itself (itselfLangs names)

theorem capturedFields_names (names : List String) : (capturedFields names).names = names := by
  induction names with
  | nil => rfl
  | cons name names ih => exact congrArg (name :: ·) ih

theorem capturedFields_accept (names : List String) :
    FieldsAccept n (capturedFields names) (itselfLangs names) := by
  induction names with
  | nil => trivial
  | cons name names ih => exact ⟨rfl, captured_accepts n, ih⟩

theorem exists_holds {names : List String} {texts : List (List Char)}
    (hlength : texts.length = names.length) (h : ∀ p ∈ texts, AnyText p) :
    ∃ values, (itselfLangs names).Holds texts values := by
  induction names generalizing texts with
  | nil => exact ⟨(), List.length_eq_zero_iff.1 hlength⟩
  | cons name names ih =>
      obtain ⟨p, texts, rfl⟩ := List.exists_cons_of_length_eq_add_one hlength
      obtain ⟨hp, htexts⟩ := List.forall_mem_cons.1 h
      obtain ⟨values, hvalues⟩ := ih (Nat.succ.inj hlength) htexts
      exact ⟨(p, values), p, texts, rfl, ⟨hp, rfl⟩, hvalues⟩

theorem holds_unique {names : List String} {texts texts' : List (List Char)}
    {values : Texts names} (h : (itselfLangs names).Holds texts values)
    (h' : (itselfLangs names).Holds texts' values) : texts = texts' := by
  induction names generalizing texts texts' with
  | nil => exact Eq.trans h (Eq.symm h')
  | cons name names ih =>
      obtain ⟨value, values⟩ := values
      obtain ⟨p, texts, rfl, ⟨-, rfl⟩, h⟩ := h
      obtain ⟨p', texts', rfl, ⟨-, hp⟩, h'⟩ := h'
      rw [hp, ih h h']

/-- A record has the text of each field in one way, though an object has its fields in any order and
may have others between them. -/
theorem recordText_unique {names : List String} (hnames : names.Nodup)
    {texts texts' : List (List Char)} {p : List Char} (h : RecordText (names.zip texts) p)
    (h' : RecordText (names.zip texts') p) (hlength : texts.length = names.length)
    (hlength' : texts'.length = names.length) (htexts : ∀ q ∈ texts, AnyText q)
    (htexts' : ∀ q ∈ texts', AnyText q) : texts = texts' := by
  have accepts (n : Nat) : Accepts n (record "" "" (capturedFields names) .skipped)
      (RecordOf (capturedFields names) (itselfLangs names)) :=
    record_accepts (capturedFields_accept names) (by rwa [capturedFields_names]) _ _
  obtain ⟨values, hvalues⟩ := exists_holds hlength htexts
  obtain ⟨values', hvalues'⟩ := exists_holds hlength' htexts'
  obtain rfl : values = values' := text_unique accepts
    ⟨texts, by rwa [capturedFields_names], hvalues⟩ ⟨texts', by rwa [capturedFields_names], hvalues'⟩
  exact holds_unique hvalues hvalues'

/-- A variant with a value is a record of one field. -/
theorem recordText_of_tagged {name : String} {p text : List Char} (h : TaggedText name p text) :
    RecordText [(name, p)] text := by
  obtain ⟨key, hkey, hobject⟩ := h
  refine @RecordText.object _ _ [⟨⟨key, p⟩, name⟩] hobject ⟨?_, ?_, ?_⟩
  · exact List.forall_mem_singleton.2 hkey
  · exact List.forall_mem_singleton.2 (by simp)
  · exact List.forall_mem_singleton.2 fun hname => absurd List.mem_cons_self hname

/-- A variant has its payload in one way. -/
theorem taggedText_unique {name : String} {p p' text : List Char} (h : TaggedText name p text)
    (h' : TaggedText name p' text) (hp : AnyText p) (hp' : AnyText p') : p = p' := by
  have hnames : [name].Nodup := by simp
  have htexts : [p] = [p'] := recordText_unique hnames (recordText_of_tagged h)
    (recordText_of_tagged h') rfl rfl (List.forall_mem_singleton.2 hp)
    (List.forall_mem_singleton.2 hp')
  exact List.head_eq_of_cons_eq htexts

/-! ## Texts of values -/

theorem anyText_of_string {text : List Char} {value : String} (h : StringText text value) :
    AnyText text := .string (looseStringText_of h)

theorem anyText_of_record {fields : List (String × List Char)} {p : List Char}
    (h : RecordText fields p) (hfields : ∀ f ∈ fields, AnyText f.2) : AnyText p := by
  cases h with
  | array harray => exact .array harray (List.forall_mem_map.2 hfields)
  | @object entries hobject hcovers =>
      refine .object hobject (List.forall_mem_map.2 fun e he => ?_)
        (List.forall_mem_map.2 fun e he => ?_)
      · exact looseStringText_of (hcovers.spelled e he)
      · by_cases hname : e.name ∈ fields.map Prod.fst
        · obtain ⟨f, hf, hfe⟩ := List.mem_map.1 hname
          have hmem : e.value ∈ (entries.filter (·.name == f.1)).map (·.value) :=
            List.mem_map_of_mem (List.mem_filter.2 ⟨he, by simp [hfe]⟩)
          rw [hcovers.once f hf, List.mem_singleton] at hmem
          exact hmem ▸ hfields f hf
        · exact hcovers.other e he hname

theorem anyText_of_tagged {name : String} {p text : List Char} (h : TaggedText name p text)
    (hp : AnyText p) : AnyText text :=
  anyText_of_record (recordText_of_tagged h) (List.forall_mem_singleton.2 hp)

theorem anyText_of_unit {name : String} {text : List Char} (h : UnitText name text) :
    AnyText text := by
  rcases h with h | h
  · exact anyText_of_string h
  · exact anyText_of_tagged h .null

end Json

end SyntaxTree
