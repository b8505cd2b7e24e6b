import SyntaxTree.Proofs.Json.Denotation
import SyntaxTree.Proofs.Json.EndOfInput

/-! # Written texts that are cut

What the writer makes of strings, lists, records and variants starves their readers wherever it is
cut. Parts before the cut are read as they are in the whole text, so only the part that the cut is
in matters; a number may still be read there, and the end is then missed right after it. -/

namespace SyntaxTree

namespace Json

open Text (Cursor byteLength Cut cut_cons cut_append cut_singleton)
open Reader Grammar

variable {α β σ : Type} {n : Nat}

/-- The reader runs out of input on every front of the text, those longer than `n` apart. -/
def Starves (n : Nat) (r : Reader α) (text : List Char) : Prop :=
  ∀ c : Cursor, Cut c.rest text → c.rest.length ≤ n → RunsOut r c

/-- The reader runs out of input on every front of the text, or it reads all that is left. -/
def Tapers (n : Nat) (r : Reader α) (text : List Char) : Prop :=
  ∀ c : Cursor, Cut c.rest text → c.rest.length ≤ n →
    RunsOut r c ∨ ∃ a d, r.Reads c a d ∧ c.Passes c.rest d

/-- A reader that runs out on every cut of a text tapers on it. -/
theorem Starves.tapers {r : Reader α} {text : List Char} (h : Starves n r text) :
    Tapers n r text := fun c hcut hn => .inl (h c hcut hn)

/-- What becomes of the value does not matter for running out. -/
theorem Tapers.map {r : Reader α} {text : List Char} (h : Tapers n r text) (f : α → β) :
    Tapers n (f <$> r) text := by
  intro c hcut hn
  rcases h c hcut hn with h | ⟨a, d, hr, hd⟩
  · exact .inl h.map
  · exact .inr ⟨f a, d, reads_map.2 ⟨a, hr, rfl⟩, hd⟩

/-- What the writer makes of a value: a text of the language on one line, which starves the reader
when it is cut. -/
structure Written (n : Nat) (r : Reader α) (L : List Char → α → Prop) (s : String) : Prop where
  accepts : Accepts n r L
  text : ∃ a, L s.toList a
  starves : Starves n r s.toList
  line : '\n' ∉ s.toList

/-- Pieces right behind each other are pieces between blanks. -/
theorem crosses_of_flatten {c d : Cursor} {pieces : List (List Char)}
    (h : c.Passes pieces.flatten d) : Crosses c pieces d := ⟨_, spaced_flatten pieces, h⟩

/-- A value that is all there is read, and the cut is in what comes after it. -/
theorem Accepts.reads_front {r : Reader α} {L : List Char → α → Prop} (h : Accepts n r L)
    {p : List Char} {a : α} (hp : L p a) {c d : Cursor} (hc : c.Passes p d)
    (hn : c.rest.length ≤ n) (hd : Delimited d) : r.Reads c a d := by
  have hlength := hc.length_eq
  exact h.complete hp (by omega) (crosses_of_passes hc) hd

/-! ## Strings -/

/-- A newline is escaped, so a written text has one line. -/
theorem newline_notMem_escapeChar (c : Char) : '\n' ∉ escapeChar c := by
  unfold escapeChar
  split
  all_goals try decide
  split
  · rename_i hc
    have h : ∀ k < 0x20, '\n' ∉ ['\\', 'u', '0', '0', Nat.digitChar (k / 16),
        Nat.digitChar (k % 16)] := by decide
    exact h c.toNat hc
  · simpa [eq_comm]

theorem newline_notMem_quote (value : String) : '\n' ∉ (quote value).toList := by
  simp only [quote, String.toList_ofList, List.mem_cons, List.mem_append, List.mem_flatMap,
    List.not_mem_nil, or_false]
  rintro (h | ⟨c, -, hc⟩ | h)
  · exact absurd h (by decide)
  · exact newline_notMem_escapeChar c hc
  · exact absurd h (by decide)

/-- A reader that takes a quote for the start of a string. -/
theorem starves_string {f : Char → Reader α} {text : List Char} {value : String}
    (h : StringText text value) (hf : ∀ c : Cursor, RunsOut string c → RunsOut (f '"') c) :
    Starves n (do f (← valueStart)) text := by
  intro c hcut _
  obtain ⟨body, rfl, -⟩ := id h
  rcases cut_cons.1 hcut with hnil | ⟨tail, htail, -⟩
  · exact runsOut_valueStart_bind hnil
  · apply runsOut_dispatch htail (by decide)
    apply hf
    exact runsOut_string h hcut (by simp [htail])

theorem newline_notMem_plain {name : String} (h : Plain name) : '\n' ∉ name.toList := by
  intro hc
  exact absurd (h _ hc).2.2 (by decide)

/-- The reader of strings gets along with what the writer quotes. -/
theorem text_written (value : String) : Written n text StringText (quote value) where
  accepts := text_accepts n
  text := ⟨value, quote_text value⟩
  starves := starves_string (quote_text value) fun c h => by rwa [if_pos rfl]
  line := newline_notMem_quote value

/-! ## Lists -/

/-- At the end of the text an array wants another item or its end. -/
theorem runsOut_elements {item : Reader α} {c : Cursor} (hc : c.rest = []) (bound : Nat)
    (first : Bool) : RunsOut (elements item bound first) c := by
  cases bound with
  | zero => exact runsOut_failAhead .list hc
  | succ bound => exact (runsOut_nextElement hc first).bind

/-- The comma before a value that is cut away. -/
theorem runsOut_nextElement_comma {c : Cursor} (hc : c.rest = [',']) :
    RunsOut (nextElement false) c := by
  obtain ⟨m, hm, hend⟩ := Cursor.exists_passes (a := [',']) hc
  apply runsOut_skipBlanks_bind (stops_of_head hc (by decide))
  apply runsOut_peek_bind
  rw [hc]
  apply runsOut_advance_bind hm
  exact runsOut_sign hend (runsOut_failAhead .value hend)

/-- The reader goes past the comma to an element that is still there. -/
theorem nextElement_front {first : Bool} {x : Char} {rest : List Char} {c m : Cursor}
    (hx : OpensValue x) (hc : c.Passes (lead first).flatten m) (hm : m.rest = x :: rest) :
    (nextElement first).Reads c true m := by
  have hne : (x = ']') = False := eq_false hx.2.2.1
  have hstart : skipBlanks.Reads m () m :=
    skipBlanks_of_blank blank_nil (Cursor.passes_nil.2 rfl) (stops_of_head hm hx.1)
  rw [nextElement, reads_bind]
  cases first with
  | true =>
      obtain rfl := Cursor.passes_nil.1 hc
      refine ⟨(), c, hstart, ?_⟩
      rw [reads_peek_bind, hm, List.head?_cons]
      split <;> simp_all
  | false =>
      obtain ⟨hhead, rfl⟩ := Cursor.passes_singleton.1 (show c.Passes [','] m from hc)
      have hblanks : skipBlanks.Reads c () c := by
        refine skipBlanks_of_blank blank_nil (Cursor.passes_nil.2 rfl) fun y hy => ?_
        obtain rfl : ',' = y := by simpa [hhead] using hy
        decide
      refine ⟨(), c, hblanks, ?_⟩
      rw [reads_peek_bind, hhead]
      refine reads_advance_bind.2 (reads_bind.2 ⟨(), _, hstart, ?_⟩)
      rw [reads_peek_bind, hm, List.head?_cons]
      split <;> simp_all

/-- The front of what is left of a bracket is nothing, or it begins with a comma or the end. -/
theorem delimited_of_cut {items : List (List (List Char))} {close : Char}
    (hclose : close = ']' ∨ close = '\x7d') {d : Cursor}
    (h : Cut d.rest ((chained false items).flatten ++ [close])) : Delimited d := by
  intro x hx
  have hfirst : ∃ y rest, (chained false items).flatten ++ [close] = y :: rest ∧
      (y = ',' ∨ y = close) := by
    cases items with
    | nil => exact ⟨close, [], rfl, .inr rfl⟩
    | cons item items => exact ⟨',', _, rfl, .inl rfl⟩
  obtain ⟨y, rest, hy, hsign⟩ := hfirst
  rw [hy] at h
  rcases cut_cons.1 h with hnil | ⟨tail, htail, -⟩
  · simp [hnil] at hx
  · obtain rfl : y = x := by simpa [htail] using hx
    rcases hsign with rfl | rfl
    · exact .inr (.inl rfl)
    · exact .inr (.inr hclose)

/-- What leads an item is at most one character, so a cut of it is empty. -/
theorem cut_lead {first : Bool} {front : List Char} (h : Cut front (lead first).flatten) :
    front = [] := by
  cases first with
  | true => exact absurd h Text.not_cut_nil
  | false => exact cut_singleton.1 h

/-- A cut of an array is a cut of the sign before an item, of an item or of the closing bracket, by
induction on the items. -/
theorem elements_starve {item : Reader α} {L : List Char → α → Prop} {values : List String}
    (h : ∀ s ∈ values, Written n item L s) {bound : Nat} {first : Bool} {c : Cursor}
    (hbound : c.rest.length ≤ bound) (hn : c.rest.length ≤ n)
    (hcut : Cut c.rest ((chained first (values.map fun s => [s.toList])).flatten ++ [']'])) :
    RunsOut (elements item bound first) c := by
  induction values generalizing bound first c with
  | nil => exact runsOut_elements (cut_singleton.1 hcut) bound first
  | cons s values ih =>
      obtain ⟨hs, hvalues⟩ := List.forall_mem_cons.1 h
      obtain ⟨a, ha⟩ := hs.text
      obtain ⟨x, piece, hx, hopens⟩ := hs.accepts.opens ha
      have hflatten : (chained first ((s :: values).map fun s => [s.toList])).flatten ++ [']'] =
          (lead first).flatten ++
            (s.toList ++ ((chained false (values.map fun s => [s.toList])).flatten ++ [']'])) := by
        simp [chained]
      rw [hflatten] at hcut
      rcases cut_append.1 hcut with hlead | ⟨tail, htail, hvalue⟩
      · exact runsOut_elements (cut_lead hlead) bound first
      rcases bound with _ | bound
      · exact runsOut_elements (List.length_eq_zero_iff.1 (Nat.le_zero.1 hbound)) 0 first
      rw [elements]
      obtain ⟨m, hm, rfl⟩ := Cursor.exists_passes htail
      rcases hrest : m.rest with _ | ⟨y, tail⟩
      · -- The cut is before the value, and after the comma if there is one.
        rw [hrest, List.append_nil] at htail
        apply RunsOut.bind
        cases first with
        | true => exact runsOut_nextElement htail true
        | false => exact runsOut_nextElement_comma htail
      · obtain rfl : y = x := by
          rw [hx, hrest] at hvalue
          rcases cut_cons.1 hvalue with hnil | ⟨_, heq, -⟩
          · exact absurd hnil (by simp)
          · exact (List.cons.inj heq).1
        have hle := hm.length_eq
        refine .after (nextElement_front hopens hm hrest) hm.finish_eq ?_
        rw [if_pos rfl]
        rcases cut_append.1 hvalue with hinside | ⟨_, hrest, hafter⟩
        · exact (hs.starves m hinside (by omega)).bind
        · obtain ⟨d, hd, rfl⟩ := Cursor.exists_passes hrest
          have hlt := hd.length_eq
          rw [hx, List.length_cons] at hlt
          have hread := hs.accepts.reads_front ha hd (by omega) (delimited_of_cut (.inl rfl) hafter)
          refine .after hread hd.finish_eq (RunsOut.bind ?_)
          exact ih hvalues (by omega) (by omega) hafter

theorem array_toList (values : List String) : (array values).toList =
    '[' :: ((chained true (values.map fun s => [s.toList])).flatten ++ [']']) := by
  have hmap : (values.map fun s => [s.toList]).map List.flatten = values.map String.toList := by
    rw [List.map_map]
    exact List.map_congr_left fun s _ => by simp
  rw [chained_true, flatten_separated, hmap]
  simp [array]

/-- Reading a list runs out on every cut of a written array. -/
theorem list_starves {item : Reader α} {L : List Char → α → Prop} {values : List String}
    (h : ∀ s ∈ values, Written n item L s) : Starves n (list item) (array values).toList := by
  intro c hcut hn
  rw [array_toList] at hcut
  rcases cut_cons.1 hcut with hnil | ⟨tail, htail, hinside⟩
  · exact runsOut_valueStart_bind hnil
  · apply runsOut_dispatch htail (by decide)
    obtain ⟨m, hm, rfl⟩ := Cursor.exists_passes (a := ['[']) htail
    have hle := hm.length_eq
    rw [if_pos rfl]
    apply runsOut_advance_bind hm
    apply runsOut_remaining_bind
    apply RunsOut.enclosed
    exact elements_starve h (Nat.le_refl _) (by omega) hinside

theorem newline_notMem_intercalate {separator : Char} (hs : separator ≠ '\n')
    {texts : List (List Char)} (h : ∀ text ∈ texts, '\n' ∉ text) :
    '\n' ∉ [separator].intercalate texts := by
  induction texts with
  | nil => simp
  | cons text texts ih =>
      obtain ⟨htext, htexts⟩ := List.forall_mem_cons.1 h
      cases texts with
      | nil => simpa using htext
      | cons next texts =>
          rw [List.intercalate_cons_cons]
          simp only [List.mem_append, List.mem_singleton, not_or]
          exact ⟨⟨htext, Ne.symm hs⟩, ih htexts⟩

/-- The reader of lists gets along with a written array, if that is so of the items. -/
theorem list_written {item : Reader α} {L : List Char → α → Prop} (hitem : Accepts n item L)
    {values : List String} (h : ∀ s ∈ values, Written n item L s) :
    Written n (list item) (ItemsText L) (array values) where
  accepts := list_accepts hitem
  text := by
    have hitems : ∃ as, List.Forall₂ L (values.map String.toList) as := by
      induction values with
      | nil => exact ⟨[], .nil⟩
      | cons s values ih =>
          obtain ⟨hs, hvalues⟩ := List.forall_mem_cons.1 h
          obtain ⟨a, ha⟩ := hs.text
          obtain ⟨as, has⟩ := ih hvalues
          exact ⟨a :: as, .cons ha has⟩
    obtain ⟨as, has⟩ := hitems
    exact ⟨as, _, array_text values, has⟩
  starves := list_starves h
  line := by
    have hvalues : '\n' ∉ [','].intercalate (values.map String.toList) := by
      apply newline_notMem_intercalate (by decide)
      intro text htext
      obtain ⟨s, hs, rfl⟩ := List.mem_map.1 htext
      exact (h s hs).line
    simp [array, hvalues]

/-! ## Objects -/

/-- At the end of the text an object wants another entry or its end. -/
theorem runsOut_entries {entry : σ → String → Reader σ} {c : Cursor} (hc : c.rest = [])
    (bound : Nat) (first : Bool) (state : σ) : RunsOut (entries entry bound first state) c := by
  cases bound with
  | zero => exact runsOut_failAhead .object hc
  | succ bound => exact (runsOut_nextKey hc first).bind

/-- The comma before a key that is cut away. -/
theorem runsOut_nextKey_comma {c : Cursor} (hc : c.rest = [',']) : RunsOut (nextKey false) c := by
  obtain ⟨m, hm, hend⟩ := Cursor.exists_passes (a := [',']) hc
  apply runsOut_skipBlanks_bind (stops_of_head hc (by decide))
  apply runsOut_peek_bind
  rw [hc]
  apply runsOut_advance_bind hm
  exact runsOut_sign hend (runsOut_failAhead .value hend)

/-- The reader goes past the comma to a key that is still there. -/
theorem nextKey_front {first : Bool} {rest : List Char} {c m : Cursor}
    (hc : c.Passes (lead first).flatten m) (hm : m.rest = '"' :: rest) :
    (nextKey first).Reads c true m := by
  obtain ⟨d, hd, hend⟩ := Cursor.exists_passes (b := []) (hm.trans (List.append_nil _).symm)
  have hcross : Crosses c (lead first ++ ['"' :: rest]) d := by
    apply crosses_of_flatten
    rw [List.flatten_append, List.flatten_singleton]
    exact hc.trans hd
  obtain ⟨m', hread, -, hd'⟩ := nextKey_item hcross
  have heq : m' = m := by
    obtain ⟨rest', offset'⟩ := m'
    obtain ⟨rest'', offset⟩ := m
    have hrest := hd'.rest_eq.trans hd.rest_eq.symm
    have hoffset := hd'.offset_eq.symm.trans hd.offset_eq
    simp_all
  exact heq ▸ hread

/-- A cut among the entries of an object is in one of them, after some that are all there. -/
theorem entries_starve {entry : σ → String → Reader σ} {Step : σ → String → List Char → σ → Prop}
    (hentry : AcceptsEntry n entry Step) {es : List Entry} {state last : σ}
    (hes : Steps Step state es last)
    (h : ∀ e ∈ es, ∀ {state state'}, Step state e.name e.value state' →
      Starves n (entry state e.name) (':' :: e.value)) {bound : Nat} {first : Bool} {c : Cursor}
    (hbound : c.rest.length ≤ bound) (hn : c.rest.length ≤ n)
    (hcut : Cut c.rest ((chained first (es.map fun e => e.pieces)).flatten ++ ['\x7d'])) :
    RunsOut (entries entry bound first state) c := by
  induction hes generalizing bound first c with
  | nil => exact runsOut_entries (cut_singleton.1 hcut) bound first _
  | @cons state mid last e es hkey hstep _ ih =>
      obtain ⟨hfirst, hrest⟩ := List.forall_mem_cons.1 h
      obtain ⟨body, hbody, -⟩ := id hkey
      have hflatten : (chained first ((e :: es).map fun e => e.pieces)).flatten ++ ['\x7d'] =
          (lead first).flatten ++ (e.key ++ ((':' :: e.value) ++
            ((chained false (es.map fun e => e.pieces)).flatten ++ ['\x7d']))) := by
        simp [chained, Member.pieces]
      rw [hflatten] at hcut
      rcases cut_append.1 hcut with hlead | ⟨tail, htail, hitem⟩
      · exact runsOut_entries (cut_lead hlead) bound first state
      rcases bound with _ | bound
      · exact runsOut_entries (List.length_eq_zero_iff.1 (Nat.le_zero.1 hbound)) 0 first state
      rw [entries]
      obtain ⟨m, hm, rfl⟩ := Cursor.exists_passes htail
      have hle := hm.length_eq
      rcases hfront : m.rest with _ | ⟨y, tail⟩
      · -- The cut is before the key, and after the comma if there is one.
        rw [hfront, List.append_nil] at htail
        apply RunsOut.bind
        cases first with
        | true => exact runsOut_nextKey htail true
        | false => exact runsOut_nextKey_comma htail
      obtain rfl : y = '"' := by
        rw [hbody, hfront] at hitem
        rcases cut_cons.1 hitem with hnil | ⟨_, heq, -⟩
        · exact absurd hnil (by simp)
        · exact (List.cons.inj heq).1
      refine .after (nextKey_front hm hfront) hm.finish_eq ?_
      rw [if_pos rfl]
      rcases cut_append.1 hitem with hinside | ⟨_, htext, hvalue⟩
      · exact (runsOut_string hkey hinside (by simp [hfront])).bind
      obtain ⟨k, hk, rfl⟩ := Cursor.exists_passes htext
      have hlt := hk.length_eq
      refine .after ((reads_string (by rw [hfront]; rfl)).2 ⟨_, hkey, hk⟩) hk.finish_eq ?_
      rcases cut_append.1 hvalue with hinside | ⟨_, hentered, hafter⟩
      · exact (hfirst hstep k hinside (by omega)).bind
      obtain ⟨d, hd, rfl⟩ := Cursor.exists_passes hentered
      have hlt' := hd.length_eq
      rw [List.length_cons] at hlt'
      have hread : (entry state e.name).Reads k mid d := by
        refine hentry.complete hstep (by omega) (crosses_of_flatten ?_)
          (delimited_of_cut (.inr rfl) hafter)
        simpa using hd
      refine .after hread hd.finish_eq ?_
      exact ih hrest (by omega) (by omega) hafter

/-- The pieces of a written object stand right behind each other. -/
theorem object_toList (fields : List (String × String)) : (object fields).toList =
    '\x7b' :: ((chained true ((fields.map writtenEntry).map fun e => e.pieces)).flatten ++
      ['\x7d']) := by
  rw [chained_true, flatten_separated]
  simp [object, Function.comp_def, writtenEntry, Member.pieces]

/-! ## Records -/

variable {types : List Type}

/-- The texts that are written for the fields, each in the language of its field. -/
def FieldsWritten (n : Nat) :
    {types : List Type} → Fields types → Langs types → List String → Prop
  | _, .nil, .nil, [] => True
  | _, .cons _ absent read fields, .cons L rest, s :: values =>
      absent = none ∧ Written n read L s ∧ FieldsWritten n fields rest values
  | _, _, _, _ => False

theorem fieldsWritten_nil : FieldsWritten n .nil .nil [] := trivial

theorem fieldsWritten_field (name : String) {read : Reader α} {fields : Fields types}
    {L : List Char → α → Prop} {langs : Langs types} {s : String} {values : List String}
    (h : Written n read L s) (hrest : FieldsWritten n fields langs values) :
    FieldsWritten n (Fields.field name read fields) (.cons L langs) (s :: values) :=
  ⟨rfl, h, hrest⟩

/-- Fields that get along with what is written accept their languages. -/
theorem FieldsWritten.accept {fields : Fields types} {langs : Langs types} {values : List String}
    (h : FieldsWritten n fields langs values) : FieldsAccept n fields langs := by
  induction fields generalizing values with
  | nil =>
      cases langs
      trivial
  | cons name absent read fields ih =>
      cases langs with
      | cons L langs =>
          cases values with
          | nil => exact absurd h id
          | cons s values =>
              obtain ⟨habsent, hs, hrest⟩ := h
              exact ⟨habsent, hs.accepts, ih hrest⟩

/-- The written values are in the languages of the fields. -/
theorem FieldsWritten.holds {fields : Fields types} {langs : Langs types} {values : List String}
    (h : FieldsWritten n fields langs values) :
    ∃ vs, langs.Holds (values.map String.toList) vs := by
  induction fields generalizing values with
  | nil =>
      cases langs
      cases values with
      | nil => exact ⟨(), rfl⟩
      | cons s values => exact absurd h id
  | cons name absent read fields ih =>
      cases langs with
      | cons L langs =>
          cases values with
          | nil => exact absurd h id
          | cons s values =>
              obtain ⟨-, hs, hrest⟩ := h
              obtain ⟨v, hv⟩ := hs.text
              obtain ⟨vs, hvs⟩ := ih hrest
              exact ⟨(v, vs), s.toList, values.map String.toList, rfl, hv, hvs⟩

theorem FieldsWritten.lines {fields : Fields types} {langs : Langs types} {values : List String}
    (h : FieldsWritten n fields langs values) : ∀ s ∈ values, '\n' ∉ s.toList := by
  induction fields generalizing values with
  | nil =>
      cases langs
      cases values with
      | nil => exact fun s hs => absurd hs List.not_mem_nil
      | cons s values => exact absurd h id
  | cons name absent read fields ih =>
      cases langs with
      | cons L langs =>
          cases values with
          | nil => exact absurd h id
          | cons s values => exact List.forall_mem_cons.2 ⟨h.2.1.line, ih h.2.2⟩

/-- What follows a key is its colon and its value. -/
theorem runsOut_colon_bind {f : Unit → Reader α} {text : List Char}
    (h : ∀ m : Cursor, Cut m.rest text → m.rest.length ≤ n → RunsOut (f ()) m) {c : Cursor}
    (hcut : Cut c.rest (':' :: text)) (hn : c.rest.length ≤ n + 1) :
    RunsOut (colon >>= f) c := by
  rcases cut_cons.1 hcut with hnil | ⟨tail, htail, hinside⟩
  · exact (runsOut_colon hnil).bind
  · obtain ⟨m, hm, rfl⟩ := Cursor.exists_passes (a := [':']) htail
    have hlength := hm.length_eq
    rw [List.length_singleton] at hlength
    exact .after (reads_colon.2 (crosses_of_passes hm)) hm.finish_eq (h m hinside (by omega))

theorem store?_ne_none {fields : Fields types} {key : String} (h : key ∈ fields.names)
    (slots : Slots types) : fields.store? slots key ≠ none := by
  induction fields with
  | nil => exact absurd h List.not_mem_nil
  | cons name absent read fields ih =>
      obtain ⟨slot, slots⟩ := slots
      simp only [Fields.store?]
      split
      · exact Option.some_ne_none _
      · rename_i hne
        have hrest := ih ((List.mem_cons.1 h).resolve_left hne) slots
        simpa using hrest

/-- The value of a key is read by the field of that name. -/
theorem runsOut_entry {fields : Fields types} {langs : Langs types} {values : List String}
    (h : FieldsWritten n fields langs values) (hnames : fields.names.Nodup) {name s : String}
    (hmem : (name, s) ∈ fields.names.zip values) {slots slots' : Slots types}
    (hstep : langs.Stores fields slots name s.toList slots') {c : Cursor}
    (hcut : Cut c.rest (':' :: s.toList)) (hn : c.rest.length ≤ n) :
    RunsOut (fields.entry .skipped slots name) c := by
  induction fields generalizing values with
  | nil => simp [Fields.names] at hmem
  | cons first absent read fields ih =>
      cases langs with
      | cons L langs =>
          cases values with
          | nil => exact absurd h id
          | cons s' values =>
              obtain ⟨-, hs, hrest⟩ := h
              obtain ⟨hfirst, hnames⟩ := List.nodup_cons.1 hnames
              obtain ⟨slot, slots⟩ := slots
              obtain ⟨slot', slots'⟩ := slots'
              rw [Fields.names, List.zip_cons_cons] at hmem
              simp only [Fields.entry, Fields.store?]
              simp only [Langs.Stores] at hstep
              by_cases hname : name = first
              · rw [if_pos hname] at hstep ⊢
                obtain ⟨rfl, -, -⟩ := hstep
                obtain rfl : s = s' := by
                  rcases List.mem_cons.1 hmem with heq | hmem
                  · exact (Prod.mk.inj heq).2
                  · exact absurd (hname ▸ (List.of_mem_zip hmem).1) hfirst
                apply runsOut_colon_bind (n := n) (fun m hm hle => ?_) hcut (Nat.le_succ_of_le hn)
                exact (hs.starves m hm hle).bind
              · rw [if_neg hname] at hstep ⊢
                have hmem : (name, s) ∈ fields.names.zip values := by
                  rcases List.mem_cons.1 hmem with heq | hmem
                  · exact absurd (Prod.mk.inj heq).1 hname
                  · exact hmem
                have htail := ih hrest hnames hmem hstep.2
                simp only [Fields.entry] at htail
                cases hstore : fields.store? slots name with
                | some reader =>
                    rw [hstore] at htail
                    exact htail.bind
                | none => exact absurd hstore (store?_ne_none (List.of_mem_zip hmem).1 slots)

/-- The reader of records gets along with a written object, if that is so of every field. -/
theorem record_written {fields : Fields types} {langs : Langs types} {values : List String}
    (h : FieldsWritten n fields langs values) (hnames : fields.names.Nodup)
    (hplain : ∀ name ∈ fields.names, Plain name) (typeName lengthName : String) :
    Written n (record typeName lengthName fields .skipped) (RecordOf fields langs)
      (object (fields.names.zip values)) where
  accepts := record_accepts h.accept hnames typeName lengthName
  text := by
    obtain ⟨vs, hvs⟩ := h.holds
    have hlength : fields.names.length = values.length := by
      simpa using hvs.length_eq.symm
    exact ⟨vs, values.map String.toList, object_record fields.names hplain hnames values hlength,
      hvs⟩
  starves := by
    intro c hcut hn
    obtain ⟨vs, hvs⟩ := h.holds
    have hlength : fields.names.length = values.length := by
      simpa using hvs.length_eq.symm
    have hfst : (fields.names.zip values).map Prod.fst = fields.names :=
      List.map_fst_zip (Nat.le_of_eq hlength)
    have hsteps : Steps (langs.Stores fields) fields.noSlots
        ((fields.names.zip values).map writtenEntry) (filled vs) := by
      refine (steps_filled_iff hnames).2 ⟨values.map String.toList, ?_, hvs⟩
      rw [List.zip_map_right]
      refine covers_written (fun f hf => hplain _ ?_) (by rwa [hfst])
      exact hfst ▸ List.mem_map_of_mem hf
    rw [object_toList] at hcut
    rcases cut_cons.1 hcut with hnil | ⟨tail, htail, hinside⟩
    · exact runsOut_valueStart_bind hnil
    · apply runsOut_dispatch htail (by decide)
      obtain ⟨m, hm, rfl⟩ := Cursor.exists_passes (a := ['\x7b']) htail
      have hle := hm.length_eq
      apply runsOut_advance_bind hm
      apply runsOut_remaining_bind
      apply RunsOut.enclosed
      apply RunsOut.bind
      refine entries_starve (entry_accepts h.accept) hsteps ?_ (Nat.le_refl _) (by omega) hinside
      intro e he slots slots' hstep k hk hle
      obtain ⟨⟨name, s⟩, hmem, rfl⟩ := List.mem_map.1 he
      exact runsOut_entry h hnames hmem hstep hk hle
  line := by
    have hentries : '\n' ∉ [','].intercalate ((fields.names.zip values).map fun field =>
        '"' :: (field.1.toList ++ '"' :: ':' :: field.2.toList)) := by
      apply newline_notMem_intercalate (by decide)
      intro text htext
      obtain ⟨⟨name, s⟩, hmem, rfl⟩ := List.mem_map.1 htext
      obtain ⟨hname, hs⟩ := List.of_mem_zip hmem
      simp [newline_notMem_plain (hplain name hname), h.lines s hs]
    simp [object, Function.comp_def, hentries]

/-! ## Variants -/

/-- A variant without a payload is a quoted name, and a cut of it runs out in the name. -/
theorem bare_starves (variants : List (Variant α)) (name : String) :
    Starves n (oneOf variants) (quote name).toList := by
  refine starves_string (quote_text name) fun c hc => ?_
  have hout : RunsOut (variantName variants) c := hc.bind.located
  exact hout.bind

section Variants

variable {variants : List (Variant α)} {texts : List (VariantText α)}
  (h : List.Forall₂ (VariantAccepts n) variants texts) (hnames : (texts.map (·.name)).Nodup)

include h hnames

/-- A cut of a variant with a payload runs out before the payload, in it, or at the brace. -/
theorem single_starves {v : Variant α} (hv : v ∈ variants) (hplain : Plain v.name)
    {payload : String} {a : α}
    (hpayload : ∀ c d : Cursor, c.Passes payload.toList d → c.rest.length ≤ n → d.rest = [] →
      v.contents.reader.Reads c a d)
    (htapers : Tapers n v.contents.reader payload.toList) :
    Starves (n + 1) (oneOf variants) (single v.name payload).toList := by
  intro c hcut hn
  have htext : (single v.name payload).toList = '\x7b' :: (('"' :: (v.name.toList ++ ['"'])) ++
      (':' :: (payload.toList ++ ['\x7d']))) := by
    simp [single]
  rw [htext] at hcut
  rcases cut_cons.1 hcut with hnil | ⟨tail, htail, hinside⟩
  · exact runsOut_valueStart_bind hnil
  obtain ⟨m, hm, rfl⟩ := Cursor.exists_passes (a := ['\x7b']) htail
  have hlength := hm.length_eq
  rw [List.length_singleton] at hlength
  apply runsOut_dispatch htail (by decide)
  apply runsOut_advance_bind hm
  rcases hfront : m.rest with _ | ⟨y, tail⟩
  · exact runsOut_sign hfront (runsOut_failAhead .object hfront)
  obtain rfl : y = '"' := by
    rw [hfront, List.cons_append] at hinside
    rcases cut_cons.1 hinside with hnil | ⟨_, heq, -⟩
    · exact absurd hnil (by simp)
    · exact (List.cons.inj heq).1
  have hquote : m.rest.head? = some '"' := by rw [hfront]; rfl
  apply runsOut_skipBlanks_bind (stops_of_head hfront (by decide))
  apply runsOut_peek_bind
  rw [hquote]
  rcases cut_append.1 hinside with hkey | ⟨_, hkey, hafter⟩
  · exact ((runsOut_string (plain_text hplain) hkey (by simp [hfront])).bind.located).bind
  obtain ⟨k, hk, rfl⟩ := Cursor.exists_passes hkey
  have hle := hk.length_eq
  have hread : (variantName variants).Reads m v.contents k :=
    (reads_variantName (names_eq h ▸ hnames) hquote).2 ⟨v, hv, rfl, _, plain_text hplain, hk⟩
  refine .after hread hk.finish_eq ?_
  refine runsOut_colon_bind (n := n) (fun e hcut hn => ?_) hafter (by omega)
  rcases cut_append.1 hcut with hinside | ⟨_, hvalue, hclose⟩
  · rcases htapers e hinside hn with hout | ⟨a, d, hread, hd⟩
    · exact hout.bind
    · have hend : d.rest = [] := by simpa using hd.rest_eq
      exact .after hread hd.finish_eq (runsOut_closeVariant hend).bind
  · obtain ⟨d, hd, rfl⟩ := Cursor.exists_passes hvalue
    have hend := cut_singleton.1 hclose
    exact .after (hpayload e d hd hn hend) hd.finish_eq (runsOut_closeVariant hend).bind

/-- A variant is written with the payload of its reader. -/
theorem single_written {i : Nat} {v : Variant α} {t : VariantText α} (hv : variants[i]? = some v)
    (ht : texts[i]? = some t) (hplain : Plain v.name) {payload : String}
    (htext : ∃ a, t.payload payload.toList a)
    (htapers : Tapers n v.contents.reader payload.toList) (hline : '\n' ∉ payload.toList) :
    Written (n + 1) (oneOf variants) (fun p a => ∃ t ∈ texts, t.Text p a)
      (single v.name payload) := by
  obtain ⟨hi, rfl⟩ := List.getElem?_eq_some_iff.1 hv
  obtain ⟨hi', rfl⟩ := List.getElem?_eq_some_iff.1 ht
  obtain ⟨a, ha⟩ := htext
  have htv : VariantAccepts n variants[i] texts[i] := h.get hi hi'
  exact {
    accepts := oneOf_accepts h hnames
    text := by
      refine ⟨a, texts[i], List.getElem_mem hi', .inl ⟨payload.toList, ?_, ha⟩⟩
      rw [htv.name]
      exact single_solid hplain payload
    starves := by
      refine single_starves h hnames (a := a) (List.getElem_mem hi) hplain
        (fun c d hd hn hend => ?_) htapers
      exact htv.payload.reads_front ha hd hn fun x hx => by simp [hend] at hx
    line := by
      simp [single, newline_notMem_plain hplain, hline] }

/-- A variant without contents is written as its name. -/
theorem bare_written {i : Nat} {t : VariantText α} (ht : texts[i]? = some t) {name : String}
    (hname : t.name = name) {a : α} (hbare : t.bare = some a) :
    Written (n + 1) (oneOf variants) (fun p a => ∃ t ∈ texts, t.Text p a) (quote name) where
  accepts := oneOf_accepts h hnames
  text := by
    refine ⟨a, t, List.mem_of_getElem? ht, .inr ⟨hbare, ?_⟩⟩
    rw [hname]
    exact quote_text name
  starves := bare_starves variants name
  line := newline_notMem_quote name

end Variants

end Json

end SyntaxTree
