import SyntaxTree.Proofs.Json.Writer

/-! # Texts that end too early

A reader that is given the front of a text it would accept runs out of input: it fails where the
text ends, and says so. The lemmas follow the readers; at each of them the text may end before it,
inside it or after it. -/

namespace SyntaxTree

namespace Text

/-- The text goes on after `front`. -/
def Cut (front text : List Char) : Prop := ∃ x rest, text = front ++ x :: rest

theorem not_cut_nil {front : List Char} : ¬ Cut front [] := by
  rintro ⟨x, rest, h⟩
  simp at h

/-- A cut of a text is empty or a cut behind its first character. -/
theorem cut_cons {front text : List Char} {x : Char} :
    Cut front (x :: text) ↔ front = [] ∨ ∃ tail, front = x :: tail ∧ Cut tail text := by
  constructor
  · rintro ⟨y, rest, h⟩
    cases front with
    | nil => exact .inl rfl
    | cons z tail =>
        obtain ⟨rfl, rfl⟩ := List.cons.inj h
        exact .inr ⟨tail, rfl, y, rest, rfl⟩
  · rintro (rfl | ⟨tail, rfl, y, rest, rfl⟩)
    · exact ⟨x, text, rfl⟩
    · exact ⟨y, rest, rfl⟩

/-- A cut of two texts is one of the first, or the first and a cut of the second. -/
theorem cut_append {front a b : List Char} :
    Cut front (a ++ b) ↔ Cut front a ∨ ∃ tail, front = a ++ tail ∧ Cut tail b := by
  induction a generalizing front with
  | nil => simp [not_cut_nil]
  | cons x a ih =>
      rw [List.cons_append, cut_cons, cut_cons]
      constructor
      · rintro (rfl | ⟨tail, rfl, h⟩)
        · exact .inl (.inl rfl)
        · rcases ih.1 h with hfirst | ⟨rest, rfl, hrest⟩
          · exact .inl (.inr ⟨tail, rfl, hfirst⟩)
          · exact .inr ⟨rest, rfl, hrest⟩
      · rintro ((rfl | ⟨tail, rfl, h⟩) | ⟨rest, rfl, h⟩)
        · exact .inl rfl
        · exact .inr ⟨tail, rfl, ih.2 (.inl h)⟩
        · exact .inr ⟨a ++ rest, rfl, ih.2 (.inr ⟨rest, rfl, h⟩)⟩

theorem cut_singleton {front : List Char} {x : Char} : Cut front [x] ↔ front = [] := by
  simp [cut_cons, not_cut_nil]

namespace Cursor

/-- The number of bytes of the whole text. -/
def finish (c : Cursor) : Nat := c.offset + byteLength c.rest

theorem Passes.finish_eq {c d : Cursor} {text : List Char} (h : c.Passes text d) :
    d.finish = c.finish := by
  rw [finish, finish, h.rest_eq, h.offset_eq, byteLength_append, Nat.add_assoc]

theorem finish_of_rest {c : Cursor} (h : c.rest = []) : c.finish = c.offset := by
  rw [finish, h, byteLength_nil, Nat.add_zero]

/-- The place after the first part of what is left. -/
theorem exists_passes {c : Cursor} {a b : List Char} (h : c.rest = a ++ b) :
    ∃ d, c.Passes a d ∧ d.rest = b := ⟨⟨b, c.offset + byteLength a⟩, ⟨h, rfl⟩, rfl⟩

end Cursor

end Text

namespace Json

open Text (Cursor byteLength hexNumber? Cut cut_cons cut_append cut_singleton)
open Reader Grammar

variable {α β : Type}

/-! ## Running out of input -/

/-- The reader fails where the text ends, for want of more. -/
def RunsOut (r : Reader α) (c : Cursor) : Prop :=
  ∃ inside stop, r.on c = (.error ⟨.endOfInput inside, some c.finish⟩, stop)

section Rules

variable {r : Reader α} {f : α → Reader β} {c m : Cursor}

theorem RunsOut.bind (h : RunsOut r c) : RunsOut (r >>= f) c := by
  obtain ⟨inside, stop, h⟩ := h
  exact ⟨inside, stop, on_bind_of_fault h⟩

/-- What is read first leaves the end of the text where it is. -/
theorem RunsOut.after {a : α} (hr : r.Reads c a m) (hm : m.finish = c.finish)
    (h : RunsOut (f a) m) : RunsOut (r >>= f) c := by
  obtain ⟨inside, stop, h⟩ := h
  refine ⟨inside, stop, ?_⟩
  rw [on_bind_of_reads hr]
  exact hm ▸ h

theorem RunsOut.map {g : α → β} (h : RunsOut r c) : RunsOut (g <$> r) c := by
  rw [map_eq_pure_bind]
  exact h.bind

/-- Looking at the next character does not change whether the rest runs out. -/
theorem runsOut_peek_bind {f : Option Char → Reader β} (h : RunsOut (f c.rest.head?) c) :
    RunsOut (peek >>= f) c :=
  .after (reads_peek.2 ⟨rfl, rfl⟩) rfl h

theorem runsOut_remaining_bind {f : Nat → Reader β} (h : RunsOut (f c.rest.length) c) :
    RunsOut (remaining >>= f) c :=
  .after (r := remaining) (m := c) rfl rfl h

theorem runsOut_advance_bind {f : Unit → Reader β} {x : Char} (hm : c.Passes [x] m)
    (h : RunsOut (f ()) m) : RunsOut (advance >>= f) c := by
  obtain ⟨-, rfl⟩ := Cursor.passes_singleton.1 hm
  exact .after (reads_advance.2 rfl) hm.finish_eq h

theorem RunsOut.located (h : RunsOut r c) : RunsOut (located r) c := by
  obtain ⟨inside, stop, h⟩ := h
  refine ⟨inside, stop, ?_⟩
  change ((r.on c).1.mapError (Fault.locate (r.on c).2.offset), (r.on c).2) = _
  rw [h]
  rfl

/-- The end of a bracket is looked for after the fault, which stays the one that is reported. -/
theorem RunsOut.enclosed {close : Reader Unit} (h : RunsOut r c) :
    RunsOut (enclosed r close) c := by
  obtain ⟨inside, stop, h⟩ := h
  apply RunsOut.located
  refine ⟨inside, (close.on stop).2, ?_⟩
  rw [on_ofStep, h]

/-- At the end of the text, the fault ahead is at the end. -/
theorem runsOut_failAhead (inside : Construct) (hc : c.rest = []) :
    RunsOut (failAhead (.endOfInput inside) : Reader α) c := by
  refine ⟨inside, c, ?_⟩
  change (Except.error _, c) = _
  rw [hc, Cursor.finish_of_rest hc]
  rfl

theorem runsOut_skipBlanks_bind {f : Unit → Reader β} (hc : Stops isBlank c)
    (h : RunsOut (f ()) c) : RunsOut (skipBlanks >>= f) c :=
  .after (skipBlanks_of_blank blank_nil (Cursor.passes_nil.2 rfl) hc) rfl h

theorem stops_of_rest {test : Char → Bool} (hc : c.rest = []) : Stops test c := by
  intro x hx
  simp [hc] at hx

theorem stops_of_head {test : Char → Bool} {x : Char} {rest : List Char} (hc : c.rest = x :: rest)
    (hx : test x = false) : Stops test c := by
  intro y hy
  rw [hc, List.head?_cons, Option.mem_some_iff] at hy
  exact hy ▸ hx

end Rules

/-! ## Signs -/

section Signs

variable {c : Cursor} (hc : c.rest = [])

include hc

/-- A reader that skips blanks and finds the text at its end. -/
theorem runsOut_sign {after : Option Char → Reader α} (h : RunsOut (after none) c) :
    RunsOut (do skipBlanks; after (← peek)) c := by
  apply runsOut_skipBlanks_bind (stops_of_rest hc)
  apply runsOut_peek_bind
  rwa [hc]

theorem runsOut_colon : RunsOut colon c := runsOut_sign hc (runsOut_failAhead .object hc)

theorem runsOut_nextElement (first : Bool) : RunsOut (nextElement first) c :=
  runsOut_sign hc (runsOut_failAhead .list hc)

theorem runsOut_nextKey (first : Bool) : RunsOut (nextKey first) c :=
  runsOut_sign hc (runsOut_failAhead .object hc)

theorem runsOut_closeVariant : RunsOut closeVariant c := by
  apply runsOut_sign hc
  exact ⟨.object, c, by rw [Cursor.finish_of_rest hc]; rfl⟩

theorem runsOut_valueStart_bind {f : Char → Reader α} : RunsOut (valueStart >>= f) c :=
  .bind (runsOut_sign hc (runsOut_failAhead .value hc))

end Signs

/-- A reader of values sees the first character of a value that is cut later. -/
theorem runsOut_dispatch {f : Char → Reader α} {c : Cursor} {x : Char} {rest : List Char}
    (hc : c.rest = x :: rest) (hx : isBlank x = false) (h : RunsOut (f x) c) :
    RunsOut (do f (← valueStart)) c := by
  refine .after (reads_valueStart.2 ⟨?_, by rw [hc]; rfl⟩) rfl h
  exact skipBlanks_of_blank blank_nil (Cursor.passes_nil.2 rfl) (stops_of_head hc hx)

/-! ## Strings -/

/-- Fewer than four hexadecimal digits are taken for the end of the text. -/
theorem hexFault_of_short {offset : Nat} {rest : List Char} (hrest : rest.length < 4)
    (hsize : ∀ c ∈ rest, c.utf8Size = 1) :
    hexFault offset rest = ⟨.endOfInput .string, some (offset + byteLength rest)⟩ := by
  have hbytes : byteLength rest = rest.length := Text.byteLength_eq_length hsize
  rw [hexFault, List.take_of_length_le (Nat.le_of_lt hrest), if_pos (hbytes ▸ hrest)]

/-- Four digits are either cut or all there. -/
theorem cut_digits {front text : List Char} {a b c d : Char}
    (h : Cut front (a :: b :: c :: d :: text)) :
    (front.length < 4 ∧ ∀ x ∈ front, x ∈ [a, b, c, d]) ∨
      ∃ tail, front = a :: b :: c :: d :: tail ∧ Cut tail text := by
  rcases cut_append.1 (show Cut front ([a, b, c, d] ++ text) from h) with h | h
  · obtain ⟨x, rest, h⟩ := h
    refine .inl ⟨?_, fun y hy => h ▸ List.mem_append_left _ hy⟩
    have hlength := congrArg List.length h
    simp only [List.length_append, List.length_cons, List.length_nil] at hlength
    omega
  · exact .inr h

/-- The code of an escape is cut. -/
theorem scanString_short {rest : List Char} (hrest : rest.length < 4)
    (hsize : ∀ c ∈ rest, c.utf8Size = 1) (seen : List Char) (offset : Nat) :
    scanString seen offset ('\\' :: 'u' :: rest) =
      (.error ⟨.endOfInput .string, some (offset + byteLength ('\\' :: 'u' :: rest))⟩,
        ⟨rest, offset + 2⟩) := by
  have hscan : scanString seen offset ('\\' :: 'u' :: rest) =
      (.error (hexFault (offset + 2) rest), ⟨rest, offset + 2⟩) := by
    match rest, hrest with
    | [], _ => rfl
    | [_], _ => rfl
    | [_, _], _ => rfl
    | [_, _, _], _ => rfl
  rw [hscan, hexFault_of_short hrest hsize]
  simp
  omega

/-- The second code of a pair is cut. -/
theorem scanString_short_pair {a b c d : Char} {high : Nat}
    (hhigh : hexNumber? [a, b, c, d] = some high) (hh : isHighSurrogate high = true)
    {rest : List Char} (hrest : rest.length < 4)
    (hsize : ∀ c ∈ rest, c.utf8Size = 1) (seen : List Char) (offset : Nat) :
    scanString seen offset ('\\' :: 'u' :: a :: b :: c :: d :: '\\' :: 'u' :: rest) =
      (.error ⟨.endOfInput .string,
        some (offset + byteLength ('\\' :: 'u' :: a :: b :: c :: d :: '\\' :: 'u' :: rest))⟩,
        ⟨rest, offset + 8⟩) := by
  have hlow := not_isLowSurrogate hh
  have hscan : scanString seen offset ('\\' :: 'u' :: a :: b :: c :: d :: '\\' :: 'u' :: rest) =
      (.error (hexFault (offset + 8) rest), ⟨rest, offset + 8⟩) := by
    match rest, hrest with
    | [], _ => simp [scanString, hhigh, hh, hlow]
    | [_], _ => simp [scanString, hhigh, hh, hlow]
    | [_, _], _ => simp [scanString, hhigh, hh, hlow]
    | [_, _, _], _ => simp [scanString, hhigh, hh, hlow]
  have hlength := Text.hexNumber?_byteLength hhigh
  rw [hscan, hexFault_of_short hrest hsize]
  simp at hlength ⊢
  omega

/-- A string may be cut between two characters, and inside each form of an escape. -/
theorem scanString_cut {body value front : List Char} (h : Letters body value)
    (hcut : Cut front (body ++ ['"'])) (seen : List Char) (offset : Nat) :
    ∃ stop, scanString seen offset front =
      (.error ⟨.endOfInput .string, some (offset + byteLength front)⟩, stop) := by
  induction h generalizing front seen offset with
  | nil =>
      obtain rfl := cut_singleton.1 hcut
      exact ⟨_, rfl⟩
  | @plain c text value h₁ h₂ h₃ _ ih =>
      rcases cut_cons.1 hcut with rfl | ⟨tail, rfl, htail⟩
      · exact ⟨_, rfl⟩
      · have hc : ¬ c.toNat < 0x20 := by omega
        obtain ⟨stop, hstop⟩ := ih htail (c :: seen) (offset + c.utf8Size)
        refine ⟨stop, ?_⟩
        rw [scanString]
        · simp [hc, hstop, Nat.add_assoc]
        · exact h₁
        · exact h₂
  | @short e c text value he _ ih =>
      have hc := shortEscape?_eq_some_iff.2 he
      simp only [List.cons_append, cut_cons] at hcut
      rcases hcut with rfl | ⟨_, rfl, rfl | ⟨tail, rfl, hcut⟩⟩
      · exact ⟨_, rfl⟩
      · exact ⟨_, rfl⟩
      · obtain ⟨stop, hstop⟩ := ih hcut (c :: seen) (offset + 2)
        have hsize := shortEscape?_utf8Size hc
        refine ⟨stop, ?_⟩
        rw [scanString]
        · simp [hc, hsize, hstop]
          omega
        · exact shortEscape?_ne hc
  | @code a b c d x text value hcode _ ih =>
      have hx := hexNumber?_eq_some_iff.2 hcode
      rcases cut_cons.1 hcut with rfl | ⟨_, rfl, hmark⟩
      · exact ⟨_, rfl⟩
      rcases cut_cons.1 hmark with rfl | ⟨_, rfl, hdigits⟩
      · exact ⟨_, rfl⟩
      rcases cut_digits hdigits with ⟨hlength, hmem⟩ | ⟨tail, rfl, htail⟩
      · exact ⟨_, scanString_short hlength
          (fun y hy => Text.hexNumber?_utf8Size hx y (hmem y hy)) seen offset⟩
      · obtain ⟨stop, hstop⟩ := ih htail (x :: seen) (offset + 6)
        have hlength := Text.hexNumber?_byteLength hx
        obtain ⟨hhigh, hlow⟩ := not_surrogate x
        refine ⟨stop, ?_⟩
        simp only [scanString, hx, hhigh, hlow, Char.ofNat_toNat, hstop]
        simp at hlength ⊢
        omega
  | @pair a b c d a' b' c' d' x high low text value hcode hh hcode' hl hx _ ih =>
      have hpair := (joinSurrogates_eq_iff hh hl).2 hx
      rw [← isHighSurrogate_iff] at hh
      rw [← isLowSurrogate_iff] at hl
      have hhigh := hexNumber?_eq_some_iff.2 hcode
      have hlow := hexNumber?_eq_some_iff.2 hcode'
      have hne := not_isLowSurrogate hh
      have hlength := Text.hexNumber?_byteLength hhigh
      rcases cut_cons.1 hcut with rfl | ⟨_, rfl, hmark⟩
      · exact ⟨_, rfl⟩
      rcases cut_cons.1 hmark with rfl | ⟨_, rfl, hdigits⟩
      · exact ⟨_, rfl⟩
      rcases cut_digits hdigits with ⟨hlength, hmem⟩ | ⟨_, rfl, hsecond⟩
      · exact ⟨_, scanString_short hlength
          (fun x hx => Text.hexNumber?_utf8Size hhigh x (hmem x hx)) seen offset⟩
      rcases cut_cons.1 hsecond with rfl | ⟨_, rfl, hmark'⟩
      · refine ⟨⟨[], offset + 6⟩, ?_⟩
        simp [scanString, hhigh, hh, hne]
        simp at hlength
        omega
      rcases cut_cons.1 hmark' with rfl | ⟨_, rfl, hdigits'⟩
      · refine ⟨⟨[], offset + 7⟩, ?_⟩
        simp [scanString, hhigh, hh, hne]
        simp at hlength
        omega
      rcases cut_digits hdigits' with ⟨hshort, hmem⟩ | ⟨tail, rfl, htail⟩
      · exact ⟨_, scanString_short_pair hhigh hh hshort
          (fun x hx => Text.hexNumber?_utf8Size hlow x (hmem x hx)) seen offset⟩
      · obtain ⟨stop, hstop⟩ := ih htail (x :: seen) (offset + 12)
        have hlength' := Text.hexNumber?_byteLength hlow
        refine ⟨stop, ?_⟩
        simp only [scanString, hhigh, hh, hne, hlow, hl, hpair, hstop]
        simp at hlength hlength' ⊢
        omega

/-- A string cut anywhere runs out. -/
theorem runsOut_string {c : Cursor} {text : List Char} {value : String} (h : StringText text value)
    (hcut : Cut c.rest text) (hne : c.rest ≠ []) : RunsOut string c := by
  obtain ⟨body, rfl, hbody⟩ := h
  rcases cut_cons.1 hcut with hnil | ⟨tail, htail, hcut⟩
  · exact absurd hnil hne
  · obtain ⟨m, hm, rfl⟩ := Cursor.exists_passes (a := ['"']) htail
    apply runsOut_advance_bind hm
    obtain ⟨stop, hstop⟩ := scanString_cut hbody hcut [] m.offset
    exact ⟨.string, stop, hstop⟩

end Json

end SyntaxTree
