import SyntaxTree.Proofs.Json.Token

/-! # Reading strings

The reader of strings accepts exactly the strings of the grammar and gives what they spell. The
reader that passes over a string accepts any code in an escape. -/

namespace SyntaxTree

namespace Text

theorem utf8Size_of_le {c : Char} (h : c ≤ '\x7f') : c.utf8Size = 1 := by
  have hv : c.val ≤ 0x7f := h
  simp [Char.utf8Size, hv]

/-- An ASCII character takes one byte. -/
theorem utf8Size_of_ascii {c : Char} (h : c.toNat < 0x80) : c.utf8Size = 1 :=
  utf8Size_of_le (Nat.le_of_lt_succ h)

/-- In a text of such characters bytes and characters are the same. -/
theorem byteLength_eq_length {text : List Char} (h : ∀ c ∈ text, c.utf8Size = 1) :
    byteLength text = text.length := by
  induction text with
  | nil => rfl
  | cons c text ih =>
      obtain ⟨hc, htext⟩ := List.forall_mem_cons.1 h
      rw [byteLength_cons, hc, ih htext, List.length_cons, Nat.add_comm]

@[simp] theorem utf8Size_quote : '"'.utf8Size = 1 := rfl

@[simp] theorem utf8Size_backslash : '\\'.utf8Size = 1 := rfl

@[simp] theorem utf8Size_u : 'u'.utf8Size = 1 := rfl

theorem hexDigit?_utf8Size {c : Char} {n : Nat} (h : hexDigit? c = some n) : c.utf8Size = 1 := by
  apply utf8Size_of_le
  unfold hexDigit? at h
  split at h
  · rename_i hc
    exact Char.le_trans hc.2 (by decide)
  · split at h
    · rename_i hc
      exact Char.le_trans hc.2 (by decide)
    · split at h
      · rename_i hc
        exact Char.le_trans hc.2 (by decide)
      · simp at h

/-- The digits of a code are ASCII. -/
theorem hexNumber?_utf8Size {digits : List Char} {n : Nat} (h : hexNumber? digits = some n) :
    ∀ c ∈ digits, c.utf8Size = 1 := by
  unfold hexNumber? at h
  generalize 0 = start at h
  induction digits generalizing start with
  | nil => simp
  | cons c digits ih =>
      simp only [List.foldlM_cons, Option.bind_eq_bind, Option.bind_eq_some_iff,
        Option.map_eq_some_iff] at h
      obtain ⟨_, ⟨_, hc, rfl⟩, h⟩ := h
      intro x hx
      rcases List.mem_cons.1 hx with rfl | hx
      · exact hexDigit?_utf8Size hc
      · exact ih _ h x hx

/-- A code takes four bytes, which is what the offsets of its faults count. -/
theorem hexNumber?_byteLength {a b c d : Char} {n : Nat} (h : hexNumber? [a, b, c, d] = some n) :
    byteLength [a, b, c, d] = 4 := byteLength_eq_length (hexNumber?_utf8Size h)

end Text

namespace Json

open Text (Cursor byteLength hexNumber?)
open Reader Grammar

/-- The letter of a short escape takes one byte. -/
theorem shortEscape?_utf8Size {e c : Char} (h : shortEscape? e = some c) : e.utf8Size = 1 := by
  unfold shortEscape? at h
  split at h <;> first | rfl | simp at h

/-- No short escape is mistaken for a code. -/
theorem shortEscape?_ne {e c : Char} (h : shortEscape? e = some c) : e ≠ 'u' := by
  rintro rfl
  simp [shortEscape?] at h

/-- The two halves of a pair are told apart by their range. -/
theorem not_isLowSurrogate {n : Nat} (h : isHighSurrogate n = true) :
    isLowSurrogate n = false := by
  simp only [isHighSurrogate, isLowSurrogate, Bool.and_eq_true, decide_eq_true_eq,
    Bool.and_eq_false_iff, decide_eq_false_iff_not] at h ⊢
  omega

/-- A scan that succeeds has passed the letters of a string and its closing quote, and gives what
they stand for after what had been read before. The induction follows the scan, so only the branches
that go on remain. -/
theorem scanString_sound {seen : List Char} {offset : Nat} {rest : List Char} {s : String}
    {d : Cursor} (h : scanString seen offset rest = (.ok s, d)) :
    ∃ body value, Letters body value ∧ Cursor.Passes ⟨rest, offset⟩ (body ++ ['"']) d ∧
      s.toList = seen.reverse ++ value := by
  fun_induction scanString seen offset rest with
  | case2 seen offset rest =>
      simp only [Prod.mk.injEq, Except.ok.injEq] at h
      obtain ⟨rfl, rfl⟩ := h
      exact ⟨[], [], .nil, ⟨rfl, rfl⟩, by simp⟩
  | case7 seen offset a b c d high hhigh h₁ h₂ a' b' c' d' rest low hlow h₃ ih =>
      obtain ⟨body, value, hb, ⟨hr, ho⟩, hs⟩ := ih h
      have hpair := (joinSurrogates_eq_iff (isHighSurrogate_iff.1 h₂) (isLowSurrogate_iff.1 h₃)).1 rfl
      refine ⟨_, _, .pair (hexNumber?_eq_some_iff.1 hhigh) (isHighSurrogate_iff.1 h₂)
        (hexNumber?_eq_some_iff.1 hlow) (isLowSurrogate_iff.1 h₃) hpair hb, ⟨?_, ?_⟩,
        by simpa using hs⟩
      · simpa using hr
      · have hn := Text.hexNumber?_byteLength hhigh
        have hn' := Text.hexNumber?_byteLength hlow
        simp at hn hn' ho ⊢
        omega
  | case14 seen offset a b c d rest n hn h₁ h₂ ih =>
      obtain ⟨body, value, hb, ⟨hr, ho⟩, hs⟩ := ih h
      have hcode := hexNumber?_eq_some_iff.1 hn
      rw [← toNat_ofNat_of_code hcode (by simpa using h₂) (by simpa using h₁)] at hcode
      refine ⟨_, _, .code hcode hb, ⟨?_, ?_⟩, by simpa using hs⟩
      · simpa using hr
      · have hn := Text.hexNumber?_byteLength hn
        simp at hn ho ⊢
        omega
  | case16 seen offset e rest hne c hc ih =>
      obtain ⟨body, value, hb, ⟨hr, ho⟩, hs⟩ := ih h
      refine ⟨_, _, .short (shortEscape?_eq_some_iff.1 hc) hb, ⟨?_, ?_⟩, by simpa using hs⟩
      · simpa using hr
      · have he := shortEscape?_utf8Size hc
        simp at ho ⊢
        omega
  | case19 seen offset c rest h₁ h₂ h₃ ih =>
      obtain ⟨body, value, hb, ⟨hr, ho⟩, hs⟩ := ih h
      refine ⟨_, _, .plain h₁ h₂ (by omega) hb, ⟨?_, ?_⟩, by simpa using hs⟩
      · simpa using hr
      · simp at ho ⊢
        omega
  | _ => simp at h

/-- Letters in front of a closing quote are scanned to their end. The induction is on the letters,
each of which is one branch of the scan. -/
theorem scanString_complete {body value : List Char} (h : Letters body value) (seen : List Char)
    (offset : Nat) (rest : List Char) :
    scanString seen offset (body ++ '"' :: rest) =
      (.ok (String.ofList (seen.reverse ++ value)), ⟨rest, offset + byteLength body + 1⟩) := by
  induction h generalizing seen offset with
  | nil => simp [scanString]
  | @plain c text value h₁ h₂ h₃ _ ih =>
      have hc : ¬ c.toNat < 0x20 := by omega
      rw [List.cons_append, scanString]
      · simp [hc, ih, Nat.add_assoc]
      · exact h₁
      · exact h₂
  | @short e c text value he _ ih =>
      have hc := shortEscape?_eq_some_iff.2 he
      have hsize := shortEscape?_utf8Size hc
      rw [List.cons_append, List.cons_append, scanString]
      · simp [hc, ih, hsize]
        omega
      · exact shortEscape?_ne hc
  | @code a b c d x text value hcode _ ih =>
      have hx := hexNumber?_eq_some_iff.2 hcode
      have hl := Text.hexNumber?_byteLength hx
      obtain ⟨hhigh, hlow⟩ := not_surrogate x
      simp only [List.cons_append, scanString, hx, hhigh, hlow, Char.ofNat_toNat, ih]
      simp at hl ⊢
      omega
  | @pair a b c d a' b' c' d' x high low text value hcode hhigh hcode' hlow hx _ ih =>
      have hpair := (joinSurrogates_eq_iff hhigh hlow).2 hx
      rw [← isHighSurrogate_iff] at hhigh
      rw [← isLowSurrogate_iff] at hlow
      rw [← hexNumber?_eq_some_iff] at hcode hcode'
      have hn := Text.hexNumber?_byteLength hcode
      have hn' := Text.hexNumber?_byteLength hcode'
      have hh' := not_isLowSurrogate hhigh
      simp only [List.cons_append, scanString, hcode, hhigh, hh', hcode', hlow, hpair, ih]
      simp at hn hn' ⊢
      omega

/-- A string is read exactly where one stands, and what it spells is the value. -/
theorem reads_string {s : String} {c d : Cursor} (hq : c.rest.head? = some '"') :
    string.Reads c s d ↔ ∃ text, StringText text s ∧ c.Passes text d := by
  rw [string, reads_advance_bind, reads_ofStep]
  constructor
  · intro h
    obtain ⟨body, value, hb, hp, hs⟩ := scanString_sound h
    refine ⟨'"' :: (body ++ ['"']), ⟨body, rfl, by simpa [hs] using hb⟩, ?_⟩
    exact Cursor.passes_cons.2 ⟨c.next, Cursor.passes_singleton.2 ⟨hq, rfl⟩, hp⟩
  · rintro ⟨text, ⟨body, rfl, hb⟩, hp⟩
    obtain ⟨m, hm, hr, ho⟩ := Cursor.passes_cons.1 hp
    obtain ⟨-, rfl⟩ := Cursor.passes_singleton.1 hm
    rw [hr, List.append_assoc, List.singleton_append, scanString_complete hb]
    simp only [byteLength, Text.byteLength_append, Text.utf8Size_quote] at ho
    simp only [List.reverse_nil, List.nil_append, String.ofList_toList, Nat.add_assoc, ← ho]

/-! ## Strings that are passed over -/

/-- A string that is passed over has the form of one, but its codes may be any. -/
theorem scanSkipped_sound {offset : Nat} {rest : List Char} {u : Unit} {d : Cursor}
    (h : scanSkipped offset rest = (.ok u, d)) :
    ∃ body, LooseLetters body ∧ Cursor.Passes ⟨rest, offset⟩ (body ++ ['"']) d := by
  fun_induction scanSkipped offset rest with
  | case2 offset rest =>
      obtain ⟨-, rfl⟩ := Prod.mk.inj h
      exact ⟨[], .nil, ⟨rfl, rfl⟩⟩
  | case5 offset a b c d rest n hn ih =>
      obtain ⟨body, hb, ⟨hr, ho⟩⟩ := ih h
      refine ⟨_, .code (hexNumber?_eq_some_iff.1 hn) hb, ⟨by simpa using hr, ?_⟩⟩
      have hn := Text.hexNumber?_byteLength hn
      simp at hn ho ⊢
      omega
  | case7 offset e rest hne c hc ih =>
      obtain ⟨body, hb, ⟨hr, ho⟩⟩ := ih h
      refine ⟨_, .short (shortEscape?_eq_some_iff.1 hc) hb, ⟨by simpa using hr, ?_⟩⟩
      have he := shortEscape?_utf8Size hc
      simp at ho ⊢
      omega
  | case10 offset c rest h₁ h₂ h₃ ih =>
      obtain ⟨body, hb, ⟨hr, ho⟩⟩ := ih h
      refine ⟨_, .plain h₁ h₂ (by omega) hb, ⟨by simpa using hr, ?_⟩⟩
      simp at ho ⊢
      omega
  | _ => simp at h

/-- Letters of that form are passed over up to and with the closing quote. -/
theorem scanSkipped_complete {body : List Char} (h : LooseLetters body) (offset : Nat)
    (rest : List Char) :
    scanSkipped offset (body ++ '"' :: rest) =
      (.ok (), ⟨rest, offset + byteLength body + 1⟩) := by
  induction h generalizing offset with
  | nil => simp [scanSkipped]
  | @plain c text h₁ h₂ h₃ _ ih =>
      have hc : ¬ c.toNat < 0x20 := by omega
      rw [List.cons_append, scanSkipped]
      · simp [hc, ih, Nat.add_assoc]
      · exact h₁
      · exact h₂
  | @short e c text he _ ih =>
      have hc := shortEscape?_eq_some_iff.2 he
      have hsize := shortEscape?_utf8Size hc
      rw [List.cons_append, List.cons_append, scanSkipped]
      · simp [hc, ih, hsize]
        omega
      · exact shortEscape?_ne hc
  | @code a b c d n text hcode _ ih =>
      have hn := hexNumber?_eq_some_iff.2 hcode
      have hl := Text.hexNumber?_byteLength hn
      simp only [List.cons_append, scanSkipped, hn, ih]
      simp at hl ⊢
      omega

/-- A string is passed over exactly where the form of one stands. -/
theorem reads_skipString {c d : Cursor} (hq : c.rest.head? = some '"') :
    skipString.Reads c () d ↔ ∃ text, LooseStringText text ∧ c.Passes text d := by
  rw [skipString, reads_advance_bind, reads_ofStep]
  constructor
  · intro h
    obtain ⟨body, hb, hp⟩ := scanSkipped_sound h
    refine ⟨'"' :: (body ++ ['"']), ⟨body, rfl, hb⟩, ?_⟩
    exact Cursor.passes_cons.2 ⟨c.next, Cursor.passes_singleton.2 ⟨hq, rfl⟩, hp⟩
  · rintro ⟨text, ⟨body, rfl, hb⟩, hp⟩
    obtain ⟨m, hm, hr, ho⟩ := Cursor.passes_cons.1 hp
    obtain ⟨-, rfl⟩ := Cursor.passes_singleton.1 hm
    rw [hr, List.append_assoc, List.singleton_append, scanSkipped_complete hb]
    simp only [byteLength, Text.byteLength_append, Text.utf8Size_quote] at ho
    simp only [Nat.add_assoc, ← ho]

end Json

end SyntaxTree
