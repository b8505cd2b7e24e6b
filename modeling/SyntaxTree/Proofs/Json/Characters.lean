import SyntaxTree.Proofs.Json.Grammar

/-! # The characters of the format

The tests and tables of the reader are those that the grammar lists: its blanks, its digits with
their values, its escapes and its surrogates. -/

namespace SyntaxTree

namespace Json

open Text (hexDigit? hexNumber?)
open Reader Grammar

/-! ## Blanks and decimal digits -/

theorem isBlank_iff {x : Char} : isBlank x = true ↔ x = ' ' ∨ x = '\n' ∨ x = '\t' ∨ x = '\r' := by
  simp [isBlank, or_assoc]

/-- The reader passes over the blanks of the format and over nothing else. -/
theorem blank_iff {text : List Char} : Blank text ↔ ∀ c ∈ text, isBlank c = true := by
  simp only [Blank, isBlank_iff, List.mem_cons, List.not_mem_nil, or_false]

/-- The digits of the reader are the ten decimal digits. -/
theorem isDigit_eq (c : Char) : isDigit c = c.isDigit := by
  simp only [isDigit, Char.isDigit, Char.le_def]

theorem digits_iff {text : List Char} :
    Digits text ↔ text ≠ [] ∧ ∀ c ∈ text, isDigit c = true := by
  simp only [Digits, isDigit_eq]

theorem Grammar.Digits.isDigit {text : List Char} (h : Digits text) :
    ∀ c ∈ text, Json.isDigit c = true := (digits_iff.1 h).2

/-- The number that digits write is the one that the reader adds up from the left. -/
theorem decimalValue_eq_foldl (digits : List Char) :
    decimalValue digits = digits.foldl (fun n c => n * 10 + digitValue c) 0 := by
  simp only [decimalValue, Nat.ofDigitChars_eq_foldl, digitValue, Nat.mul_comm]

/-! ## Escapes -/

/-- The table of the reader has the eight short escapes of the format and no others. -/
theorem shortEscape?_eq_some_iff {e c : Char} : shortEscape? e = some c ↔ ShortEscape e c := by
  constructor
  · intro h
    unfold shortEscape? at h
    split at h
    all_goals first | cases h; constructor | cases h
  · intro h
    cases h <;> rfl

/-! ## Codes -/

/-- A digit in a range of characters has the value of its distance to the first of them, counted
from the value `n` of that one. -/
theorem hexDigit_of_range {low high c : Char} {n : Nat} (hc : low ≤ c ∧ c ≤ high)
    (h : ∀ k ≤ high.toNat - low.toNat, HexDigit (Char.ofNat (low.toNat + k)) (k + n)) :
    HexDigit c (c.toNat - low.toNat + n) := by
  have hlow : low.toNat ≤ c.toNat := hc.1
  have hhigh : c.toNat ≤ high.toNat := hc.2
  have hdigit := h (c.toNat - low.toNat) (Nat.sub_le_sub_right hhigh _)
  rwa [Nat.add_sub_cancel' hlow, Char.ofNat_toNat] at hdigit

/-- A character is a digit for the reader exactly if it is one of the format, with the same value.
The three ranges of the reader are checked digit by digit. -/
theorem hexDigit?_eq_some_iff {c : Char} {n : Nat} : hexDigit? c = some n ↔ HexDigit c n := by
  constructor
  · intro h
    unfold hexDigit? at h
    split at h
    · next hc =>
      obtain rfl := Option.some.inj h
      have hdigit : ∀ k ≤ 9, Char.ofNat ('0'.toNat + k) = Nat.digitChar (k + 0) := by decide
      refine hexDigit_of_range (n := 0) hc fun k hk => ?_
      rw [hdigit k hk]
      exact .lower (Nat.lt_of_le_of_lt hk (by decide))
    · split at h
      · next hc =>
        obtain rfl := Option.some.inj h
        have hdigit : ∀ k ≤ 5, Char.ofNat ('a'.toNat + k) = Nat.digitChar (k + 10) := by decide
        refine hexDigit_of_range hc fun k hk => ?_
        rw [hdigit k hk]
        exact .lower (Nat.lt_of_le_of_lt (Nat.add_le_add_right hk 10) (by decide))
      · split at h
        · next hc =>
          obtain rfl := Option.some.inj h
          have hdigit : ∀ k ≤ 5, Char.ofNat ('A'.toNat + k) = (Nat.digitChar (k + 10)).toUpper := by
            decide
          refine hexDigit_of_range hc fun k hk => ?_
          rw [hdigit k hk]
          exact .upper (Nat.lt_of_le_of_lt (Nat.add_le_add_right hk 10) (by decide))
        · cases h
  · intro h
    have hlower : ∀ n < 16, hexDigit? (Nat.digitChar n) = some n := by decide
    have hupper : ∀ n < 16, hexDigit? (Nat.digitChar n).toUpper = some n := by decide
    cases h with
    | lower hn => exact hlower n hn
    | upper hn => exact hupper n hn

theorem Grammar.HexDigit.lt {c : Char} {n : Nat} (h : HexDigit c n) : n < 16 := by
  cases h with
  | lower hn => exact hn
  | upper hn => exact hn

/-- Four digits that the reader takes for a number write that number. -/
theorem hexNumber?_eq_some_iff {a b c d : Char} {n : Nat} :
    hexNumber? [a, b, c, d] = some n ↔ CodeText [a, b, c, d] n := by
  have hvalue (i j k l : Nat) : (((0 * 16 + i) * 16 + j) * 16 + k) * 16 + l =
      i * 0x1000 + j * 0x100 + k * 0x10 + l := by omega
  simp only [hexNumber?, List.foldlM_cons, List.foldlM_nil, Option.bind_eq_bind,
    Option.bind_eq_some_iff, Option.map_eq_some_iff, hexDigit?_eq_some_iff]
  constructor
  · rintro ⟨_, ⟨i, hi, rfl⟩, _, ⟨j, hj, rfl⟩, _, ⟨k, hk, rfl⟩, _, ⟨l, hl, rfl⟩, hn⟩
    obtain rfl := Option.some.inj hn
    rw [hvalue]
    exact .digits hi hj hk hl
  · rintro (⟨hi, hj, hk, hl⟩ : CodeText [a, b, c, d] n)
    exact ⟨_, ⟨_, hi, rfl⟩, _, ⟨_, hj, rfl⟩, _, ⟨_, hk, rfl⟩, _, ⟨_, hl, rfl⟩, by rw [hvalue]; rfl⟩

/-- A code has 16 bits. -/
theorem Grammar.CodeText.lt {text : List Char} {n : Nat} (h : CodeText text n) : n < 0x10000 := by
  cases h with
  | digits hi hj hk hl =>
      have := hi.lt
      have := hj.lt
      have := hk.lt
      have := hl.lt
      omega

/-! ## Surrogates -/

/-- The ranges of the two halves of a pair are those of the format. -/
theorem isHighSurrogate_iff {n : Nat} : isHighSurrogate n = true ↔ HighSurrogate n := by
  simp only [isHighSurrogate, HighSurrogate, Bool.and_eq_true, decide_eq_true_eq]
  omega

theorem isLowSurrogate_iff {n : Nat} : isLowSurrogate n = true ↔ LowSurrogate n := by
  simp only [isLowSurrogate, LowSurrogate, Bool.and_eq_true, decide_eq_true_eq]
  omega

/-- No character has the number of a surrogate. -/
theorem not_surrogate (x : Char) :
    isHighSurrogate x.toNat = false ∧ isLowSurrogate x.toNat = false := by
  have hvalid : x.toNat.isValidChar := x.valid
  simp only [Bool.eq_false_iff, ne_eq, isHighSurrogate_iff, isLowSurrogate_iff, HighSurrogate,
    LowSurrogate]
  rw [Nat.isValidChar] at hvalid
  omega

theorem toNat_ofNat_of_valid {n : Nat} (h : n.isValidChar) : (Char.ofNat n).toNat = n := by
  rw [Char.ofNat, dif_pos h]
  rfl

/-- A code that is no surrogate is the number of a character. -/
theorem toNat_ofNat_of_code {text : List Char} {n : Nat} (h : CodeText text n)
    (hhigh : isHighSurrogate n = false) (hlow : isLowSurrogate n = false) :
    (Char.ofNat n).toNat = n := by
  have hlt := h.lt
  rw [Bool.eq_false_iff, ne_eq, isHighSurrogate_iff, HighSurrogate] at hhigh
  rw [Bool.eq_false_iff, ne_eq, isLowSurrogate_iff, LowSurrogate] at hlow
  have hvalid : n.isValidChar := by
    rw [Nat.isValidChar]
    omega
  exact toNat_ofNat_of_valid hvalid

/-- A pair of surrogates stands for the character beyond 16 bits that the reader makes of it. -/
theorem joinSurrogates_eq_iff {high low : Nat} {x : Char} (hhigh : HighSurrogate high)
    (hlow : LowSurrogate low) : joinSurrogates high low = x ↔
      x.toNat = 0x10000 + (high - 0xD800) * 0x400 + (low - 0xDC00) := by
  rw [HighSurrogate] at hhigh
  rw [LowSurrogate] at hlow
  have hvalid : (0x10000 + (high - 0xD800) * 0x400 + (low - 0xDC00)).isValidChar := by
    rw [Nat.isValidChar]
    omega
  constructor
  · rintro rfl
    exact toNat_ofNat_of_valid hvalid
  · intro hx
    rw [joinSurrogates, ← hx, Char.ofNat_toNat]

end Json

end SyntaxTree
