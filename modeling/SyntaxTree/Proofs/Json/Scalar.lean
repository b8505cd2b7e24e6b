import SyntaxTree.Proofs.Json.NumberText
import SyntaxTree.Proofs.Json.StringText

/-! # Reading scalars

A reader of values accepts a language of texts: it succeeds on them, after any blanks, where a
value may end, and on nothing else. The readers of scalar payloads are such readers. -/

namespace SyntaxTree

namespace Json

open Text (Cursor)
open Reader Grammar

variable {α : Type}

/-- A character that a value may begin with is no blank and no sign between values. -/
def OpensValue (x : Char) : Prop := isBlank x = false ∧ x ≠ ',' ∧ x ≠ ']' ∧ x ≠ '\x7d'

/-- The reader accepts exactly the texts of `L`, those longer than `bound` apart. -/
structure Accepts (bound : Nat) (r : Reader α) (L : List Char → α → Prop) : Prop where
  sound : ∀ {c a d}, r.Reads c a d → ∃ p, L p a ∧ Crosses c [p] d
  complete : ∀ {c p a d}, L p a → p.length ≤ bound → Crosses c [p] d → Delimited d →
    r.Reads c a d
  opens : ∀ {p a}, L p a → ∃ x rest, p = x :: rest ∧ OpensValue x

instance (x : Char) : Decidable (OpensValue x) := inferInstanceAs (Decidable (_ ∧ _))

theorem opensValue_quote : OpensValue '"' := by decide

theorem opensValue_of_digit {x : Char} (h : x = '-' ∨ isDigit x = true) : OpensValue x := by
  rcases h with rfl | h
  · decide
  · refine ⟨?_, ?_, ?_, ?_⟩
    · cases hb : isBlank x with
      | false => rfl
      | true =>
          rw [isBlank_iff] at hb
          rcases hb with rfl | rfl | rfl | rfl <;> simp [isDigit] at h
    all_goals
      rintro rfl
      simp [isDigit] at h

theorem not_reads_wrongType {expected : String} {a : α} {c d : Cursor} :
    ¬ (wrongType expected : Reader α).Reads c a d := by
  rw [wrongType, reads_located, reads_peek_bind]
  split <;> simp [wrongType.refuse]
  split <;> simp

/-- A reader that looks at the first character of a value. -/
theorem reads_dispatch {f : Char → Reader α} {a : α} {c d : Cursor} :
    (do f (← valueStart)).Reads c a d ↔
      ∃ x m, skipBlanks.Reads c () m ∧ m.rest.head? = some x ∧ (f x).Reads m a d := by
  simp only [reads_bind, reads_valueStart]
  constructor
  · rintro ⟨x, m, ⟨hs, hx⟩, h⟩
    exact ⟨x, m, hs, hx, h⟩
  · rintro ⟨x, m, hs, hx, h⟩
    exact ⟨x, m, ⟨hs, hx⟩, h⟩

/-- Where a spaced piece begins, once the blanks before it are skipped. -/
theorem crosses_start {c d : Cursor} {x : Char} {piece : List Char} (hx : isBlank x = false)
    (h : Crosses c [x :: piece] d) :
    ∃ m, skipBlanks.Reads c () m ∧ m.rest.head? = some x ∧ m.Passes (x :: piece) d := by
  obtain ⟨m, e, hs, hp, hd⟩ := (crosses_solid hx).1 h
  obtain rfl := crosses_nil.1 hd
  exact ⟨m, hs, by rw [hp.rest_eq]; rfl, hp⟩

/-- Blanks and then a piece are that piece between any blanks. -/
theorem crosses_of_skipBlanks {c m d : Cursor} {piece : List Char}
    (hs : skipBlanks.Reads c () m) (h : m.Passes piece d) : Crosses c [piece] d :=
  (crosses_of_passes h).of_skipBlanks hs

/-- The reader of strings accepts exactly the string texts. -/
theorem text_accepts (bound : Nat) : Accepts bound text StringText where
  sound := by
    intro c s d h
    obtain ⟨x, m, hs, hx, h⟩ := reads_dispatch.1 h
    split at h
    · rename_i hq
      obtain ⟨p, hp, hpd⟩ := (reads_string (hq ▸ hx)).1 h
      exact ⟨p, hp, crosses_of_skipBlanks hs hpd⟩
    · exact absurd h not_reads_wrongType
  complete := by
    intro c p s d hp _ hc _
    obtain ⟨body, rfl, -⟩ := id hp
    obtain ⟨m, hs, hx, hpd⟩ := crosses_start (by decide) hc
    refine reads_dispatch.2 ⟨'"', m, hs, hx, ?_⟩
    rw [if_pos rfl]
    exact (reads_string hx).2 ⟨_, hp, hpd⟩
  opens := by
    rintro p s ⟨body, rfl, -⟩
    exact ⟨_, _, rfl, opensValue_quote⟩

theorem reads_null {c d : Cursor} : null.Reads c () d ↔ Crosses c [['n', 'u', 'l', 'l']] d := by
  constructor
  · intro h
    obtain ⟨x, m, hs, hx, h⟩ := reads_dispatch.1 h
    split at h
    · rename_i hn
      exact crosses_of_skipBlanks hs ((reads_wordFrom (hn ▸ hx)).1 h)
    · exact absurd h not_reads_wrongType
  · intro hc
    obtain ⟨m, hs, hx, hpd⟩ := crosses_start (by decide) hc
    refine reads_dispatch.2 ⟨'n', m, hs, hx, ?_⟩
    rw [if_pos rfl]
    exact (reads_wordFrom hx).2 hpd

/-- A text of a natural number is a literal whose value is natural. The reader sees it so. -/
theorem naturalText_iff {text : List Char} {n : Nat} :
    NaturalText text n ↔ ∃ l, LiteralText text l ∧ l.value = .ok (.natural n) := by
  constructor
  · rintro ⟨hw, hn, hlt⟩
    refine ⟨⟨false, text, [], none⟩, ⟨[], [], by simp, hw, .absent, .absent⟩, ?_⟩
    exact Literal.value_eq_natural_iff.2 ⟨rfl, rfl, rfl, hn, hlt⟩
  · rintro ⟨l, ⟨f, e, rfl, hw, hf, he⟩, hv⟩
    obtain ⟨hneg, hfr, hex, hn, hlt⟩ := Literal.value_eq_natural_iff.1 hv
    rw [hfr] at hf
    rw [hex] at he
    have hfe : f = [] := by
      cases hf with
      | absent => rfl
      | present hd => exact absurd rfl hd.1
    have hee : e = [] := by
      cases he
      rfl
    simp only [hneg, hfe, hee, Bool.false_eq_true, if_false, List.nil_append, List.append_nil]
    exact ⟨hw, hn, hlt⟩

/-- The reader of natural numbers accepts exactly their texts. -/
theorem natural_accepts (bound : Nat) (expected : String) :
    Accepts bound (natural expected) NaturalText where
  sound := by
    intro c n d h
    obtain ⟨x, m, hs, hx, h⟩ := reads_dispatch.1 h
    split at h
    · rw [reads_located, reads_bind] at h
      obtain ⟨k, m', hk, h⟩ := h
      obtain ⟨l, hl, hv⟩ := reads_number.1 hk
      obtain ⟨text, ht, hp⟩ := literal_sound hl
      split at h
      · obtain ⟨rfl, rfl⟩ := reads_pure.1 h
        exact ⟨text, naturalText_iff.2 ⟨l, ht, hv⟩, crosses_of_skipBlanks hs hp⟩
      · simp at h
      · simp at h
    · exact absurd h not_reads_wrongType
  complete := by
    intro c p n d hn _ hc hd
    obtain ⟨l, hl, hv⟩ := naturalText_iff.1 hn
    obtain ⟨x, rest, rfl, hx⟩ := literalText_head hl
    obtain ⟨m, hs, hh, hp⟩ := crosses_start (opensValue_of_digit hx).1 hc
    refine reads_dispatch.2 ⟨x, m, hs, hh, ?_⟩
    rw [if_pos hx, reads_located, reads_bind]
    exact ⟨_, d, reads_number.2 ⟨l, literal_complete hl hp hd, hv⟩, reads_pure.2 ⟨rfl, rfl⟩⟩
  opens := by
    intro p n hn
    obtain ⟨l, hl, -⟩ := naturalText_iff.1 hn
    obtain ⟨x, rest, rfl, hx⟩ := literalText_head hl
    exact ⟨x, rest, rfl, opensValue_of_digit hx⟩

/-! ## Floats -/

/-- The numbers and strings among the values of any shape. -/
inductive LooseText : List Char → Loose → Prop
  | number {text : List Char} {l : Literal} {n : Number} :
      LiteralText text l → l.value = .ok n → LooseText text (.number n)
  | text {text : List Char} {s : String} : StringText text s → LooseText text (.text s)

/-- A value of any shape is read for what it is, and what is neither a number nor a string as
something else. -/
theorem looseStep_sound {inner : Reader Loose} {v : Loose} {c d : Cursor}
    (h : (looseStep inner).Reads c v d) : v = .other ∨ ∃ p, LooseText p v ∧ Crosses c [p] d := by
  rw [looseStep, reads_bind] at h
  obtain ⟨_, m, hs, h⟩ := h
  rw [reads_peek_bind] at h
  split at h
  · simp at h
  · rw [reads_advance_bind, reads_bind] at h
    obtain ⟨_, _, -, h⟩ := h
    exact .inl (reads_pure.1 h).1
  · rw [reads_advance_bind, reads_bind] at h
    obtain ⟨_, _, -, h⟩ := h
    exact .inl (reads_pure.1 h).1
  · rw [reads_advance_bind, reads_bind] at h
    obtain ⟨_, _, -, h⟩ := h
    exact .inl (reads_pure.1 h).1
  · rename_i hq
    obtain ⟨s, hstring, rfl⟩ := reads_map.1 h
    obtain ⟨p, hp, hpd⟩ := (reads_string hq).1 hstring
    exact .inr ⟨p, .text hp, crosses_of_skipBlanks hs hpd⟩
  · rw [reads_advance_bind, reads_bind] at h
    obtain ⟨_, _, -, h⟩ := h
    exact .inl (reads_pure.1 h).1
  · rw [reads_advance_bind, objectOf, reads_remaining_bind, reads_enclosed] at h
    obtain ⟨_, h, -⟩ := h
    obtain ⟨_, _, -, h⟩ := reads_bind.1 h
    exact .inl (reads_pure.1 h).1
  · split at h
    · obtain ⟨n, hnumber, rfl⟩ := reads_map.1 h
      obtain ⟨l, hl, hv⟩ := reads_number.1 hnumber
      obtain ⟨text, ht, hp⟩ := literal_sound hl
      exact .inr ⟨text, .number ht hv, crosses_of_skipBlanks hs hp⟩
    · simp at h

/-- A text of a number or a string is read so, whatever the reader of inner values does. -/
theorem looseStep_complete {inner : Reader Loose} {v : Loose} {p : List Char} {c d : Cursor}
    (h : LooseText p v) (hc : Crosses c [p] d) (hd : Delimited d) :
    (looseStep inner).Reads c v d := by
  rw [looseStep, reads_bind]
  cases h with
  | @number l n hl hv =>
      obtain ⟨x, rest, rfl, hx⟩ := literalText_head hl
      obtain ⟨m, hs, hh, hp⟩ := crosses_start (opensValue_of_digit hx).1 hc
      refine ⟨(), m, hs, ?_⟩
      rw [reads_peek_bind, hh]
      have hn : (Loose.number <$> number).Reads m (.number n) d :=
        reads_map.2 ⟨n, reads_number.2 ⟨l, literal_complete hl hp hd, hv⟩, rfl⟩
      split
      all_goals simp_all [isDigit]
  | @text s hp =>
      obtain ⟨body, rfl, -⟩ := id hp
      obtain ⟨m, hs, hh, hpd⟩ := crosses_start (by decide) hc
      refine ⟨(), m, hs, ?_⟩
      rw [reads_peek_bind, hh]
      exact reads_map.2 ⟨s, (reads_string hh).2 ⟨_, hp, hpd⟩, rfl⟩

/-- The payload of a float is a number, or one of three names. Both are texts of values of any
shape. -/
theorem floatText_iff {p : List Char} {x : Binary64} :
    FloatText p x ↔ (∃ n, LooseText p (.number n) ∧ n.toBinary64 = x) ∨
      LooseText p (.text "nan") ∧ x = .nan ∨ LooseText p (.text "inf") ∧ x = .infinity false ∨
        LooseText p (.text "-inf") ∧ x = .infinity true := by
  constructor
  · rintro (⟨hl, hv⟩ | h | h | h)
    · exact .inl ⟨_, .number hl hv, rfl⟩
    · exact .inr (.inl ⟨.text h, rfl⟩)
    · exact .inr (.inr (.inl ⟨.text h, rfl⟩))
    · exact .inr (.inr (.inr ⟨.text h, rfl⟩))
  · rintro (⟨n, h, rfl⟩ | ⟨h, rfl⟩ | ⟨h, rfl⟩ | ⟨h, rfl⟩)
    · cases h with
      | number hl hv => exact .number hl hv
    · cases h with
      | text h => exact .nan h
    · cases h with
      | text h => exact .infinity h
    · cases h with
      | text h => exact .negInfinity h

theorem looseText_opens {p : List Char} {v : Loose} (h : LooseText p v) :
    ∃ x rest, p = x :: rest ∧ OpensValue x := by
  cases h with
  | number hl _ =>
      obtain ⟨x, rest, rfl, hx⟩ := literalText_head hl
      exact ⟨x, rest, rfl, opensValue_of_digit hx⟩
  | text hp =>
      obtain ⟨body, rfl, -⟩ := hp
      exact ⟨_, _, rfl, opensValue_quote⟩

theorem loose_sound {v : Loose} {c d : Cursor} (h : loose.Reads c v d) :
    v = .other ∨ ∃ p, LooseText p v ∧ Crosses c [p] d := by
  rw [loose, reads_remaining_bind] at h
  cases hn : c.rest.length with
  | zero =>
      rw [hn] at h
      exact absurd h not_reads_failAhead
  | succ n =>
      rw [hn] at h
      exact looseStep_sound h

theorem loose_complete {v : Loose} {p : List Char} {c d : Cursor} (h : LooseText p v)
    (hc : Crosses c [p] d) (hd : Delimited d) : loose.Reads c v d := by
  rw [loose, reads_remaining_bind]
  cases hn : c.rest.length with
  | zero =>
      obtain ⟨x, rest, rfl, hx⟩ := looseText_opens h
      obtain ⟨m, hs, hh, -⟩ := crosses_start hx.1 hc
      obtain ⟨blanks, -, hp, -⟩ := reads_skipBlanks.1 hs
      have hl := hp.length_eq
      have hm : m.rest = [] := List.length_eq_zero_iff.1 (by omega)
      simp [hm] at hh
  | succ n => exact looseStep_complete h hc hd

/-- The reader of floats accepts exactly the payloads of floats. -/
theorem float_accepts (bound : Nat) : Accepts bound float FloatText where
  sound := by
    intro c x d h
    rw [float, reads_bind] at h
    obtain ⟨v, m, hv, h⟩ := h
    obtain rfl | ⟨p, hp, hc⟩ := loose_sound hv
    · simp at h
    · have hx : FloatText p x ∧ m = d := by
        rw [floatText_iff]
        split at h
        · obtain ⟨rfl, rfl⟩ := reads_pure.1 h
          exact ⟨.inl ⟨_, hp, rfl⟩, rfl⟩
        · obtain ⟨rfl, rfl⟩ := reads_pure.1 h
          exact ⟨.inr (.inl ⟨hp, rfl⟩), rfl⟩
        · obtain ⟨rfl, rfl⟩ := reads_pure.1 h
          exact ⟨.inr (.inr (.inl ⟨hp, rfl⟩)), rfl⟩
        · obtain ⟨rfl, rfl⟩ := reads_pure.1 h
          exact ⟨.inr (.inr (.inr ⟨hp, rfl⟩)), rfl⟩
        · simp at h
        · simp at h
      exact ⟨p, hx.1, hx.2 ▸ hc⟩
  complete := by
    intro c p x d hx _ hc hd
    rw [float, reads_bind]
    rcases floatText_iff.1 hx with ⟨n, h, rfl⟩ | ⟨h, rfl⟩ | ⟨h, rfl⟩ | ⟨h, rfl⟩
    all_goals exact ⟨_, d, loose_complete h hc hd, by simp⟩
  opens := by
    intro p x hx
    rcases floatText_iff.1 hx with ⟨n, h, -⟩ | ⟨h, -⟩ | ⟨h, -⟩ | ⟨h, -⟩
    all_goals exact looseText_opens h

end Json

end SyntaxTree
