import SyntaxTree.Proofs.Json.Characters
import SyntaxTree.Proofs.Json.Run

/-! # Reading tokens

A run over a spaced text goes from token to token. The readers of blanks, of bare words and of
single signs succeed exactly on their texts. -/

namespace SyntaxTree

namespace Json

open Text (Cursor)
open Reader Grammar

variable {α : Type}

/-! ## Blanks -/

/-- What a test of the next character says about the place where a run of characters ends. -/
def Stops (test : Char → Bool) (c : Cursor) : Prop := ∀ x ∈ c.rest.head?, test x = false

/-- A run of characters is taken as long as they pass the test, and to no shorter end. -/
theorem reads_takeWhile {test : Char → Bool} {text : List Char} {c d : Cursor} :
    (takeWhile test).Reads c text d ↔
      c.Passes text d ∧ (∀ x ∈ text, test x = true) ∧ Stops test d := by
  simp only [takeWhile, reads_ofStep, Cursor.dropWhile, Prod.mk.injEq, Except.ok.injEq]
  constructor
  · rintro ⟨rfl, rfl⟩
    refine ⟨⟨(List.takeWhile_append_dropWhile).symm, rfl⟩,
      fun x hx => List.all_eq_true.1 List.all_takeWhile x hx, fun x hx => ?_⟩
    have hd := List.head?_dropWhile_not test c.rest
    simp only [Option.mem_def] at hx
    simpa only [hx] using hd
  · rintro ⟨⟨hr, ho⟩, hall, hstop⟩
    have hdrop : d.rest.takeWhile test = [] ∧ d.rest.dropWhile test = d.rest := by
      cases hd : d.rest with
      | nil => exact ⟨rfl, rfl⟩
      | cons x rest =>
          have hx : test x = false := hstop x (by simp [hd])
          simp [hx]
    have htake : c.rest.takeWhile test = text := by
      rw [hr, List.takeWhile_append_of_pos hall, hdrop.1, List.append_nil]
    refine ⟨htake, ?_⟩
    rw [htake, hr, List.dropWhile_append_of_pos hall, hdrop.2, ← ho]

/-- Blanks are passed over up to the first character that is none. -/
theorem reads_skipBlanks {c d : Cursor} :
    skipBlanks.Reads c () d ↔ ∃ blanks, Blank blanks ∧ c.Passes blanks d ∧ Stops isBlank d := by
  simp only [skipBlanks, reads_bind, reads_pure, reads_takeWhile]
  constructor
  · rintro ⟨text, m, ⟨hp, hall, hstop⟩, -, rfl⟩
    exact ⟨text, blank_iff.2 hall, hp, hstop⟩
  · rintro ⟨blanks, hb, hp, hstop⟩
    exact ⟨blanks, d, ⟨hp, blank_iff.1 hb, hstop⟩, trivial, rfl⟩

/-- Blanks may stand in several parts. -/
theorem Blank.append {a b : List Char} (ha : Blank a) (hb : Blank b) : Blank (a ++ b) := by
  intro c hc
  rcases List.mem_append.1 hc with h | h
  · exact ha c h
  · exact hb c h

theorem blank_nil : Blank [] := fun _ h => absurd h List.not_mem_nil

/-- Blanks and what follows them, where what follows begins with no blank, are found apart. -/
theorem skipBlanks_of_blank {c m : Cursor} {blanks : List Char} (hb : Blank blanks)
    (hp : c.Passes blanks m) (hs : Stops isBlank m) : skipBlanks.Reads c () m :=
  reads_skipBlanks.2 ⟨blanks, hb, hp, hs⟩

/-! ## Spaced texts -/

/-- The pieces lie between the two places in order, each after any blanks. -/
def Crosses (c : Cursor) (pieces : List (List Char)) (d : Cursor) : Prop :=
  ∃ text, Spaced pieces text ∧ c.Passes text d

@[simp] theorem crosses_nil {c d : Cursor} : Crosses c [] d ↔ c = d := by
  constructor
  · rintro ⟨text, hs, hp⟩
    cases hs
    exact Cursor.passes_nil.1 hp
  · rintro rfl
    exact ⟨[], .nil, Cursor.passes_nil.2 rfl⟩

/-- The first piece stands after its blanks, and the others follow it. -/
theorem crosses_cons {c d : Cursor} {piece : List Char} {pieces : List (List Char)} :
    Crosses c (piece :: pieces) d ↔
      ∃ blanks m e, Blank blanks ∧ c.Passes blanks m ∧ m.Passes piece e ∧ Crosses e pieces d := by
  constructor
  · rintro ⟨text, hs, hp⟩
    cases hs with
    | @cons blanks _ rest _ hb hs =>
        obtain ⟨e, hbe, hr⟩ := Cursor.passes_append.1 hp
        obtain ⟨m, hbm, hm⟩ := Cursor.passes_append.1 hbe
        exact ⟨blanks, m, e, hb, hbm, hm, rest, hs, hr⟩
  · rintro ⟨blanks, m, e, hb, hbm, hm, rest, hs, hr⟩
    exact ⟨blanks ++ piece ++ rest, .cons hb hs, (hbm.trans hm).trans hr⟩

/-- Pieces are crossed in two groups by way of a place between them. -/
theorem crosses_append {c d : Cursor} {as bs : List (List Char)} :
    Crosses c (as ++ bs) d ↔ ∃ m, Crosses c as m ∧ Crosses m bs d := by
  induction as generalizing c with
  | nil => simp
  | cons a as ih =>
      simp only [List.cons_append, crosses_cons, ih]
      constructor
      · rintro ⟨blanks, m, e, hb, hbm, hm, k, hk, hd⟩
        exact ⟨k, ⟨blanks, m, e, hb, hbm, hm, hk⟩, hd⟩
      · rintro ⟨k, ⟨blanks, m, e, hb, hbm, hm, hk⟩, hd⟩
        exact ⟨blanks, m, e, hb, hbm, hm, k, hk, hd⟩

theorem crosses_cons_iff {c d : Cursor} {piece : List Char} {pieces : List (List Char)} :
    Crosses c (piece :: pieces) d ↔ ∃ m, Crosses c [piece] m ∧ Crosses m pieces d := by
  rw [← crosses_append, List.singleton_append]

/-- Blanks in front of a spaced text belong to it. -/
theorem Crosses.of_blank {c m d : Cursor} {blanks piece : List Char} {pieces : List (List Char)}
    (hb : Blank blanks) (hp : c.Passes blanks m) (h : Crosses m (piece :: pieces) d) :
    Crosses c (piece :: pieces) d := by
  obtain ⟨blanks', m', e, hb', hbm, hm, hd⟩ := crosses_cons.1 h
  exact crosses_cons.2 ⟨blanks ++ blanks', m', e, Blank.append hb hb', hp.trans hbm, hm, hd⟩

/-- Blanks in front of the first piece belong to it. -/
theorem Crosses.of_skipBlanks {c m d : Cursor} {piece : List Char} {pieces : List (List Char)}
    (hs : skipBlanks.Reads c () m) (h : Crosses m (piece :: pieces) d) :
    Crosses c (piece :: pieces) d := by
  obtain ⟨blanks, hb, hp, -⟩ := reads_skipBlanks.1 hs
  exact h.of_blank hb hp

/-- A piece may stand without blanks. -/
theorem crosses_of_passes {c d : Cursor} {piece : List Char} (h : c.Passes piece d) :
    Crosses c [piece] d :=
  crosses_cons.2 ⟨[], c, d, blank_nil, Cursor.passes_nil.2 rfl, h, crosses_nil.2 rfl⟩

/-- The blanks before a piece that begins with none are those that a reader skips. -/
theorem crosses_solid {c d : Cursor} {x : Char} {piece : List Char} {pieces : List (List Char)}
    (hx : isBlank x = false) :
    Crosses c ((x :: piece) :: pieces) d ↔
      ∃ m e, skipBlanks.Reads c () m ∧ m.Passes (x :: piece) e ∧ Crosses e pieces d := by
  rw [crosses_cons]
  constructor
  · rintro ⟨blanks, m, e, hb, hbm, hm, hd⟩
    refine ⟨m, e, skipBlanks_of_blank hb hbm ?_, hm, hd⟩
    intro y hy
    rw [hm.rest_eq] at hy
    simp only [List.cons_append, List.head?_cons, Option.mem_def, Option.some.injEq] at hy
    exact hy ▸ hx
  · rintro ⟨m, e, hs, hm, hd⟩
    obtain ⟨blanks, hb, hbm, -⟩ := reads_skipBlanks.1 hs
    exact ⟨blanks, m, e, hb, hbm, hm, hd⟩

/-- A single sign is found after the blanks, because it is none itself. -/
theorem crosses_sign {c d : Cursor} {x : Char} (hx : isBlank x = false) :
    Crosses c [[x]] d ↔ ∃ m, skipBlanks.Reads c () m ∧ m.rest.head? = some x ∧ d = m.next := by
  rw [crosses_solid hx]
  constructor
  · rintro ⟨m, e, hs, hm, hd⟩
    rw [crosses_nil] at hd
    obtain ⟨hh, he⟩ := Cursor.passes_singleton.1 hm
    exact ⟨m, hs, hh, hd ▸ he⟩
  · rintro ⟨m, hs, hh, rfl⟩
    exact ⟨m, m.next, hs, Cursor.passes_singleton.2 ⟨hh, rfl⟩, crosses_nil.2 rfl⟩

/-! ## Signs and words -/

/-- A reader that skips blanks and then takes exactly the character `x`. -/
theorem reads_sign {after : Option Char → Reader Unit} {x : Char} (hx : isBlank x = false)
    (hafter : ∀ m d : Cursor,
      (after m.rest.head?).Reads m () d ↔ m.rest.head? = some x ∧ d = m.next) {c d : Cursor} :
    (do skipBlanks; after (← peek)).Reads c () d ↔ Crosses c [[x]] d := by
  rw [reads_bind, crosses_sign hx]
  constructor
  · rintro ⟨_, m, hs, h⟩
    exact ⟨m, hs, (hafter m d).1 (reads_peek_bind.1 h)⟩
  · rintro ⟨m, hs, h⟩
    exact ⟨(), m, hs, reads_peek_bind.2 ((hafter m d).2 h)⟩

/-- The sign between a key and its value. -/
theorem reads_colon {c d : Cursor} : colon.Reads c () d ↔ Crosses c [[':']] d := by
  refine reads_sign (by decide) fun m e => ?_
  split <;> simp_all

/-- A list is closed by its bracket and by nothing else. -/
theorem reads_closeList {c d : Cursor} : closeList.Reads c () d ↔ Crosses c [[']']] d := by
  refine reads_sign (by decide) fun m e => ?_
  split
  · simp_all
  · simp_all
  · -- A comma is followed by a fault whatever comes after it.
    constructor
    · intro h
      obtain ⟨_, k, -, h⟩ := reads_bind.1 (reads_advance_bind.1 h)
      rw [reads_peek_bind] at h
      split at h <;> simp at h
    · simp_all
  · simp_all

/-- An object is closed by its brace. -/
theorem reads_closeObject {c d : Cursor} : closeObject.Reads c () d ↔ Crosses c [['\x7d']] d := by
  refine reads_sign (by decide) fun m e => ?_
  split <;> simp_all

/-- The object around a variant is closed by its brace. -/
theorem reads_closeVariant {c d : Cursor} :
    closeVariant.Reads c () d ↔ Crosses c [['\x7d']] d := by
  refine reads_sign (by decide) fun m e => ?_
  split <;> simp_all

/-- A bare word is read letter by letter. -/
theorem reads_word {text : List Char} {c d : Cursor} :
    (word text).Reads c () d ↔ c.Passes text d := by
  induction text generalizing c with
  | nil => simp [word, eq_comm]
  | cons x text ih =>
      rw [word, reads_peek_bind, Cursor.passes_cons]
      constructor
      · intro h
        split at h
        · simp at h
        · rename_i y hy
          split at h
          · rename_i hxy
            refine ⟨c.next, Cursor.passes_singleton.2 ⟨hxy ▸ hy, rfl⟩, ?_⟩
            exact ih.1 (reads_advance_bind.1 h)
          · simp at h
      · rintro ⟨m, hm, h⟩
        obtain ⟨hh, rfl⟩ := Cursor.passes_singleton.1 hm
        simp only [hh, if_true]
        exact reads_advance_bind.2 (ih.2 h)

/-- A bare word whose first character has been seen. -/
theorem reads_wordFrom {x : Char} {text : List Char} {c d : Cursor} (hx : c.rest.head? = some x) :
    (do advance; word text).Reads c () d ↔ c.Passes (x :: text) d := by
  rw [reads_advance_bind, reads_word, Cursor.passes_cons]
  constructor
  · intro h
    exact ⟨c.next, Cursor.passes_singleton.2 ⟨hx, rfl⟩, h⟩
  · rintro ⟨m, hm, h⟩
    obtain ⟨-, rfl⟩ := Cursor.passes_singleton.1 hm
    exact h

/-- A value begins with the first character that is no blank. -/
theorem reads_valueStart {x : Char} {c d : Cursor} :
    valueStart.Reads c x d ↔ skipBlanks.Reads c () d ∧ d.rest.head? = some x := by
  rw [valueStart, reads_bind]
  constructor
  · rintro ⟨_, m, hs, h⟩
    rw [reads_peek_bind] at h
    split at h
    · simp at h
    · simp_all
  · rintro ⟨hs, hh⟩
    exact ⟨(), d, hs, reads_peek_bind.2 (by simp [hh])⟩

/-- Where a value begins, a reader that is bounded by what is left may take a step. -/
theorem exists_length_of_valueStart {x : Char} {c d : Cursor} (h : valueStart.Reads c x d) :
    ∃ bound, c.rest.length = bound + 1 := by
  obtain ⟨hs, hx⟩ := reads_valueStart.1 h
  obtain ⟨blanks, -, hblanks, -⟩ := reads_skipBlanks.1 hs
  obtain ⟨rest, hrest⟩ := List.head?_eq_some_iff.1 hx
  rw [hblanks.length_eq, hrest]
  exact ⟨blanks.length + rest.length, rfl⟩

end Json

end SyntaxTree
