import SyntaxTree.Error
import SyntaxTree.Proofs.Json.FiniteNumber
import SyntaxTree.Proofs.Json.FloatPayload
import SyntaxTree.Proofs.Json.TokenLookahead

/-! # Numbers that are not finite

A payload that is a number is read as a finite number or refused, however long it is, and a payload
that is a string names a number that is not finite. So the form of a payload tells whether the float
literal that is made of it is finite. -/

namespace SyntaxTree

namespace Json

open Text (Cursor)
open Reader Grammar

/-! ## The form of a payload -/

/-- The names of the numbers that are not finite. -/
def nonFinite : List (String × Binary64) :=
  [("nan", .nan), ("inf", .infinity false), ("-inf", .infinity true)]

/-- The payload is read as the number, and its form tells whether the number is finite. -/
structure FormDecides (p : List Char) (x : Binary64) : Prop where
  reads : FloatText p x
  nonFinite_iff : x.isNaN = true ∨ x.isInfinite = true ↔ ∃ name, StringText p name
  named : ∀ name, StringText p name → (name, x) ∈ nonFinite
  finite_iff : x.isFinite = true ↔ ∃ literal, LiteralText p literal

theorem stringText_unique {p : List Char} {name name' : String} (h : StringText p name)
    (h' : StringText p name') : name = name' := text_unique text_accepts h h'

/-- A literal is not a string text: it begins with no quote. -/
theorem not_stringText_of_literal {p : List Char} {l : Literal} (h : LiteralText p l)
    (name : String) : ¬ StringText p name := by
  rintro ⟨body, rfl, -⟩
  obtain ⟨x, rest, hcons, hx⟩ := literalText_head h
  obtain ⟨rfl, -⟩ := List.cons.inj hcons
  exact absurd hx (by decide)

/-- The form of a literal decides that the number is finite. -/
theorem formDecides_of_literal {p : List Char} {l : Literal} {n : Number} (hl : LiteralText p l)
    (hn : l.value = .ok n) : FormDecides p n.toBinary64 := by
  have hfinite := Literal.isFinite_value hn
  refine ⟨.number hl hn, ⟨?_, ?_⟩, ?_, fun _ => ⟨l, hl⟩, fun _ => hfinite⟩
  · simp [Binary64.isNaN_of_isFinite hfinite, Binary64.isInfinite_of_isFinite hfinite]
  · rintro ⟨name, hname⟩
    exact absurd hname (not_stringText_of_literal hl name)
  · exact fun name hname => absurd hname (not_stringText_of_literal hl name)

/-- The form of a name decides that the number is not finite, and which one it is. -/
theorem formDecides_of_name {p : List Char} {name : String} {x : Binary64}
    (hp : StringText p name) (hx : FloatText p x) (hmem : (name, x) ∈ nonFinite) : FormDecides p x := by
  have hspecial : (x.isNaN = true ∨ x.isInfinite = true) ∧ x.isFinite = false := by
    simp only [nonFinite, List.mem_cons, List.not_mem_nil, or_false, Prod.mk.injEq] at hmem
    rcases hmem with ⟨-, rfl⟩ | ⟨-, rfl⟩ | ⟨-, rfl⟩ <;> decide
  refine ⟨hx, ⟨fun _ => ⟨name, hp⟩, fun _ => hspecial.1⟩, ?_, ?_, ?_⟩
  · intro name' hname'
    rwa [← stringText_unique hp hname']
  · simp [hspecial.2]
  · rintro ⟨l, hl⟩
    exact absurd hp (not_stringText_of_literal hl name)

/-- Every payload of a float has one of the two forms. -/
theorem formDecides_of_floatText {p : List Char} {x : Binary64} (h : FloatText p x) : FormDecides p x := by
  cases h with
  | number hl hn => exact formDecides_of_literal hl hn
  | nan hp => exact formDecides_of_name hp (.nan hp) (by simp [nonFinite])
  | infinity hp => exact formDecides_of_name hp (.infinity hp) (by simp [nonFinite])
  | negInfinity hp => exact formDecides_of_name hp (.negInfinity hp) (by simp [nonFinite])

/-! ## Reading a payload -/

/-- On a literal, reading a value of any shape is reading a number, faults included. -/
theorem on_loose_of_literal {text : List Char} {l : Literal} {c m d : Cursor}
    (h : LiteralText text l) (hs : skipBlanks.Reads c () m) (hp : m.Passes text d) :
    loose.on c = (Loose.number <$> number).on m := by
  obtain ⟨x, rest, rfl, hx⟩ := literalText_head h
  have hhead : m.rest.head? = some x := by rw [hp.rest_eq]; rfl
  obtain ⟨bound, hbound⟩ := exists_length_of_valueStart (reads_valueStart.2 ⟨hs, hhead⟩)
  rw [loose, on_remaining_bind, hbound]
  change (looseStep _).on c = _
  rw [looseStep, on_bind_of_reads hs, on_peek_bind, hhead]
  split
  all_goals simp_all [isDigit]

/-- A number that is too large is refused wherever it stands as a payload. -/
theorem float_on_tooLarge {text : List Char} {l : Literal} {left : Nat} {c d : Cursor}
    (h : LiteralText text l) (hvalue : l.value = .error left) (hc : Crosses c [text] d)
    (hd : Delimited d) : float.on c = (.error ⟨.numberOutOfRange, some (d.offset - left)⟩, d) := by
  obtain ⟨x, rest, rfl, hx⟩ := literalText_head h
  obtain ⟨m, hs, -, hp⟩ := crosses_start (opensValue_of_digit hx).1 hc
  have hnumber : number.on m = (.error ⟨.numberOutOfRange, some (d.offset - left)⟩, d) := by
    rw [number_eq, on_bind_of_reads (literal_complete h hp hd), on_valueOf, hvalue]
  have hloose : loose.on c = (.error ⟨.numberOutOfRange, some (d.offset - left)⟩, d) := by
    rw [on_loose_of_literal h hs hp, map_eq_pure_bind, on_bind_of_fault hnumber]
  rw [float, on_bind_of_fault hloose]

/-- Wherever a literal stands as a payload, it is read as a finite number or refused. -/
theorem float_on_literal {text : List Char} {l : Literal} {c d : Cursor} (h : LiteralText text l)
    (hp : c.Passes text d) (hd : Delimited d) :
    (∃ x, float.on c = (.ok x, d) ∧ x.isFinite = true) ∨
      ∃ offset, float.on c = (.error ⟨.numberOutOfRange, some offset⟩, d) := by
  cases hvalue : l.value with
  | ok n =>
      refine .inl ⟨n.toBinary64, ?_, Literal.isFinite_value hvalue⟩
      exact (float_accepts text.length).complete (.number h hvalue) (Nat.le_refl _)
        (crosses_of_passes hp) hd
  | error left => exact .inr ⟨_, float_on_tooLarge h hvalue (crosses_of_passes hp) hd⟩

/-- Numbers that are not finite enter by name only: each payload in a source that is read is a
string if its float literal is not finite, and a number if it is. A number of any length is read as
a finite one or refused, and the division that scales it ends after two rounds at most. -/
theorem nonFinite_by_name :
    (∀ (sort : NodeSort) (source : String),
      (∃ failure, (Node.ofJson sort source).mapError Error.malformed =
        .error (.malformed failure)) ∨
      ∃ node payloads, Node.ofJson sort source = .ok node ∧ PayloadsIn node source payloads ∧
        (∀ others, PayloadsIn node source others → others = payloads) ∧
        List.Forall₂ FormDecides payloads node.floats) ∧
    (∀ (text : List Char) (l : Literal) (c d : Cursor), LiteralText text l → c.Passes text d →
      Delimited d → (∃ x, float.on c = (.ok x, d) ∧ x.isFinite = true) ∨
        ∃ offset, float.on c = (.error ⟨.numberOutOfRange, some offset⟩, d)) ∧
    ∀ (l : Literal) (e : Nat), ∃ k ≤ 2,
      Rounds (.ofNat l.significand.1) e k (scaleDown (.ofNat l.significand.1) e) := by
  refine ⟨fun sort source => ?_, fun _ _ _ _ => float_on_literal, fun l e => ?_⟩
  · cases h : Node.ofJson sort source with
    | error failure => exact .inl ⟨failure, rfl⟩
    | ok node =>
        obtain ⟨payloads, hpayloads, hfloats⟩ := exists_payloadsIn h
        refine .inr ⟨node, payloads, rfl, hpayloads, ?_, ?_⟩
        · exact fun others hothers => payloadsIn_unique hothers hpayloads
        · exact hfloats.imp fun _ _ => formDecides_of_floatText
  · exact rounds_scaleDown l.significand_lt e

/-- A number that is too large, with the end of its node behind it. -/
theorem nonFinite_by_name_tooLarge :
    let text := ['1', 'e', '9', '9', '9']
    let l : Literal := ⟨false, ['1'], [], some (false, ['9', '9', '9'])⟩
    let c : Cursor := ⟨text ++ ['\x7d'], 9⟩
    let d : Cursor := ⟨['\x7d'], 14⟩
    LiteralText text l ∧ c.Passes text d ∧ Delimited d ∧
      ((∃ x, float.on c = (.ok x, d) ∧ x.isFinite = true) ∨
        ∃ offset, float.on c = (.error ⟨.numberOutOfRange, some offset⟩, d)) := by
  intro text l c d
  have hdigits : Digits ['9', '9', '9'] := ⟨by simp, by simp⟩
  have hwhole : WholeText ['1'] := wholeText_singleton rfl
  have hliteral : LiteralText text l :=
    ⟨[], _, rfl, hwhole, .absent, .present (.inl rfl) .absent hdigits⟩
  have hpasses : c.Passes text d := ⟨rfl, rfl⟩
  have hdelimited : Delimited d := fun x hx => .inr (.inr (.inr (Option.some.inj hx).symm))
  exact ⟨hliteral, hpasses, hdelimited,
    nonFinite_by_name.2.1 text l c d hliteral hpasses hdelimited⟩

end Json

end SyntaxTree
