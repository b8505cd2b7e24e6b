import SyntaxTree.Proofs.Json.FloatDrift
import SyntaxTree.Proofs.Json.Truncation

/-! # Numbers that are cut

The front of a literal is another literal, unless it ends with the sign, the point or the mark of
the exponent. The value of that literal is never too large when the whole literal comes from the
writer, because its digits are few and the exponent has lost digits. -/

namespace SyntaxTree

namespace Json

open Text (Cursor Cut cut_cons cut_append cut_singleton)
open Reader Grammar Binary64

/-! ## The parts of a literal -/

section Parts

variable {c : Cursor} {x : Char} {test : Char → Bool}

theorem runsOut_wholeDigits (hc : c.rest = []) : RunsOut (wholeDigits (.endOfInput .value)) c := by
  apply runsOut_peek_bind
  rw [hc]
  exact runsOut_failAhead .value hc

/-- The point is the last character. -/
theorem runsOut_fractionDigits (hc : c.rest = ['.']) :
    RunsOut (fractionDigits (.endOfInput .value)) c := by
  obtain ⟨m, hm, hend⟩ := Cursor.exists_passes (a := ['.']) hc
  apply runsOut_peek_bind
  rw [hc]
  apply runsOut_advance_bind hm
  have hnone : (takeWhile isDigit).Reads m [] m :=
    reads_takeWhile.2 ⟨Cursor.passes_nil.2 rfl, by simp, stops_of_rest hend⟩
  refine .after hnone rfl ?_
  simp only [List.isEmpty_nil, if_true]
  apply runsOut_peek_bind
  rw [hend]
  exact runsOut_failAhead .value hend

/-- The mark of the exponent or its sign is the last character. -/
theorem runsOut_exponentPart {mark : Char} {sign : List Char} {negative : Bool}
    (hmark : mark = 'e' ∨ mark = 'E') (hsign : SignText sign negative)
    (hc : c.rest = mark :: sign) : RunsOut (exponentPart (.endOfInput .value)) c := by
  obtain ⟨m, hm, hrest⟩ := Cursor.exists_passes (a := [mark]) hc
  apply runsOut_peek_bind
  rw [hc, List.head?_cons]
  simp only [hmark, if_true]
  apply runsOut_advance_bind hm
  obtain ⟨d, hread, hd, hend⟩ : ∃ d, exponentSign.Reads m negative d ∧ d.finish = m.finish ∧
      d.rest = [] := by
    rw [exponentSign]
    cases hsign with
    | absent => exact ⟨m, by rw [reads_peek_bind, hrest]; exact reads_pure.2 ⟨rfl, rfl⟩, rfl, hrest⟩
    | plus =>
        obtain ⟨d, hd, hend⟩ := Cursor.exists_passes (a := ['+']) hrest
        obtain ⟨-, rfl⟩ := Cursor.passes_singleton.1 hd
        refine ⟨_, ?_, hd.finish_eq, hend⟩
        rw [reads_peek_bind, hrest]
        exact reads_advance_bind.2 (reads_pure.2 ⟨rfl, rfl⟩)
    | minus =>
        obtain ⟨d, hd, hend⟩ := Cursor.exists_passes (a := ['-']) hrest
        obtain ⟨-, rfl⟩ := Cursor.passes_singleton.1 hd
        refine ⟨_, ?_, hd.finish_eq, hend⟩
        rw [reads_peek_bind, hrest]
        exact reads_advance_bind.2 (reads_pure.2 ⟨rfl, rfl⟩)
  refine .after hread hd ?_
  apply runsOut_peek_bind
  rw [hend]
  exact runsOut_failAhead .value hend

/-- The sign is taken, whatever becomes of the digits after it. -/
theorem runsOut_literal {negative : Bool} {m : Cursor}
    (hm : c.Passes (if negative then ['-'] else []) m)
    (hne : negative = false → c.rest.head? ≠ some '-')
    (h : RunsOut (digitsOf (.endOfInput .value) negative) m) :
    RunsOut (literal (.endOfInput .value)) c := by
  rw [literal_eq]
  apply runsOut_peek_bind
  cases negative with
  | true =>
      rw [if_pos rfl] at hm
      rw [(Cursor.passes_singleton.1 hm).1]
      exact runsOut_advance_bind hm h
  | false =>
      obtain rfl := Cursor.passes_nil.1 hm
      split
      · rename_i hhead
        exact absurd hhead (hne rfl)
      · exact h

end Parts

/-! ## Literals -/

/-- What a literal is cut to, where that is a literal again. -/
inductive Front : Literal → Literal → Prop
  | whole {l : Literal} {digits rest : List Char} :
      l.whole = digits ++ rest → Front l ⟨l.negative, digits, [], none⟩
  | fraction {l : Literal} {digits rest : List Char} :
      digits ≠ [] → l.fraction = digits ++ rest → Front l ⟨l.negative, l.whole, digits, none⟩
  | exponent {l : Literal} {negative : Bool} {digits rest : List Char} {x : Char} :
      l.exponent = some (negative, digits ++ x :: rest) →
      Front l ⟨l.negative, l.whole, l.fraction, some (negative, digits)⟩

theorem cut_of_digits {front digits : List Char} (h : Cut front digits)
    (hdigits : ∀ c ∈ digits, isDigit c = true) : ∀ c ∈ front, isDigit c = true := by
  obtain ⟨x, rest, rfl⟩ := h
  exact fun c hc => hdigits c (List.mem_append_left _ hc)

theorem cut_of_whole {front digits : List Char} (h : Cut front digits) (hw : WholeText digits)
    (hne : front ≠ []) : WholeText front := by
  refine ⟨⟨hne, cut_of_digits h hw.1.2⟩, fun hzero => ?_⟩
  obtain ⟨x, rest, rfl⟩ := h
  have hlength := congrArg List.length (hw.2 (by rwa [List.head?_append_of_ne_nil _ hne]))
  have hpos := List.length_pos_iff.2 hne
  simp only [List.length_append, List.length_cons, List.length_nil] at hlength
  omega

/-- The parts of a literal before the exponent, where the exponent is cut before its digits. -/
theorem runsOut_digitsOf {l : Literal} {f : List Char} (hw : WholeText l.whole)
    (hf : FractionText f l.fraction) {m m₁ m₂ : Cursor} (hm₁ : m.Passes l.whole m₁)
    (hm₂ : m₁.Passes f m₂) {mark : Char} {sign : List Char} {negative : Bool}
    (hmark : mark = 'e' ∨ mark = 'E') (hsign : SignText sign negative)
    (hrest : m₂.rest = mark :: sign) :
    RunsOut (digitsOf (.endOfInput .value) l.negative) m := by
  have hhead : isDigit mark = false ∧ mark ≠ '.' := by rcases hmark with rfl | rfl <;> decide
  have hstops : Stops isDigit m₂ := stops_of_head hrest hhead.1
  have hpoint : m₂.rest.head? ≠ some '.' := by simpa [hrest] using hhead.2
  refine .after (reads_wholeDigits.2 ⟨hw, hm₁, stops_of_fraction hf hm₂ hstops⟩) hm₁.finish_eq ?_
  refine .after (fractionDigits_complete hf hm₂ hstops hpoint) hm₂.finish_eq ?_
  exact (runsOut_exponentPart hmark hsign hrest).bind

/-- A literal that is cut leaves the reader without input or is a shorter literal. The cut is in one
of its four parts. -/
theorem literal_cut {text : List Char} {l : Literal} (h : LiteralText text l) {c : Cursor}
    (hcut : Cut c.rest text) :
    RunsOut (literal (.endOfInput .value)) c ∨ ∃ l', Front l l' ∧ LiteralText c.rest l' := by
  obtain ⟨f, e, rfl, hw, hf, he⟩ := h
  rcases cut_append.1 hcut with hsign | ⟨_, hrest, hcut₁⟩
  · have hnil : c.rest = [] := by
      cases hn : l.negative with
      | true => simpa [hn, cut_singleton] using hsign
      | false => exact absurd (by simpa [hn] using hsign) Text.not_cut_nil
    exact .inl (@runsOut_literal c false c (Cursor.passes_nil.2 rfl) (by simp [hnil])
      (runsOut_wholeDigits hnil).bind)
  obtain ⟨m, hm, rfl⟩ := Cursor.exists_passes hrest
  have hne : l.negative = false → c.rest.head? ≠ some '-' := by
    intro hn
    obtain ⟨y, rest, hy⟩ := List.exists_cons_of_ne_nil hw.1.1
    have hyd : isDigit y = true := hw.1.2 y (by simp [hy])
    rw [hrest, hn, if_neg (by simp), List.nil_append]
    rw [hy, List.cons_append] at hcut₁
    rcases cut_cons.1 hcut₁ with hnil | ⟨tail, htail, -⟩
    · simp [hnil]
    · rw [htail]
      rintro ⟨⟩
      simp [isDigit] at hyd
  have hout := runsOut_literal hm hne
  rcases cut_append.1 hcut₁ with hwhole | ⟨_, hrest₁, hcut₂⟩
  · rcases eq_or_ne m.rest [] with hnil | hsome
    · exact .inl (hout (runsOut_wholeDigits hnil).bind)
    · obtain ⟨x, rest, heq⟩ := id hwhole
      exact .inr ⟨_, .whole heq, [], [], by simp [hrest], cut_of_whole hwhole hw hsome, .absent,
        .absent⟩
  obtain ⟨m₁, hm₁, rfl⟩ := Cursor.exists_passes hrest₁
  rcases cut_append.1 hcut₂ with hfraction | ⟨_, hrest₂, hcut₃⟩
  · generalize hdigits : l.fraction = digits at hf
    cases hf with
    | absent => exact absurd hfraction Text.not_cut_nil
    | present hd =>
        rcases cut_cons.1 hfraction with hnil | ⟨tail, htail, hinside⟩
        · exact .inr ⟨_, .whole (List.append_nil _).symm, [], [], by simp [hrest, hrest₁, hnil], hw,
            .absent, .absent⟩
        · rcases eq_or_ne tail [] with rfl | hsome
          · refine .inl (hout (.after (reads_wholeDigits.2 ⟨hw, hm₁, ?_⟩) hm₁.finish_eq ?_))
            · exact stops_of_head htail (by decide)
            · exact (runsOut_fractionDigits htail).bind
          · obtain ⟨x, rest, heq⟩ := id hinside
            exact .inr ⟨_, .fraction hsome (hdigits.trans heq), '.' :: tail, [],
              by simp [hrest, hrest₁, htail], hw, .present ⟨hsome, cut_of_digits hinside hd.2⟩,
              .absent⟩
  obtain ⟨m₂, hm₂, rfl⟩ := Cursor.exists_passes hrest₂
  generalize hexponent : l.exponent = exponent at he
  cases he with
  | absent => exact absurd hcut₃ Text.not_cut_nil
  | @present mark sign digits negative hmark hsign hd =>
      rcases cut_cons.1 hcut₃ with hnil | ⟨tail, htail, hinside⟩
      · -- The cut is before the mark, and what is left has no exponent.
        have hrest' : c.rest = (if l.negative then ['-'] else []) ++ (l.whole ++ (f ++ [])) := by
          rw [hrest, hrest₁, hrest₂, hnil]
        generalize hfraction : l.fraction = fraction at hf
        cases hf with
        | absent =>
            exact .inr ⟨_, .whole (List.append_nil _).symm, [], [], hrest', hw, .absent, .absent⟩
        | present hd =>
            exact .inr ⟨_, .fraction hd.1 (hfraction.trans (List.append_nil _).symm), _, [],
              hrest', hw, .present hd, .absent⟩
      rcases cut_append.1 hinside with hcutSign | ⟨tail, rfl, hdigits⟩
      · have hnil : tail = [] := by
          cases hsign with
          | absent => exact absurd hcutSign Text.not_cut_nil
          | plus => exact cut_singleton.1 hcutSign
          | minus => exact cut_singleton.1 hcutSign
        rw [hnil] at htail
        exact .inl (hout (runsOut_digitsOf hw hf hm₁ hm₂ hmark .absent htail))
      · rcases eq_or_ne tail [] with rfl | hsome
        · rw [List.append_nil] at htail
          exact .inl (hout (runsOut_digitsOf hw hf hm₁ hm₂ hmark hsign htail))
        · obtain ⟨x, rest, heq⟩ := id hdigits
          exact .inr ⟨_, .exponent (hexponent.trans (by rw [heq])), f, mark :: (sign ++ tail),
            by simp [hrest, hrest₁, hrest₂, htail], hw, hf,
            .present hmark hsign ⟨hsome, cut_of_digits hdigits hd.2⟩⟩

/-! ## Values -/

section Values

variable {w k : Nat}

theorem toRat_ofNat_le (hw : w ≤ 10 ^ largestPower) : (ofNat w).magnitude.toRat ≤ 2 * w := by
  rcases Nat.eq_zero_or_pos w with rfl | hpos
  · have hzero : (ofNat 0).magnitude.toRat = (0 : Nat) :=
      ofNat_exact (a := 0) (j := 0) (Nat.zero_le _) (by simp) hw
    simp [hzero]
  · have hrounding : oneRounding ≤ 2 := by norm_num [oneRounding, cast_exponentWeight]
    calc (ofNat w).magnitude.toRat ≤ oneRounding * w := (ofNat_near hpos hw).2
      _ ≤ 2 * w := mul_le_mul_of_nonneg_right hrounding (Nat.cast_nonneg w)

/-- A product that is far below the largest number is finite. -/
theorem exists_scaleBy (hw : w ≤ 10 ^ 17) {e : Int} (he : e ≤ 100) :
    ∃ y, scaleBy (ofNat w) e = some y := by
  by_cases hneg : e < 0
  · exact ⟨_, by rw [scaleBy, if_pos hneg]⟩
  · obtain ⟨k, rfl⟩ := Int.eq_ofNat_of_zero_le (Int.not_lt.1 hneg)
    have hk : k ≤ 100 := by omega
    have hpower : 10 ^ k ≤ 10 ^ largestPower := pow_ten_le (hk.trans (by decide))
    have hsmall : 2 * 10 ^ 17 * (2 * 10 ^ 100) ≤ 10 ^ largestPower :=
      le_trans (by norm_num) (pow_ten_le (k := 118) (by decide))
    have hlimit : 2 * 10 ^ 17 * (2 * 10 ^ 100) * unitsInOne ≤ largestUnits :=
      (Nat.mul_le_mul_right _ hsmall).trans largestPower_bounds.1
    obtain ⟨r, hr, hscale⟩ := scaleBy_eq w (e := k) (by simpa using hk.trans (by decide))
    refine ⟨_, hscale (nearestMagnitude_lt ?_)⟩
    have hfactor : scaleFactor k = (powerOfTen k).magnitude.toRat := by
      rw [scaleFactor, if_neg (by omega)]
      rfl
    have hsignificand : (ofNat w).magnitude.toRat ≤ 2 * 10 ^ 17 :=
      (toRat_ofNat_le (le_largestPower hw)).trans (by exact_mod_cast Nat.mul_le_mul_left 2 hw)
    have hmagnitude : (powerOfTen k).magnitude.toRat ≤ 2 * 10 ^ 100 :=
      (toRat_ofNat_le hpower).trans
        (by exact_mod_cast Nat.mul_le_mul_left 2 (Nat.pow_le_pow_right (by decide) hk))
    calc position r = (ofNat w).magnitude.toRat * (powerOfTen k).magnitude.toRat * unitsInOne := by
          rw [position, hr, hfactor]
      _ ≤ 2 * 10 ^ 17 * (2 * 10 ^ 100) * unitsInOne := by
          refine mul_le_mul_of_nonneg_right ?_ (Nat.cast_nonneg _)
          exact mul_le_mul hsignificand hmagnitude (Ratio.toRat_nonneg _) (by norm_num)
      _ ≤ largestUnits := by exact_mod_cast hlimit

end Values

namespace Literal

/-- An integer of few digits has a value in each of its forms. -/
theorem exists_value_of_integer {l : Literal} (hf : l.fraction = []) (he : l.exponent = none)
    (hd : l.digits ≤ 10 ^ 17) : ∃ n, l.value = .ok n := by
  have hinteger : l.isInteger = true := isInteger_iff.2 ⟨hf, he, hd.trans_lt (by decide)⟩
  rw [value, if_pos hinteger]
  dsimp only
  split
  · exact ⟨_, rfl⟩
  · split
    · exact ⟨_, rfl⟩
    · exact ⟨_, rfl⟩

/-- The digits are few, and the exponent has at most three of them. -/
structure Moderate (l : Literal) : Prop where
  digits_le : l.digits ≤ 10 ^ 17
  written_le : l.written.natAbs ≤ 1000

theorem exists_value_of_short {l : Literal} (hd : l.digits ≤ 10 ^ 17)
    (hinteger : l.isInteger = false) (hw : l.written.natAbs ≤ 100) : ∃ n, l.value = .ok n := by
  have hpower : l.power ≤ 100 := by
    rw [power]
    omega
  obtain ⟨y, hy⟩ := exists_scaleBy hd hpower
  have hshort : l.IsShort := ⟨hinteger, hd.trans_lt (by decide), hw.trans_lt (by decide)⟩
  exact ⟨_, value_eq_float hshort hy⟩

end Literal

/-- The front of a literal that is not large is none either. -/
theorem Front.exists_value {l l' : Literal} (h : Front l l') (hl : l.Moderate) :
    ∃ n, l'.value = .ok n := by
  have hprefix {a b : List Char} : decimalValue a ≤ decimalValue (a ++ b) := by
    rw [decimalValue_append]
    exact Nat.le_add_right_of_le (Nat.le_mul_of_pos_left _ (Nat.pow_pos (by decide)))
  cases h with
  | @whole digits rest heq =>
      refine Literal.exists_value_of_integer rfl rfl (le_trans ?_ hl.digits_le)
      rw [Literal.digits, Literal.digits, heq, List.append_nil, List.append_assoc]
      exact hprefix
  | @fraction digits rest hne heq =>
      refine Literal.exists_value_of_short (le_trans ?_ hl.digits_le) ?_ (Nat.zero_le _)
      · rw [Literal.digits, Literal.digits, heq, ← List.append_assoc]
        exact hprefix
      · simp [Literal.isInteger, hne]
  | @exponent negative digits rest x heq =>
      refine Literal.exists_value_of_short hl.digits_le (by simp [Literal.isInteger]) ?_
      have hwritten := hl.written_le
      have hten : 10 * decimalValue digits ≤ decimalValue (digits ++ x :: rest) := by
        rw [decimalValue_append]
        refine Nat.le_add_right_of_le (Nat.mul_le_mul_right _ ?_)
        exact Nat.le_self_pow (by simp) 10
      simp only [Literal.written, heq] at hwritten ⊢
      cases negative <;> simp at hwritten ⊢ <;> omega

end Json

end SyntaxTree
