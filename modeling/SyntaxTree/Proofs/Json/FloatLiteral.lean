import SyntaxTree.Decimal.Layout
import SyntaxTree.Proofs.Decimal.Shortest
import SyntaxTree.Proofs.Json.Writer

/-! # The literal of a number

The text of a decimal is a literal of the grammar in each of its layouts. Its digits without the
point are a significand, and the power of ten of its last digit is the exponent; together they are
the value of the decimal. The reader absorbs all of them. -/

namespace SyntaxTree

namespace Json

open Grammar

/-! ## The parts of a literal -/

namespace Literal

/-- The number that the digits write without the point. -/
def digits (l : Literal) : Nat := decimalValue (l.whole ++ l.fraction)

/-- The exponent that is written. -/
def written (l : Literal) : Int :=
  match l.exponent with
  | none => 0
  | some (negative, text) => if negative then -decimalValue text else decimalValue text

/-- The power of ten that the last digit stands for. -/
def power (l : Literal) : Int := l.written - l.fraction.length

/-- The literal has a fraction or an exponent, and the reader absorbs all its digits. -/
structure IsShort (l : Literal) : Prop where
  notInteger : l.isInteger = false
  digits_lt : l.digits < significandLimit
  written_lt : l.written.natAbs < exponentLimit

end Literal

theorem decimalValueFrom_append (start : Nat) (whole fraction : List Char) :
    decimalValueFrom start (whole ++ fraction) =
      decimalValueFrom (decimalValueFrom start whole) fraction := List.foldl_append

/-- If the digits are below the limit, all of them are absorbed. -/
theorem Literal.significand_eq {l : Literal} (h : l.digits < significandLimit) :
    l.significand = (l.digits, -(l.fraction.length : Int)) := by
  have hall : decimalValueFrom (decimalValueFrom 0 l.whole) l.fraction < significandLimit := by
    rw [← decimalValueFrom_append, decimalValueFrom_zero]
    exact h
  have hwhole := lt_of_le_of_lt (le_decimalValueFrom _ _) hall
  rw [significand, absorb_eq_of_lt hwhole]
  dsimp only
  rw [absorb_eq_of_lt hall, ← decimalValueFrom_append, decimalValueFrom_zero]
  simp only [Nat.sub_zero, Nat.cast_zero, zero_sub]
  rfl

/-- The reader keeps an integer as such if it fits 64 bits. -/
theorem Literal.isInteger_iff {l : Literal} : l.isInteger = true ↔
    l.fraction = [] ∧ l.exponent = none ∧ l.digits < significandLimit := by
  have hdigits (hf : l.fraction = []) : l.digits = decimalValueFrom 0 l.whole := by
    rw [digits, hf, List.append_nil, decimalValueFrom_zero]
  simp only [isInteger, Bool.and_eq_true, List.isEmpty_iff, Option.isNone_iff_eq_none, beq_iff_eq]
  constructor
  · rintro ⟨⟨hf, he⟩, hleft⟩
    exact ⟨hf, he, hdigits hf ▸ decimalValueFrom_lt_of_absorb (by decide) hleft⟩
  · rintro ⟨hf, he, hlt⟩
    rw [hdigits hf] at hlt
    exact ⟨⟨hf, he⟩, by rw [absorb_eq_of_lt hlt]⟩

/-- A short literal is its digits scaled by its power. -/
theorem Literal.value_eq_float {l : Literal} (h : l.IsShort) {y : Binary64}
    (hy : scaleBy (Binary64.ofNat l.digits) l.power = some y) :
    l.value = .ok (.float (l.signed y)) := by
  obtain ⟨hinteger, hdigits, hwritten⟩ := h
  rw [Literal.power, Literal.written] at hy
  rw [value, hinteger, if_neg (by simp), toBinary64, significand_eq hdigits]
  rw [Literal.written] at hwritten
  cases he : l.exponent with
  | none =>
      simp only [he, zero_sub] at hy
      simp only [hy]
      rfl
  | some e =>
      obtain ⟨negative, text⟩ := e
      simp only [he] at hy hwritten
      have hlt : decimalValueFrom 0 text < exponentLimit := by
        rw [decimalValueFrom_zero]
        cases negative with
        | true => simpa using hwritten
        | false => simpa using hwritten
      have hpower : (if negative = true then -(l.fraction.length : Int) - decimalValue text
          else -(l.fraction.length : Int) + decimalValue text) =
            (if negative = true then -(decimalValue text : Int) else decimalValue text) -
              l.fraction.length := by
        split <;> omega
      simp only [absorb_eq_of_lt hlt, decimalValueFrom_zero, if_true, hpower, hy]
      rfl

/-! ## Significant digits -/

theorem decimalValue_toDigits (n : Nat) : decimalValue (Nat.toDigits 10 n) = n :=
  Nat.ofDigitChars_ten_toDigits

theorem decimalValue_append (a b : List Char) :
    decimalValue (a ++ b) = 10 ^ b.length * decimalValue a + decimalValue b := by
  rw [decimalValue, Nat.ofDigitChars_append, Nat.ofDigitChars_eq_ofDigitChars_zero]
  rfl

theorem decimalValue_zeros (n : Nat) : decimalValue (List.replicate n '0') = 0 := by
  rw [decimalValue, Nat.ofDigitChars_replicate_zero, Nat.mul_zero]

theorem decimalValue_singleton_le {c : Char} (h : c.isDigit = true) : decimalValue [c] ≤ 9 := by
  have hle : c.toNat ≤ '9'.toNat := (Char.isDigit_iff_toNat.1 h).2
  rw [decimalValue, Nat.ofDigitChars_cons, Nat.ofDigitChars_nil, Nat.mul_zero, Nat.zero_add]
  exact Nat.sub_le_sub_right hle _

/-- Digits write less than the power of ten of their number. -/
theorem decimalValue_lt {digits : List Char} (h : ∀ c ∈ digits, c.isDigit = true) :
    decimalValue digits < 10 ^ digits.length := by
  induction digits with
  | nil => decide
  | cons c rest ih =>
      obtain ⟨hc, hrest⟩ := List.forall_mem_cons.1 h
      have hle := Nat.mul_le_mul_left (10 ^ rest.length) (decimalValue_singleton_le hc)
      rw [← List.singleton_append, decimalValue_append, List.length_append,
        List.length_singleton, Nat.pow_add]
      have := ih hrest
      omega

/-- The significant digits of a decimal: no zero stands in front, and they write its value up to a
power of ten that is not below its exponent. -/
structure Significant (text : List Char) (d : Decimal) : Prop where
  digits : Digits text
  head_ne : text.head? ≠ some '0'
  value_le : decimalValue text ≤ d.coefficient
  exponent_le : d.exponent ≤ d.order + 1 - text.length
  value_eq : (decimalValue text : ℚ) * 10 ^ (d.order + 1 - text.length) = d.value.toRat

/-- The digits of a coefficient are the significant ones and then zeros. -/
theorem toDigits_eq_significantDigits (d : Decimal) : ∃ zeros,
    Nat.toDigits 10 d.coefficient = d.significantDigits ++ List.replicate zeros '0' := by
  have hsplit := List.takeWhile_append_dropWhile (p := (· == '0'))
    (l := (Nat.toDigits 10 d.coefficient).reverse)
  have hzeros : (Nat.toDigits 10 d.coefficient).reverse.takeWhile (· == '0') =
      List.replicate _ '0' :=
    List.eq_replicate_of_mem fun c hc => by
      simpa using List.all_eq_true.1 List.all_takeWhile c hc
  have hreverse := congrArg List.reverse hsplit
  rw [hzeros, List.reverse_append, List.reverse_replicate, List.reverse_reverse] at hreverse
  exact ⟨_, hreverse.symm⟩

/-- The digits of the coefficient without the zeros at the end are significant digits. -/
theorem significant {d : Decimal} (hd : 0 < d.coefficient) : Significant d.significantDigits d := by
  obtain ⟨zeros, hsplit⟩ := toDigits_eq_significantDigits d
  have hdigits := digits_toDigits d.coefficient
  have hvalue : d.coefficient = 10 ^ zeros * decimalValue d.significantDigits := by
    rw [← decimalValue_toDigits d.coefficient, hsplit, decimalValue_append, decimalValue_zeros,
      List.length_replicate, Nat.add_zero]
  have horder : d.order + 1 - d.significantDigits.length = zeros + d.exponent := by
    rw [Decimal.order, hsplit, List.length_append, List.length_replicate]
    omega
  have hne : d.significantDigits ≠ [] := by
    intro h
    rw [h] at hvalue
    exact absurd hvalue (by simp [decimalValue]; omega)
  refine ⟨⟨hne, fun c hc => hdigits.2 c (hsplit ▸ List.mem_append_left _ hc)⟩, ?_, ?_, ?_, ?_⟩
  · rw [← List.head?_append_of_ne_nil _ hne, ← hsplit]
    exact head?_toDigits_ne hd.ne'
  · rw [hvalue]
    exact Nat.le_mul_of_pos_left _ (Nat.pow_pos (by decide))
  · omega
  · rw [horder, Decimal.toRat_value, zpow_add₀ (by norm_num), zpow_natCast]
    have hcast : (d.coefficient : ℚ) = 10 ^ zeros * decimalValue d.significantDigits := by
      exact_mod_cast hvalue
    rw [hcast]
    ring

/-! ## Layouts -/

/-- The literal stands for the decimal, and the reader absorbs it. -/
structure Denotes (l : Literal) (d : Decimal) : Prop where
  notInteger : l.isInteger = false
  digits_le : l.digits ≤ 10 ^ 17
  power_le : d.exponent ≤ l.power ∨ -1 ≤ l.power
  written_le : l.written.natAbs ≤ d.order.natAbs
  value_eq : (l.digits : ℚ) * 10 ^ l.power = d.value.toRat

theorem Denotes.isShort {l : Literal} {d : Decimal} (h : Denotes l d)
    (horder : d.order.natAbs < Literal.exponentLimit) : l.IsShort where
  notInteger := h.notInteger
  digits_lt := lt_of_le_of_lt h.digits_le (by decide)
  written_lt := lt_of_le_of_lt h.written_le horder

section Layouts

variable {text : List Char} {d : Decimal}

/-- A literal denotes a decimal if its digits and its power are those of the decimal. -/
theorem Significant.denotes {l : Literal} (hs : Significant text d) (hd : d.coefficient ≤ 10 ^ 17)
    (hinteger : l.isInteger = false) (hvalue : l.digits = decimalValue text)
    (hpower : l.power = d.order + 1 - text.length) (hwritten : l.written.natAbs ≤ d.order.natAbs) :
    Denotes l d := by
  refine ⟨hinteger, ?_, .inl ?_, hwritten, ?_⟩
  · rw [hvalue]
    exact hs.value_le.trans hd
  · rw [hpower]
    exact hs.exponent_le
  · rw [hvalue, hpower, hs.value_eq]

/-- Digits without a zero in front can stand before the point. -/
theorem wholeText_of_head_ne {digits : List Char} (h : Digits digits)
    (hne : digits.head? ≠ some '0') : WholeText digits := ⟨h, fun hzero => absurd hzero hne⟩

theorem wholeText_singleton {c : Char} (h : isDigit c = true) : WholeText [c] :=
  ⟨digits_singleton h, by simp⟩

theorem digits_append_zeros {digits : List Char} (h : ∀ c ∈ digits, c.isDigit = true) (n : Nat) :
    ∀ c ∈ digits ++ List.replicate n '0', c.isDigit = true := by
  intro c hc
  rcases List.mem_append.1 hc with hc | hc
  · exact h c hc
  · rw [List.eq_of_mem_replicate hc]
    rfl

/-- A decimal below one has all its significant digits after the point. -/
theorem smallText_literal (negative : Bool) (hs : Significant text d) (hd : d.coefficient ≤ 10 ^ 17)
    (horder : d.order + 1 ≤ 0) :
    ∃ l : Literal, l.negative = negative ∧ Denotes l d ∧
      LiteralText ((if negative then ['-'] else []) ++ Decimal.plainText text (d.order + 1)) l := by
  have hvalue : decimalValue (['0'] ++
      (List.replicate (-(d.order + 1)).toNat '0' ++ text)) = decimalValue text := by
    rw [decimalValue_append, decimalValue_append, decimalValue_zeros]
    simp [decimalValue, Nat.ofDigitChars_cons]
  have hdigits : Digits (List.replicate (-(d.order + 1)).toNat '0' ++ text) := by
    refine ⟨by simp [hs.digits.1], fun c hc => ?_⟩
    rcases List.mem_append.1 hc with hc | hc
    · rw [List.eq_of_mem_replicate hc]
      rfl
    · exact hs.digits.2 c hc
  refine ⟨⟨negative, ['0'], List.replicate (-(d.order + 1)).toNat '0' ++ text, none⟩, rfl,
    hs.denotes hd ?_ hvalue ?_ (Nat.zero_le _), ?_⟩
  · simp [Literal.isInteger, hs.digits.1]
  · simp only [Literal.power, Literal.written, List.length_append, List.length_replicate]
    omega
  · refine ⟨'.' :: (List.replicate (-(d.order + 1)).toNat '0' ++ text), [], ?_,
      wholeText_singleton rfl, .present hdigits, .absent⟩
    simp [Decimal.plainText, horder]

/-- A decimal of at least one has digits before the point, and a zero after it when it is whole. -/
theorem largeText_literal (negative : Bool) (hs : Significant text d) (hd : d.coefficient ≤ 10 ^ 17)
    (horder : 0 < d.order + 1) (horder' : d.order ≤ 15) :
    ∃ l : Literal, l.negative = negative ∧ Denotes l d ∧
      LiteralText ((if negative then ['-'] else []) ++ Decimal.plainText text (d.order + 1)) l := by
  obtain ⟨point, hpoint⟩ := Int.eq_ofNat_of_zero_le horder.le
  have hpos : 0 < point := by omega
  have hplain : Decimal.plainText text (d.order + 1) =
      text.take point ++ List.replicate (point - text.length) '0' ++
        '.' :: (if (text.drop point).isEmpty then ['0'] else text.drop point) := by
    rw [Decimal.plainText, if_neg (by omega), hpoint, Int.toNat_natCast]
  rw [hplain]
  rcases Nat.lt_or_ge point text.length with hlt | hge
  · have hempty : (text.drop point).isEmpty = false := by simp; omega
    have hzeros : point - text.length = 0 := by omega
    have htake : text.take point ≠ [] := by simp [hs.digits.1]; omega
    refine ⟨⟨negative, text.take point, text.drop point, none⟩, rfl,
      hs.denotes hd ?_ (congrArg decimalValue (List.take_append_drop point text)) ?_
        (Nat.zero_le _), ?_⟩
    · simp [Literal.isInteger, hempty]
    · simp only [Literal.power, Literal.written, List.length_drop]
      omega
    · refine ⟨'.' :: text.drop point, [], ?_, wholeText_of_head_ne ⟨htake, fun c hc => ?_⟩ ?_,
        .present ⟨by simpa using hempty, fun c hc => hs.digits.2 c (List.mem_of_mem_drop hc)⟩,
        .absent⟩
      · simp [hempty, hzeros]
      · exact hs.digits.2 c (List.mem_of_mem_take hc)
      · rw [List.head?_take, if_neg hpos.ne']
        exact hs.head_ne
  · have hempty : (text.drop point).isEmpty = true := by simp [hge]
    have htake : text.take point = text := List.take_of_length_le hge
    have hzeros : text ++ List.replicate (point - text.length) '0' ++ ['0'] =
        text ++ List.replicate (point - text.length + 1) '0' := by
      rw [List.append_assoc, List.replicate_succ']
    have hvalue : decimalValue (text ++ List.replicate (point - text.length) '0' ++ ['0']) =
        10 ^ (point - text.length + 1) * decimalValue text := by
      rw [hzeros, decimalValue_append, decimalValue_zeros, List.length_replicate, Nat.add_zero]
    refine ⟨⟨negative, text ++ List.replicate (point - text.length) '0', ['0'], none⟩, rfl,
      ⟨?_, ?_, .inr ?_, Nat.zero_le _, ?_⟩, ?_⟩
    · simp [Literal.isInteger]
    · have hlt := decimalValue_lt (digits_append_zeros hs.digits.2 (point - text.length + 1))
      rw [Literal.digits, hzeros]
      refine hlt.le.trans (Nat.pow_le_pow_right (by decide) ?_)
      rw [List.length_append, List.length_replicate]
      omega
    · simp [Literal.power, Literal.written]
    · have hpower : d.order + 1 - text.length = (point - text.length : Nat) := by omega
      rw [Literal.digits, hvalue, ← hs.value_eq, hpower, zpow_natCast]
      simp only [Literal.power, Literal.written, List.length_singleton, Nat.cast_one, zero_sub,
        zpow_neg, zpow_one, pow_succ]
      push_cast
      ring
    · refine ⟨['.', '0'], [], ?_, wholeText_of_head_ne ⟨?_, ?_⟩ ?_, .present ⟨by simp, by simp⟩,
        .absent⟩
      · simp [hempty, htake]
      · simp [hs.digits.1]
      · exact digits_append_zeros hs.digits.2 _
      · rw [List.head?_append_of_ne_nil _ hs.digits.1]
        exact hs.head_ne

/-- A decimal with an exponent has one digit before the point, if there is a point. -/
theorem exponentText_literal (negative : Bool) (hs : Significant text d)
    (hd : d.coefficient ≤ 10 ^ 17) :
    ∃ l : Literal, l.negative = negative ∧ Denotes l d ∧
      LiteralText ((if negative then ['-'] else []) ++ Decimal.exponentText text d.order) l := by
  have hsign : SignText [if d.order < 0 then '-' else '+'] (decide (d.order < 0)) := by
    by_cases h : d.order < 0
    · simpa [h] using SignText.minus
    · simpa [h] using SignText.plus
  have hexponent : ExponentText ('e' :: ([if d.order < 0 then '-' else '+'] ++
      Nat.toDigits 10 d.order.natAbs)) (some (decide (d.order < 0), Nat.toDigits 10 d.order.natAbs)) :=
    .present (.inl rfl) hsign (digits_toDigits _)
  have hwritten {whole fraction : List Char} : Literal.written ⟨negative, whole, fraction,
      some (decide (d.order < 0), Nat.toDigits 10 d.order.natAbs)⟩ = d.order := by
    simp only [Literal.written, decimalValue_toDigits, decide_eq_true_eq]
    split <;> omega
  match text, hs with
  | [], hs => exact absurd rfl hs.digits.1
  | [c], hs =>
      refine ⟨⟨negative, [c], [], some _⟩, rfl,
        hs.denotes hd (by simp [Literal.isInteger]) rfl ?_ (by rw [hwritten]), ?_⟩
      · rw [Literal.power, hwritten]
        simp
      · refine ⟨[], _, ?_, wholeText_singleton (hs.digits.isDigit c (by simp)), .absent, hexponent⟩
        simp [Decimal.exponentText]
  | c :: c' :: rest, hs =>
      obtain ⟨hc, hrest⟩ := List.forall_mem_cons.1 hs.digits.2
      refine ⟨⟨negative, [c], c' :: rest, some _⟩, rfl,
        hs.denotes hd (by simp [Literal.isInteger]) rfl ?_ (by rw [hwritten]), ?_⟩
      · rw [Literal.power, hwritten]
        simp only [List.length_cons]
        omega
      · refine ⟨'.' :: c' :: rest, _, ?_, wholeText_singleton hc, .present ⟨by simp, hrest⟩,
          hexponent⟩
        simp [Decimal.exponentText]

/-- The text of a decimal of at most seventeen digits is a literal that stands for it. -/
theorem write_literal (negative : Bool) (hpos : 0 < d.coefficient) (hd : d.coefficient ≤ 10 ^ 17) :
    ∃ l : Literal, l.negative = negative ∧ Denotes l d ∧
      LiteralText ((if negative then ['-'] else []) ++ Decimal.write numberLayout d) l := by
  have hs := significant hpos
  rw [Decimal.write]
  by_cases hplain : numberLayout.isPlain d.order = true
  · rw [if_pos hplain]
    simp only [numberLayout, Bool.and_eq_true, decide_eq_true_eq] at hplain
    rcases lt_or_ge 0 (d.order + 1) with hlarge | hsmall
    · exact largeText_literal negative hs hd hlarge hplain.2
    · exact smallText_literal negative hs hd hsmall
  · rw [if_neg hplain]
    exact exponentText_literal negative hs hd

end Layouts

end Json

end SyntaxTree
