import SyntaxTree.Proofs.Decimal.FewestDigits

/-! # The literal of a number is the shortest one

A finite number is written as the decimal with the fewest significant digits that is rounded to it,
and as one nearest to it among these. Small and large decimals are written with an exponent. -/

namespace SyntaxTree

open Binary64

namespace Json

open Grammar

/-! ## Layouts -/

/-- Digits on both sides of a point, none of them superfluous, that write `q`. -/
def IsPlain (text : List Char) (q : ℚ) : Prop :=
  ∃ whole fraction, text = whole ++ '.' :: fraction ∧ WholeText whole ∧ Digits fraction ∧
    (fraction.getLast? = some '0' → fraction = ['0']) ∧
    q = decimalValue (whole ++ fraction) * 10 ^ (-fraction.length : ℤ)

/-- One digit, more of them after a point if there are any, and an exponent with its sign, which
together write `q`. -/
def IsScientific (text : List Char) (q : ℚ) (order : ℤ) : Prop :=
  ∃ first rest, text = first :: (if rest = [] then [] else '.' :: rest) ++
      'e' :: (if order < 0 then '-' else '+') :: Nat.toDigits 10 order.natAbs ∧
    isDigit first = true ∧ first ≠ '0' ∧ (∀ c ∈ rest, isDigit c = true) ∧
    rest.getLast? ≠ some '0' ∧ q = decimalValue (first :: rest) * 10 ^ (order - rest.length)

section Layouts

variable {text : List Char} {d : Decimal}

theorem getLast?_significantDigits (d : Decimal) : d.significantDigits.getLast? ≠ some '0' := by
  rw [Decimal.significantDigits, List.getLast?_reverse]
  intro h
  have := List.head?_dropWhile_not (· == '0') (Nat.toDigits 10 d.coefficient).reverse
  rw [h] at this
  simp at this

/-- The order is the exponent of the first digit. -/
theorem order_bounds (hd : 0 < d.coefficient) :
    (10 : ℚ) ^ d.order ≤ d.value.toRat ∧ d.value.toRat < 10 ^ (d.order + 1) := by
  have hpow : (0 : ℚ) < 10 ^ d.exponent := zpow_pos (by norm_num) _
  have hlength : 0 < (Nat.toDigits 10 d.coefficient).length := Nat.length_toDigits_pos
  have hlower : (10 : ℚ) ^ ((Nat.toDigits 10 d.coefficient).length - 1) ≤ d.coefficient := by
    exact_mod_cast Ratio.pow_length_le hd
  have hupper : (d.coefficient : ℚ) < 10 ^ (Nat.toDigits 10 d.coefficient).length := by
    exact_mod_cast Ratio.lt_pow_length d.coefficient
  have horder : d.order = ((Nat.toDigits 10 d.coefficient).length - 1 : Nat) + d.exponent := by
    rw [Decimal.order]
    omega
  have horder' : d.order + 1 = (Nat.toDigits 10 d.coefficient).length + d.exponent := by
    rw [Decimal.order]
    omega
  rw [horder', horder, Decimal.toRat_value, zpow_add₀ (by norm_num), zpow_add₀ (by norm_num),
    zpow_natCast, zpow_natCast]
  exact ⟨mul_le_mul_of_nonneg_right hlower hpow.le, mul_lt_mul_of_pos_right hupper hpow⟩

/-- Digits in front of which and behind which zeros are written give the decimal, if the last one
stands for the right power of ten. -/
theorem Significant.value_padded (hs : Significant text d) (left right : Nat) (power : Int)
    (hpower : power + right = d.order + 1 - text.length) :
    d.value.toRat =
      decimalValue (List.replicate left '0' ++ text ++ List.replicate right '0') * 10 ^ power := by
  have hvalue : decimalValue (List.replicate left '0' ++ text ++ List.replicate right '0') =
      10 ^ right * decimalValue text := by
    rw [decimalValue_append, decimalValue_append, decimalValue_zeros, decimalValue_zeros,
      List.length_replicate, Nat.mul_zero, Nat.zero_add, Nat.add_zero]
  rw [← hs.value_eq, hvalue, ← hpower, zpow_add₀ (by norm_num), zpow_natCast]
  push_cast
  ring

/-- The point stands before all digits, with zeros between. -/
theorem isPlain_small (hs : Significant text d) (hlast : text.getLast? ≠ some '0')
    {left : Nat} (hleft : -(left : ℤ) = d.order + 1) :
    IsPlain ('0' :: '.' :: (List.replicate left '0' ++ text)) d.value.toRat := by
  refine ⟨['0'], List.replicate left '0' ++ text, rfl, wholeText_singleton rfl,
    ⟨by simp [hs.digits.1], fun c hc => ?_⟩, ?_, ?_⟩
  · rcases List.mem_append.1 hc with hc | hc
    · rw [List.eq_of_mem_replicate hc]
      rfl
    · exact hs.digits.2 c hc
  · rw [List.getLast?_append_of_ne_nil _ hs.digits.1]
    exact fun hzero => absurd hzero hlast
  · have hvalue := hs.value_padded (left + 1) 0
      (-(List.replicate left '0' ++ text).length) (by simp; omega)
    rwa [List.replicate_succ, List.replicate_zero, List.append_nil] at hvalue

/-- The point stands between two digits. -/
theorem isPlain_inside (hs : Significant text d) (hlast : text.getLast? ≠ some '0')
    {point : Nat} (hpoint : (point : ℤ) = d.order + 1) (hpos : 0 < point)
    (hlt : point < text.length) :
    IsPlain (text.take point ++ '.' :: text.drop point) d.value.toRat := by
  have hdrop : text.drop point ≠ [] := by simpa using hlt
  have htake : text.take point ≠ [] := by simp [hs.digits.1]; omega
  refine ⟨text.take point, text.drop point, rfl, wholeText_of_head_ne ⟨htake, fun c hc => ?_⟩ ?_,
    ⟨hdrop, fun c hc => hs.digits.2 c (List.mem_of_mem_drop hc)⟩, ?_, ?_⟩
  · exact hs.digits.2 c (List.mem_of_mem_take hc)
  · rw [List.head?_take, if_neg (by omega)]
    exact hs.head_ne
  · rw [List.getLast?_drop, if_neg (by omega)]
    exact fun hzero => absurd hzero hlast
  · have hvalue := hs.value_padded 0 0 (-(text.drop point).length) (by simp; omega)
    rw [List.take_append_drop]
    rwa [List.replicate_zero, List.nil_append, List.append_nil] at hvalue

/-- The point stands behind all digits, with zeros between and one zero after it. -/
theorem isPlain_large (hs : Significant text d) {right : Nat}
    (hright : (right : ℤ) = d.order + 1 - text.length) :
    IsPlain (text ++ List.replicate right '0' ++ ['.', '0']) d.value.toRat := by
  refine ⟨text ++ List.replicate right '0', ['0'], rfl,
    wholeText_of_head_ne ⟨by simp [hs.digits.1], digits_append_zeros hs.digits.2 _⟩ ?_,
    digits_singleton rfl, fun _ => rfl, ?_⟩
  · rw [List.head?_append_of_ne_nil _ hs.digits.1]
    exact hs.head_ne
  · have hvalue := hs.value_padded 0 (right + 1) (-1) (by omega)
    rw [List.replicate_succ', ← List.append_assoc] at hvalue
    exact hvalue

theorem isPlain_plainText (hs : Significant text d) (hlast : text.getLast? ≠ some '0') :
    IsPlain (Decimal.plainText text (d.order + 1)) d.value.toRat := by
  rw [Decimal.plainText]
  split
  · next horder => exact isPlain_small hs hlast (by omega)
  · next horder =>
    obtain ⟨point, hpoint⟩ := Int.eq_ofNat_of_zero_le (Int.le_of_lt (Int.not_le.1 horder))
    rw [hpoint, Int.toNat_natCast]
    rcases Nat.lt_or_ge point text.length with hlt | hge
    · have hinside := isPlain_inside hs hlast hpoint.symm (by omega) hlt
      simpa [Nat.sub_eq_zero_of_le hlt.le, Nat.not_le_of_lt hlt] using hinside
    · have hlarge : IsPlain (text ++ List.replicate (point - text.length) '0' ++ ['.', '0'])
          d.value.toRat := isPlain_large hs (by omega)
      simpa [List.drop_eq_nil_of_le hge, List.take_of_length_le hge] using hlarge

theorem isScientific_exponentText (hs : Significant text d) (hlast : text.getLast? ≠ some '0') :
    IsScientific (Decimal.exponentText text d.order) d.value.toRat d.order := by
  match text, hs, hlast with
  | [], hs, _ => exact absurd rfl hs.digits.1
  | c :: rest, hs, hlast =>
      obtain ⟨hc, hrest⟩ := List.forall_mem_cons.1 hs.digits.2
      have hvalue := hs.value_padded 0 0 (d.order - rest.length) (by simp)
      rw [List.replicate_zero, List.nil_append, List.append_nil] at hvalue
      refine ⟨c, rest, ?_, hc, by simpa using hs.head_ne, hrest, ?_, hvalue⟩
      · cases rest <;> rfl
      · cases rest with
        | nil => simp
        | cons c' rest => simpa using hlast

end Layouts

theorem floatValue_zero {x : Binary64} (hzero : x.isZero = true) :
    (floatValue x).toList = (if x.isNegative then ['-'] else []) ++ ['0', '.', '0'] := by
  rw [eq_zero_of_isZero hzero]
  cases x.isNegative <;> decide

/-- The layout follows from the order of the decimal. -/
theorem write_layout {d : Decimal} (hd : 0 < d.coefficient) :
    (-5 ≤ d.order ∧ d.order ≤ 15 → IsPlain (Decimal.write numberLayout d) d.value.toRat) ∧
      (¬(-5 ≤ d.order ∧ d.order ≤ 15) →
        IsScientific (Decimal.write numberLayout d) d.value.toRat d.order) := by
  have hs := significant hd
  have hlast := getLast?_significantDigits d
  have hplain : numberLayout.isPlain d.order = true ↔ -5 ≤ d.order ∧ d.order ≤ 15 := by
    simp only [numberLayout, Bool.and_eq_true, decide_eq_true_eq]
  rw [← hplain, Decimal.write]
  constructor
  · intro h
    rw [if_pos h]
    exact isPlain_plainText hs hlast
  · intro h
    rw [if_neg h]
    exact isScientific_exponentText hs hlast

theorem toList_toJson_float (x : Binary64) : (Expr.toJson (.float x)).toList =
    "\x7b\"Float\":".toList ++ (floatValue x).toList ++ ['\x7d'] := by
  rw [Expr.toJson, single, String.toList_append, String.toList_append]
  rfl

/-- A finite number is written behind its sign as the shortest decimal that is rounded to it:
plainly if the exponent of the first digit is between -5 and 15, and with an exponent otherwise.
Zeros are written with one digit on each side of the point. -/
theorem toJson_float_shortest {x : Binary64} (hfinite : x.isFinite = true) :
    ∃ text : List Char,
      (Expr.toJson (.float x)).toList = "\x7b\"Float\":".toList ++
        ((if x.isNegative then ['-'] else []) ++ text) ++ ['\x7d'] ∧
      (x.isZero = true → text = ['0', '.', '0']) ∧
      (x.isZero = false → ∃ (q : ℚ) (n : Nat) (order : ℤ), x.IsShortest (x.sign * q) n ∧
        (10 : ℚ) ^ order ≤ q ∧ q < 10 ^ (order + 1) ∧
        (-5 ≤ order ∧ order ≤ 15 → IsPlain text q) ∧
        (¬(-5 ≤ order ∧ order ≤ 15) → IsScientific text q order)) := by
  cases hzero : x.isZero with
  | true =>
      refine ⟨['0', '.', '0'], ?_, fun _ => rfl, nofun⟩
      rw [toList_toJson_float, floatValue_zero hzero]
  | false =>
      obtain ⟨-, hpos, -⟩ := Decimal.shortest_spec numberLayout.tie hfinite hzero
      obtain ⟨n, hshortest⟩ := Decimal.shortest_isShortest numberLayout.tie hfinite hzero
      refine ⟨Decimal.write numberLayout (Decimal.shortest numberLayout.tie x), ?_, nofun, fun _ => ?_⟩
      · rw [toList_toJson_float, floatValue_toList hfinite hzero]
      · obtain ⟨hlower, hupper⟩ := order_bounds hpos
        exact ⟨_, n, _, hshortest, hlower, hupper, write_layout hpos⟩

/-- The smallest number, whose neighbours are zero and twice the number. -/
theorem toJson_float_shortest_smallest :
    (⟨1⟩ : Binary64).isFinite = true ∧ ∃ (text : List Char) (q : ℚ) (n : Nat),
      (Expr.toJson (.float ⟨1⟩)).toList = "\x7b\"Float\":".toList ++ text ++ ['\x7d'] ∧
        (⟨1⟩ : Binary64).IsShortest q n := by
  obtain ⟨text, htext, -, h⟩ := toJson_float_shortest (x := ⟨1⟩) (by decide)
  obtain ⟨q, n, -, hq, -⟩ := h (by decide)
  exact ⟨by decide, text, _, n, htext, hq⟩

end Json

end SyntaxTree
