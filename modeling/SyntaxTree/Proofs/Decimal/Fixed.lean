import Mathlib.Algebra.Order.Group.Unbundled.Abs
import SyntaxTree.Proofs.Json.FloatLiteral
import SyntaxTree.Proofs.Print.Words

/-! # Fixed-point text is rounded correctly

The digits of a finite number, without the point, are the integer nearest to its absolute value in
units of the last place, and the even one of two that are equally near. The digits after the point
are the places, and the sign is the sign bit, also where all digits are zero. -/

namespace SyntaxTree

open Json (isDigit isDigit_eq toDigits_text decimalValue_toDigits decimalValue_append
  decimalValue_zeros)
open Json.Grammar (WholeText decimalValue)

/-! ## The nearest integer -/

/-- No integer is nearer to `q` than `n`, and `n` is even if another one is as near. -/
def IsNearestEven (q : ℚ) (n : Nat) : Prop :=
  ∀ k : ℤ, |q - n| ≤ |q - k| ∧ (k ≠ n → |q - k| = |q - n| → Even n)

/-- What is within one half is nearest, and only at one half another integer is as near. -/
theorem isNearestEven_of_half {q : ℚ} {n : Nat} (hnear : |q - n| ≤ 1 / 2)
    (hodd : ¬ Even n → |q - n| < 1 / 2) : IsNearestEven q n := by
  intro k
  by_cases hk : k = n
  · subst hk
    exact ⟨le_rfl, fun hne => absurd rfl hne⟩
  · have hstep : (1 : ℚ) ≤ |(k : ℚ) - n| := by
      have h : 1 ≤ |k - n| := Int.one_le_abs (sub_ne_zero.2 hk)
      exact_mod_cast h
    have hsplit : |(k : ℚ) - n| ≤ |q - k| + |q - n| := by
      rw [abs_sub_comm q k]
      exact abs_sub_le (k : ℚ) q n
    refine ⟨by linarith, fun _ heq => ?_⟩
    by_contra heven
    linarith [hodd heven]

namespace Ratio

/-- An odd number is the result only for what is nearer to it than one half. -/
theorem nearest_near_of_odd (r : Ratio) (hodd : ¬ Even r.nearest) :
    2 * r.num < (2 * r.nearest + 1) * r.den ∧ 2 * (r.nearest * r.den) < 2 * r.num + r.den := by
  have hd := Nat.div_add_mod r.num r.den
  have hr := Nat.mod_lt r.num r.den_pos
  have hc : r.den * (r.num / r.den) = r.num / r.den * r.den := Nat.mul_comm _ _
  rw [Nat.even_iff] at hodd
  unfold nearest at hodd ⊢
  simp only [] at hodd ⊢
  generalize r.num / r.den = q at *
  generalize r.num % r.den = m at *
  split at hodd
  · rename_i hlow
    rw [if_pos hlow]
    constructor <;> grind
  · rename_i hlow
    split at hodd
    · rename_i hhigh
      rw [if_neg hlow, if_pos hhigh]
      constructor <;> grind
    · omega

theorem isNearestEven_nearest (r : Ratio) : IsNearestEven r.toRat r.nearest := by
  have hd : (0 : ℚ) < r.den := by exact_mod_cast r.den_pos
  have hnum : (r.num : ℚ) = r.toRat * r.den := by
    rw [toRat, div_mul_cancel₀ _ r.den_ne_zero]
  obtain ⟨hupper, hlower⟩ := nearest_bounds r
  refine isNearestEven_of_half (abs_le.2 ⟨by linarith, by linarith⟩) fun hodd => ?_
  obtain ⟨h₁, h₂⟩ := nearest_near_of_odd r hodd
  have h₁ : (2 : ℚ) * r.num < (2 * r.nearest + 1) * r.den := by exact_mod_cast h₁
  have h₂ : (2 : ℚ) * (r.nearest * r.den) < 2 * r.num + r.den := by exact_mod_cast h₂
  rw [hnum] at h₁ h₂
  refine abs_lt.2 ⟨?_, ?_⟩
  · refine lt_of_mul_lt_mul_right ?_ hd.le
    linarith
  · refine lt_of_mul_lt_mul_right ?_ hd.le
    linarith

end Ratio

/-! ## Digits on both sides of the point -/

namespace Decimal

theorem length_paddedDigits {width n : Nat} (hw : 0 < width) (hn : n < 10 ^ width) :
    (paddedDigits width n).length = width := by
  have hlength := (Nat.length_toDigits_le_iff (by decide) hw).2 hn
  simp only [paddedDigits, List.length_append, List.length_replicate]
  omega

theorem decimalValue_paddedDigits (width n : Nat) : decimalValue (paddedDigits width n) = n := by
  rw [paddedDigits, decimalValue_append, decimalValue_zeros, decimalValue_toDigits, Nat.mul_zero,
    Nat.zero_add]

/-- The digits on both sides of the point write the number, and as many of them as there are places
stand after the point. -/
theorem fixedPoint_form (places n : Nat) : ∃ whole fraction,
    (fixedPoint places n).toList = whole ++ (if places = 0 then [] else '.' :: fraction) ∧
      WholeText whole ∧ (∀ c ∈ fraction, isDigit c = true) ∧ fraction.length = places ∧
        decimalValue (whole ++ fraction) = n := by
  rw [Print.toList_fixedPoint]
  by_cases hplaces : places = 0
  · refine ⟨Nat.toDigits 10 n, [], by simp [hplaces], toDigits_text n, by simp, hplaces.symm, ?_⟩
    rw [List.append_nil, decimalValue_toDigits]
  · have hrest : n % Nat.pow 10 places < 10 ^ places := Nat.mod_lt n (Nat.pow_pos (by decide))
    have hlength := length_paddedDigits (Nat.pos_of_ne_zero hplaces) hrest
    refine ⟨Nat.toDigits 10 (n / Nat.pow 10 places), paddedDigits places (n % Nat.pow 10 places),
      by simp [hplaces], toDigits_text _, fun c hc => ?_, hlength, ?_⟩
    · rw [isDigit_eq]
      exact Print.isDigit_of_mem_paddedDigits hc
    · rw [decimalValue_append, decimalValue_toDigits, decimalValue_paddedDigits, hlength]
      exact Nat.div_add_mod n (10 ^ places)

end Decimal

/-! ## The text of a number -/

namespace Binary64

/-- The absolute value of a finite number, which is its significand times a power of two. -/
def absValue (x : Binary64) : ℚ := x.significand * 2 ^ (x.scale - 1074 : ℤ)

theorem toRat_magnitude (x : Binary64) : x.magnitude.toRat = x.absValue := by
  have hunits : (x.units : ℚ) = x.significand * 2 ^ x.scale := by
    rw [units, Nat.cast_mul, cast_pow_two]
  rw [Ratio.toRat, magnitude, absValue, hunits, cast_unitsInOne, zpow_sub₀ (by norm_num),
    zpow_natCast, mul_div_assoc]
  rfl

theorem isNearestEven_inPlaces (x : Binary64) (places : Nat) :
    IsNearestEven (x.absValue * 10 ^ places) (x.inPlaces places) := by
  have h := Ratio.isNearestEven_nearest (x.magnitude.mul (.ofNat (Nat.pow 10 places)))
  rw [Ratio.toRat_mul, Ratio.toRat_ofNat, toRat_magnitude] at h
  exact_mod_cast h

end Binary64

theorem Binary64.toList_toFixed (places : Nat) (x : Binary64) :
    (x.toFixed places).toList = (if x.isNegative then ['-'] else []) ++
      (Decimal.fixedPoint places (x.inPlaces places)).toList := by
  rw [toFixed, String.toList_append]
  cases x.isNegative <;> rfl

/-- The text of a finite number is its sign, a whole part, and the configured number of places
after a point if there are any. Its digits are the nearest integer, ties to even, to the absolute
value in units of the last place. -/
theorem Expr.text_float_nearestEven (config : PrintConfig) {x : Binary64}
    (hfinite : x.isFinite = true) : ∃ whole fraction : List Char,
      ((Expr.float x).text config).toList = (if x.isNegative then ['-'] else []) ++
        (whole ++ (if config.floatPrecision = 0 then [] else '.' :: fraction)) ∧
      WholeText whole ∧ (∀ c ∈ fraction, isDigit c = true) ∧
      fraction.length = config.floatPrecision ∧
      IsNearestEven (x.absValue * 10 ^ config.floatPrecision)
        (decimalValue (whole ++ fraction)) := by
  obtain ⟨whole, fraction, htext, hwhole, hdigits, hlength, hvalue⟩ :=
    Decimal.fixedPoint_form config.floatPrecision (x.inPlaces config.floatPrecision)
  refine ⟨whole, fraction, ?_, hwhole, hdigits, hlength, ?_⟩
  · rw [Expr.text, PrintConfig.floatText, if_neg (by simp [Binary64.isNaN_of_isFinite hfinite]),
      if_neg (by simp [Binary64.isInfinite_of_isFinite hfinite]), Binary64.toList_toFixed, htext]
  · rw [hvalue]
    exact x.isNearestEven_inPlaces config.floatPrecision

/-- The number `-2.5` lies in the middle between two integers. -/
theorem Expr.text_float_nearestEven_tie :
    Binary64.isFinite ⟨0xc004000000000000⟩ = true ∧ ∃ whole fraction : List Char,
      ((Expr.float ⟨0xc004000000000000⟩).text ⟨0⟩).toList = ['-'] ++ (whole ++ []) ∧
      WholeText whole ∧ (∀ c ∈ fraction, isDigit c = true) ∧ fraction.length = 0 ∧
      IsNearestEven (Binary64.absValue ⟨0xc004000000000000⟩ * 10 ^ 0)
        (decimalValue (whole ++ fraction)) :=
  ⟨by decide, Expr.text_float_nearestEven ⟨0⟩ (by decide)⟩

end SyntaxTree
