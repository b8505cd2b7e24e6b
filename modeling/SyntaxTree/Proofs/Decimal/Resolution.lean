import SyntaxTree.Proofs.Decimal.Fixed
import SyntaxTree.Proofs.Json.FloatDrift

/-! # Which numbers fixed places tell apart

The fixed-point texts of two finite numbers are the same exactly if the signs are the same and the
same integer is nearest to both, counted in units of the last place. From one sixteenth on the
numbers are farther apart than one unit of the seventeenth place, so the largest precision tells
them apart; below it does not. -/

namespace SyntaxTree

open Json (decimalValue_append)
open Json.Grammar (decimalValue)

/-! ## Nearest integers of two numbers -/

namespace IsNearestEven

variable {q r : ℚ} {m n : Nat}

theorem abs_sub_le_half (h : IsNearestEven q n) : |q - n| ≤ 1 / 2 := by
  have habove := (h (n + 1)).1
  have hbelow := (h (n - 1)).1
  push_cast at habove hbelow
  rcases abs_cases (q - n) with ⟨heq, _⟩ | ⟨heq, _⟩
  · rcases abs_cases (q - (n + 1)) with ⟨heq', _⟩ | ⟨heq', _⟩ <;> linarith
  · rcases abs_cases (q - (n - 1)) with ⟨heq', _⟩ | ⟨heq', _⟩ <;> linarith

/-- Numbers more than one apart are nearest to different integers. -/
theorem lt_of_add_one_lt (hq : IsNearestEven q m) (hr : IsNearestEven r n) (h : q + 1 < r) :
    m < n := by
  have hm := (abs_le.1 hq.abs_sub_le_half).1
  have hn := (abs_le.1 hr.abs_sub_le_half).2
  have hlt : (m : ℚ) < n := by linarith
  exact_mod_cast hlt

/-- Two integers that are equally near are neighbours, and only one of them is even. -/
theorem unique (hm : IsNearestEven q m) (hn : IsNearestEven q n) : m = n := by
  by_contra hne
  have hne' : (n : ℤ) ≠ m := fun h => hne (by exact_mod_cast h.symm)
  obtain ⟨hle, heven⟩ := hm n
  obtain ⟨hle', heven'⟩ := hn m
  rw [Int.cast_natCast] at hle heven hle' heven'
  have heq : |q - m| = |q - n| := le_antisymm hle hle'
  have hm₂ := heven hne' heq.symm
  have hn₂ := heven' hne'.symm heq
  have hnear : |(m : ℚ) - n| ≤ 1 := by
    calc |(m : ℚ) - n| ≤ |(m : ℚ) - q| + |q - n| := abs_sub_le _ _ _
      _ = |q - m| + |q - n| := by rw [abs_sub_comm (m : ℚ) q]
      _ ≤ 1 := by linarith [hm.abs_sub_le_half, hn.abs_sub_le_half]
  have hnear : |(m : ℤ) - n| ≤ 1 := by exact_mod_cast hnear
  rw [Nat.even_iff] at hm₂ hn₂
  rw [abs_le] at hnear
  omega

end IsNearestEven

/-! ## Texts -/

namespace Decimal

/-- With the number of places known, the text gives the digits back. -/
theorem fixedPoint_injective {places m n : Nat} (h : fixedPoint places m = fixedPoint places n) :
    m = n := by
  obtain ⟨whole, fraction, htext, -, -, hlength, hvalue⟩ := fixedPoint_form places m
  obtain ⟨whole', fraction', htext', -, -, hlength', hvalue'⟩ := fixedPoint_form places n
  rw [h, htext'] at htext
  rw [← hvalue, ← hvalue']
  split at htext
  · rename_i hplaces
    obtain rfl : fraction = [] := List.eq_nil_of_length_eq_zero (hlength.trans hplaces)
    obtain rfl : fraction' = [] := List.eq_nil_of_length_eq_zero (hlength'.trans hplaces)
    rw [List.append_nil, List.append_nil] at htext
    rw [htext]
  · obtain ⟨hwhole, hfraction⟩ := List.append_inj' htext (by simp [hlength, hlength'])
    rw [hwhole, (List.cons.inj hfraction).2]

end Decimal

namespace Binary64

theorem toFixed_eq_iff {places : Nat} {x y : Binary64} :
    x.toFixed places = y.toFixed places ↔
      x.isNegative = y.isNegative ∧ x.inPlaces places = y.inPlaces places := by
  constructor
  · intro h
    -- The digits of a text without a sign do not begin with one.
    have hunsigned (n : Nat) : (Decimal.fixedPoint places n).toList.head? ≠ some '-' := by
      obtain ⟨whole, fraction, htext, hwhole, -⟩ := Decimal.fixedPoint_form places n
      rw [htext, List.head?_append_of_ne_nil _ hwhole.1.1]
      intro hhead
      exact absurd (hwhole.1.2 '-' (List.mem_of_mem_head? hhead)) (by decide)
    have htext := congrArg String.toList h
    rw [toList_toFixed, toList_toFixed] at htext
    cases hx : x.isNegative <;> cases hy : y.isNegative <;> rw [hx, hy] at htext
    · exact ⟨rfl, Decimal.fixedPoint_injective (String.toList_inj.1 htext)⟩
    · exact absurd (congrArg List.head? htext) (hunsigned _)
    · exact absurd (congrArg List.head? htext).symm (hunsigned _)
    · exact ⟨rfl, Decimal.fixedPoint_injective (String.toList_inj.1 (List.cons.inj htext).2)⟩
  · rintro ⟨hsign, hplaces⟩
    rw [toFixed, toFixed, hsign, hplaces]

/-! ## The distance between numbers -/

theorem unitsOf_strictMono : StrictMono unitsOf := by
  refine strictMono_nat_of_lt_succ fun m => ?_
  rw [unitsOf_succ]
  exact Nat.lt_add_of_pos_right (gap_pos m)

theorem absValue_eq (x : Binary64) : x.absValue = unitsOf x.magnitudeBits / unitsInOne := by
  rw [← toRat_magnitude, Ratio.toRat, magnitude, units_eq]

theorem absValue_mono {x y : Binary64} (h : x.magnitudeBits ≤ y.magnitudeBits) :
    x.absValue ≤ y.absValue := by
  rw [absValue_eq, absValue_eq]
  refine div_le_div_of_nonneg_right ?_ (Nat.cast_nonneg _)
  exact_mod_cast unitsOf_strictMono.monotone h

/-- The first magnitude of a binade, which is `2 ^ (s - 1022)`. -/
def binadeStart (s : Nat) : Nat := (s + 1) * exponentWeight

section Binade

variable {x y : Binary64} {s : Nat}

theorem unitsOf_binadeStart (s : Nat) : unitsOf (binadeStart s) = exponentWeight * 2 ^ s := by
  rw [binadeStart, Nat.succ_mul]
  exact unitsOf_shifted (by omega) (.inr le_rfl)

theorem gap_binadeStart (s : Nat) : gap (binadeStart s) = 2 ^ s := by
  rw [gap, binadeStart, Nat.mul_div_cancel _ exponentWeight_pos, Nat.add_sub_cancel]

theorem toRat_units (k : Nat) : (2 : ℚ) ^ k / unitsInOne = 2 ^ (k - 1074 : ℤ) := by
  rw [cast_unitsInOne, zpow_sub₀ (by norm_num), zpow_natCast]
  rfl

theorem le_absValue_iff : 2 ^ (s - 1022 : ℤ) ≤ x.absValue ↔ binadeStart s ≤ x.magnitudeBits := by
  have hunits : (0 : ℚ) < unitsInOne := by exact_mod_cast unitsInOne_pos
  have hstart : (unitsOf (binadeStart s) : ℚ) = 2 ^ (s - 1022 : ℤ) * unitsInOne := by
    rw [← div_eq_iff hunits.ne', unitsOf_binadeStart, Nat.cast_mul, cast_exponentWeight,
      Nat.cast_pow, Nat.cast_ofNat, ← pow_add, toRat_units]
    exact congrArg ((2 : ℚ) ^ ·) (by omega)
  rw [absValue_eq, le_div_iff₀ hunits, ← hstart, Nat.cast_le, unitsOf_strictMono.le_iff_le]

/-- Within a binade and above it, numbers are at least the distance of the binade apart. -/
theorem absValue_add_le (hs : binadeStart s ≤ x.magnitudeBits)
    (hlt : x.magnitudeBits < y.magnitudeBits) : x.absValue + 2 ^ (s - 1074 : ℤ) ≤ y.absValue := by
  have hgap : unitsOf x.magnitudeBits + 2 ^ s ≤ unitsOf y.magnitudeBits := by
    calc unitsOf x.magnitudeBits + 2 ^ s ≤ unitsOf x.magnitudeBits + gap x.magnitudeBits :=
          Nat.add_le_add_left (gap_binadeStart s ▸ gap_mono hs) _
      _ = unitsOf (x.magnitudeBits + 1) := (unitsOf_succ _).symm
      _ ≤ unitsOf y.magnitudeBits := unitsOf_strictMono.monotone hlt
  have hgap : (unitsOf x.magnitudeBits : ℚ) + 2 ^ s ≤ unitsOf y.magnitudeBits := by
    exact_mod_cast hgap
  rw [absValue_eq, absValue_eq, ← toRat_units, ← add_div]
  exact div_le_div_of_nonneg_right hgap (Nat.cast_nonneg _)

/-- Below a binade, numbers keep half its distance to it. -/
theorem absValue_add_le_start (hlt : x.magnitudeBits < binadeStart (s + 1)) :
    x.absValue + 2 ^ (s - 1074 : ℤ) ≤ 2 ^ (s - 1021 : ℤ) := by
  have hw := exponentWeight_pos
  have hpred : binadeStart (s + 1) = (binadeStart (s + 1) - 1) + 1 := by omega
  have hgap : gap (binadeStart (s + 1) - 1) = 2 ^ s := by
    rw [gap, Nat.div_eq_of_lt_le (k := s + 1)]
    · rfl
    · simp only [binadeStart, Nat.add_mul, Nat.one_mul]
      omega
    · simp only [binadeStart, Nat.add_mul, Nat.one_mul]
      omega
  have hstart := unitsOf_binadeStart (s + 1)
  rw [hpred, unitsOf_succ, hgap] at hstart
  have hunits : unitsOf x.magnitudeBits + 2 ^ s ≤ exponentWeight * 2 ^ (s + 1) := by
    rw [← hstart]
    exact Nat.add_le_add_right (unitsOf_strictMono.monotone (Nat.le_pred_of_lt hlt)) _
  have hunits : (unitsOf x.magnitudeBits : ℚ) + 2 ^ s ≤ 2 ^ (s + 53) := by
    have hpow : (2 : ℚ) ^ (s + 53) = exponentWeight * 2 ^ (s + 1) := by
      rw [cast_exponentWeight, ← pow_add]
      exact congrArg ((2 : ℚ) ^ ·) (by omega)
    rw [hpow]
    exact_mod_cast hunits
  have hbound : (2 : ℚ) ^ (s - 1021 : ℤ) = 2 ^ (s + 53) / unitsInOne := by
    rw [toRat_units]
    exact congrArg ((2 : ℚ) ^ ·) (by omega)
  rw [absValue_eq, hbound, ← toRat_units, ← add_div]
  exact div_le_div_of_nonneg_right hunits (Nat.cast_nonneg _)

end Binade

end Binary64

/-! ## The largest precision -/

open Binary64

/-- From one sixteenth on, different magnitudes have different digits at the largest precision. -/
theorem Binary64.inPlaces_maxPrecision_lt {x y : Binary64} (hlarge : 1 / 16 ≤ y.absValue)
    (hlt : x.magnitudeBits < y.magnitudeBits) :
    x.inPlaces PrintConfig.maxPrecision < y.inPlaces PrintConfig.maxPrecision := by
  have hx := x.isNearestEven_inPlaces PrintConfig.maxPrecision
  have hy := y.isNearestEven_inPlaces PrintConfig.maxPrecision
  have hplaces : (10 : ℚ) ^ PrintConfig.maxPrecision = 10 ^ 17 := rfl
  rw [hplaces] at hx hy
  rcases Nat.lt_or_ge x.magnitudeBits (binadeStart 1018) with hsmall | hstart
  · -- One sixteenth is a multiple of the last place, and `x` is too far below it.
    have hgap : x.absValue + 2 ^ (-57 : ℤ) ≤ 2 ^ (-4 : ℤ) :=
      absValue_add_le_start (s := 1017) hsmall
    have hupper := (abs_le.1 hx.abs_sub_le_half).1
    have hlower := (abs_le.1 hy.abs_sub_le_half).2
    have hstep : (2 : ℚ) ^ (-57 : ℤ) = 1 / 144115188075855872 := by norm_num
    have hsixteenth : (2 : ℚ) ^ (-4 : ℤ) = 1 / 16 := by norm_num
    rw [hstep, hsixteenth] at hgap
    have hm : (x.inPlaces PrintConfig.maxPrecision : ℚ) < (6250000000000000 : Nat) := by
      push_cast
      linarith
    have hn : ((6250000000000000 - 1 : Nat) : ℚ) < y.inPlaces PrintConfig.maxPrecision := by
      push_cast
      linarith
    have hm := Nat.cast_lt.1 hm
    have hn := Nat.cast_lt.1 hn
    omega
  · have hgap : x.absValue + 2 ^ (-56 : ℤ) ≤ y.absValue :=
      absValue_add_le (s := 1018) hstart hlt
    have hdouble : (2 : ℚ) ^ (-56 : ℤ) = 1 / 72057594037927936 := by norm_num
    refine hx.lt_of_add_one_lt hy ?_
    rw [hdouble] at hgap
    linarith

/-- The digits of a number of at least one sixteenth are those of no other magnitude. -/
theorem Binary64.absValue_lt_of_inPlaces_eq {x y : Binary64}
    (hplaces : x.inPlaces PrintConfig.maxPrecision = y.inPlaces PrintConfig.maxPrecision)
    (hne : x.magnitudeBits ≠ y.magnitudeBits) : y.absValue < 1 / 16 := by
  by_contra hlarge
  rw [not_lt] at hlarge
  rcases Nat.lt_or_gt_of_ne hne with hlt | hgt
  · exact absurd hplaces (inPlaces_maxPrecision_lt hlarge hlt).ne
  · exact absurd hplaces (inPlaces_maxPrecision_lt (hlarge.trans (absValue_mono hgt.le)) hgt).ne'

theorem Expr.text_float_of_isFinite (config : PrintConfig) {x : Binary64}
    (h : x.isFinite = true) : (Expr.float x).text config = x.toFixed config.floatPrecision := by
  rw [Expr.text, PrintConfig.floatText, if_neg (by simp [isNaN_of_isFinite h]),
    if_neg (by simp [isInfinite_of_isFinite h])]

/-- At the largest precision two numbers have the same text only if they are the same, or if both
are below one sixteenth, have the same sign and are nearest to the same multiple of the last
place. -/
theorem Expr.text_maxPrecision_eq_iff {x y : Binary64} (hx : x.isFinite = true)
    (hy : y.isFinite = true) :
    (Expr.float x).text ⟨PrintConfig.maxPrecision⟩ = (Expr.float y).text ⟨PrintConfig.maxPrecision⟩ ↔
      x = y ∨ (x.isNegative = y.isNegative ∧ x.absValue < 1 / 16 ∧ y.absValue < 1 / 16 ∧
        ∃ n, IsNearestEven (x.absValue * 10 ^ PrintConfig.maxPrecision) n ∧
          IsNearestEven (y.absValue * 10 ^ PrintConfig.maxPrecision) n) := by
  rw [text_float_of_isFinite _ hx, text_float_of_isFinite _ hy, toFixed_eq_iff]
  constructor
  · rintro ⟨hsign, hplaces⟩
    by_cases hmagnitude : x.magnitudeBits = y.magnitudeBits
    · exact .inl (eq_of_parts hsign hmagnitude)
    · refine .inr ⟨hsign, absValue_lt_of_inPlaces_eq hplaces.symm (Ne.symm hmagnitude),
        absValue_lt_of_inPlaces_eq hplaces hmagnitude, x.inPlaces _, x.isNearestEven_inPlaces _, ?_⟩
      rw [hplaces]
      exact y.isNearestEven_inPlaces _
  · rintro (rfl | ⟨hsign, -, -, n, hn, hn'⟩)
    · exact ⟨rfl, rfl⟩
    · have hx := (x.isNearestEven_inPlaces PrintConfig.maxPrecision).unique hn
      have hy := (y.isNearestEven_inPlaces PrintConfig.maxPrecision).unique hn'
      exact ⟨hsign, hx.trans hy.symm⟩

/-- One sixteenth and the number before it have different texts. -/
theorem Expr.text_maxPrecision_sixteenth :
    (⟨0x3fb0000000000000⟩ : Binary64).isFinite = true ∧
      (⟨0x3fafffffffffffff⟩ : Binary64).isFinite = true ∧
      (Expr.float ⟨0x3fb0000000000000⟩).text ⟨PrintConfig.maxPrecision⟩ ≠
        (Expr.float ⟨0x3fafffffffffffff⟩).text ⟨PrintConfig.maxPrecision⟩ := by
  refine ⟨by decide, by decide, fun h => ?_⟩
  have hstart : binadeStart 1018 ≤ (⟨0x3fb0000000000000⟩ : Binary64).magnitudeBits := by decide
  have hlarge := le_absValue_iff.2 hstart
  norm_num at hlarge
  rcases (Expr.text_maxPrecision_eq_iff (by decide) (by decide)).1 h with heq | ⟨-, hsmall, -⟩
  · exact absurd heq (by decide)
  · linarith

/-- One hundredth and the next number are different and have the same text. -/
theorem Expr.text_maxPrecision_hundredth :
    (⟨0x3f847ae147ae147b⟩ : Binary64).isFinite = true ∧
      (⟨0x3f847ae147ae147c⟩ : Binary64).isFinite = true ∧
      (⟨0x3f847ae147ae147b⟩ : Binary64) ≠ ⟨0x3f847ae147ae147c⟩ ∧
      (Expr.float ⟨0x3f847ae147ae147b⟩).text ⟨PrintConfig.maxPrecision⟩ =
        (Expr.float ⟨0x3f847ae147ae147c⟩).text ⟨PrintConfig.maxPrecision⟩ := by
  decide +kernel

end SyntaxTree
