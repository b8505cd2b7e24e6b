import SyntaxTree.Json.Number
import SyntaxTree.Proofs.Binary64.Drift

/-! # Scaling by powers of ten

A significand times a power of ten comes from a rounded significand and a rounded power by one
rounded operation, or from two divisions where the power is too small for one. Either way the ratio
that is rounded last is within two roundings of the exact product. -/

namespace SyntaxTree

open Binary64
open Json (largestPower powerOfTen)

namespace Binary64

theorem position_ofNat (n : Nat) : position (.ofNat n) = n * unitsInOne := by
  rw [position, Ratio.toRat_ofNat]

theorem isNegative_ofRatio (negative : Bool) (r : Ratio) :
    (ofRatio negative r).isNegative = negative :=
  isNegative_ofParts (Nat.lt_of_le_of_lt (Nat.min_le_right _ _) (by decide))

/-- Natural numbers are rounded to numbers without a sign. -/
theorem isNegative_ofNat (n : Nat) : (ofNat n).isNegative = false := isNegative_ofRatio false _

/-- Every significand that is written is below the largest power of ten. -/
theorem le_largestPower {w : Nat} (hw : w ≤ 10 ^ 17) : w ≤ 10 ^ largestPower :=
  hw.trans (Nat.pow_le_pow_right (by decide) (by decide))

/-- The finite numbers end between the largest power and the next one. -/
theorem largestPower_bounds : 10 ^ largestPower * unitsInOne ≤ largestUnits ∧
    exponentWeight * 2 ^ 2046 < 10 ^ (largestPower + 1) * unitsInOne := by
  decide +kernel

/-- The units in 1 are at least as many as a power of two up to the 1074th. -/
theorem pow_two_le_unitsInOne {k : Nat} (hk : k ≤ 1074) : 2 ^ k ≤ unitsInOne := by
  have h : (2 : ℚ) ^ k ≤ unitsInOne := by
    rw [cast_unitsInOne]
    exact pow_le_pow_right₀ (by norm_num) hk
  exact_mod_cast h

section OfNat

variable {n : Nat}

/-- Up to the largest power of ten, a natural number lies among the finite numbers. -/
theorem position_ofNat_le (hn : n ≤ 10 ^ largestPower) : position (.ofNat n) ≤ largestUnits := by
  rw [position_ofNat]
  exact_mod_cast (Nat.mul_le_mul_right _ hn).trans largestPower_bounds.1

theorem le_position_ofNat (hpos : 0 < n) : exponentWeight ≤ position (.ofNat n) := by
  have hunits : exponentWeight ≤ unitsInOne := pow_two_le_unitsInOne (k := 52) (by decide)
  rw [position_ofNat]
  exact_mod_cast hunits.trans (Nat.le_mul_of_pos_left _ hpos)

theorem ofNat_near (hpos : 0 < n) (hn : n ≤ 10 ^ largestPower) :
    Near oneRounding n (ofNat n).magnitude.toRat := by
  have h := ofRatio_near false (le_position_ofNat hpos)
    (nearestMagnitude_lt (position_ofNat_le hn))
  rwa [Ratio.toRat_ofNat] at h

theorem ofNat_exact {a j : Nat} (ha : a ≤ 2 * exponentWeight) (h : n = a * 2 ^ j)
    (hn : n ≤ 10 ^ largestPower) : (ofNat n).magnitude.toRat = n := by
  have hposition : position (.ofNat n) = a * 2 ^ (j + 1074) := by
    rw [position_ofNat, cast_unitsInOne, h, pow_add, Nat.cast_mul, Nat.cast_pow, Nat.cast_ofNat,
      mul_assoc]
  have := ofRatio_exact false ha hposition (position_ofNat_le hn)
  rwa [Ratio.toRat_ofNat] at this

end OfNat

/-! ## Operations -/

theorem mul_eq {x y : Binary64} (hx : x.isNegative = false) (hy : y.isNegative = false) :
    x.mul y = ofRatio false (x.magnitude.mul y.magnitude) := by
  rw [mul, hx, hy]
  rfl

theorem div_eq {x y : Binary64} (hx : x.isNegative = false) (hy : y.isNegative = false)
    (h : 0 < y.magnitude.num) :
    x.div y = ofRatio false (x.magnitude.div y.magnitude h) := by
  rw [div, dif_pos h, hx, hy]
  rfl

theorem isZero_eq_false {x : Binary64} (h : 0 < x.magnitude.toRat) : x.isZero = false := by
  rw [Ratio.toRat_pos] at h
  rw [isZero, beq_eq_false_iff_ne]
  intro hzero
  rw [magnitude, units_eq, hzero] at h
  exact absurd h (by decide)

end Binary64

namespace Json

/-! ## Powers of ten -/

theorem pow_ten_le {k : Nat} (hk : k ≤ largestPower) : 10 ^ k ≤ 10 ^ largestPower :=
  Nat.pow_le_pow_right (by decide) hk

/-- A power in the table is off by one rounding at most. -/
theorem powerOfTen_near {k : Nat} (hk : k ≤ largestPower) :
    Near oneRounding (10 ^ k) (powerOfTen k).magnitude.toRat := by
  have h := ofNat_near (Nat.pow_pos (by decide)) (pow_ten_le hk)
  rwa [Nat.cast_pow] at h

/-- The powers up to the 22nd are exact, because `5 ^ 22` fits into a significand. -/
theorem powerOfTen_exact {k : Nat} (hk : k ≤ 22) : (powerOfTen k).magnitude.toRat = 10 ^ k := by
  have hfive : 5 ^ k ≤ 2 * exponentWeight :=
    (Nat.pow_le_pow_right (by decide) hk).trans (by decide)
  have hten : 10 ^ k = 5 ^ k * 2 ^ k := Nat.mul_pow 5 2 k
  have h := ofNat_exact hfive hten (pow_ten_le (hk.trans (by decide)))
  rwa [Nat.cast_pow] at h

/-- No power in the table is zero, so division by it is that of the values. -/
theorem powerOfTen_num_pos {k : Nat} (hk : k ≤ largestPower) : 0 < (powerOfTen k).magnitude.num := by
  have h : (0 : ℚ) < oneRounding * (powerOfTen k).magnitude.toRat :=
    lt_of_lt_of_le (by positivity) (powerOfTen_near hk).1
  exact Ratio.toRat_pos.1 ((pos_iff_pos_of_mul_pos h).1 oneRounding_pos)

theorem isNegative_powerOfTen (k : Nat) : (powerOfTen k).isNegative = false :=
  isNegative_ofRatio false _

/-! ## Two divisions

The largest power has a significand just above `5 * 10 ^ 15`. Of a significand and its quotient by
that power, one is large enough to be rounded with an error that leaves room for the error of the
power itself. -/

/-- The largest power is `powerSignificand * 2 ^ powerShift`. -/
def powerSignificand : Nat := 5010420900022432

/-- The power of two in the largest power of the table. -/
def powerShift : Nat := 971

/-- The factor of a rounding whose significand is above `5 * 10 ^ 15`. -/
def shortRounding : ℚ := 1 + 1 / 10 ^ 16

/-- The factor of the largest power. -/
def powerRounding : ℚ := 1 + 11 / 10 ^ 18

/-- The errors of the largest power and of a short quotient together are within one rounding. -/
theorem roundings_le : powerRounding * shortRounding ≤ oneRounding := by
  norm_num [powerRounding, shortRounding, oneRounding, cast_exponentWeight]

theorem unitsInOne_eq : (unitsInOne : ℚ) = 2 ^ powerShift * 2 ^ 103 := by
  rw [cast_unitsInOne, ← pow_add, powerShift]

/-- The largest power is rounded by at most eleven parts in `10 ^ 18`. -/
theorem largestPower_rounded :
    (powerOfTen largestPower).units = powerSignificand * 2 ^ powerShift * unitsInOne ∧
      10 ^ 18 * 10 ^ largestPower ≤ (10 ^ 18 + 11) * (powerSignificand * 2 ^ powerShift) ∧
        10 ^ 18 * (powerSignificand * 2 ^ powerShift) ≤ (10 ^ 18 + 11) * 10 ^ largestPower := by
  decide +kernel

theorem toRat_largestPower :
    (powerOfTen largestPower).magnitude.toRat = powerSignificand * 2 ^ powerShift := by
  have hunits : (unitsInOne : ℚ) ≠ 0 := by exact_mod_cast unitsInOne_pos.ne'
  simp only [Ratio.toRat, magnitude, largestPower_rounded.1, Nat.cast_mul, Nat.cast_pow,
    Nat.cast_ofNat]
  exact mul_div_cancel_right₀ _ hunits

/-- The largest power is much closer to its number than one rounding would have it. This is checked
on the numbers themselves. -/
theorem largestPower_near :
    Near powerRounding (10 ^ largestPower) (powerOfTen largestPower).magnitude.toRat := by
  obtain ⟨-, h₁, h₂⟩ := largestPower_rounded
  have h₁ : (10 : ℚ) ^ 18 * 10 ^ largestPower ≤
      (10 ^ 18 + 11) * (powerSignificand * 2 ^ powerShift) := by exact_mod_cast h₁
  have h₂ : (10 : ℚ) ^ 18 * (powerSignificand * 2 ^ powerShift) ≤
      (10 ^ 18 + 11) * 10 ^ largestPower := by exact_mod_cast h₂
  rw [toRat_largestPower, Near, powerRounding]
  constructor <;> linarith

/-- A quotient by the largest power. -/
def firstQuotient (w : Nat) : Ratio :=
  (ofNat w).magnitude.div (powerOfTen largestPower).magnitude (powerOfTen_num_pos le_rfl)

/-- The value of the first quotient, with the largest power written out. -/
theorem toRat_firstQuotient (w : Nat) : (firstQuotient w).toRat =
    (ofNat w).magnitude.toRat / (powerSignificand * 2 ^ powerShift) := by
  rw [firstQuotient, Ratio.toRat_div, toRat_largestPower]

theorem position_firstQuotient (w : Nat) : position (firstQuotient w) =
    (ofNat w).magnitude.toRat * 2 ^ 103 / powerSignificand := by
  have hshift : (2 : ℚ) ^ powerShift ≠ 0 := by positivity
  rw [position, toRat_firstQuotient, unitsInOne_eq, div_mul_eq_mul_div, mul_left_comm,
    mul_comm (powerSignificand : ℚ), mul_div_mul_left _ _ hshift]

section FirstQuotient

variable {w : Nat}

theorem ofNat_le_of_le (hw : 3 ≤ w) (hw' : w ≤ 10 ^ 17) :
    5 / 2 ≤ (ofNat w).magnitude.toRat ∧ (ofNat w).magnitude.toRat ≤ 10 ^ 18 := by
  obtain ⟨hlower, hupper⟩ := ofNat_near (by omega) (le_largestPower hw')
  have hfactor : oneRounding ≤ 6 / 5 := by
    norm_num [oneRounding, cast_exponentWeight]
  have h₁ : (3 : ℚ) ≤ w := by exact_mod_cast hw
  have h₂ : (w : ℚ) ≤ 10 ^ 17 := by exact_mod_cast hw'
  have hlower := hlower.trans (mul_le_mul_of_nonneg_right hfactor (Ratio.toRat_nonneg _))
  have hupper := hupper.trans (mul_le_mul_of_nonneg_right hfactor (Nat.cast_nonneg w))
  constructor <;> linarith

/-- The first quotient is normal, so that its rounding has a relative error. -/
theorem firstQuotient_normal (hw : 3 ≤ w) (hw' : w ≤ 10 ^ 17) :
    exponentWeight ≤ position (firstQuotient w) := by
  have h := (ofNat_le_of_le hw hw').1
  rw [position_firstQuotient, cast_exponentWeight, powerSignificand, le_div_iff₀ (by norm_num)]
  norm_num
  linarith

theorem firstQuotient_lt (hw : 3 ≤ w) (hw' : w ≤ 10 ^ 17) :
    nearestMagnitude (firstQuotient w) < 2047 * exponentWeight := by
  have hlargest : 10 ^ 18 * 2 ^ 103 ≤ largestUnits :=
    (Nat.mul_le_mul (pow_ten_le (by decide)) (pow_two_le_unitsInOne (by decide))).trans
      largestPower_bounds.1
  refine nearestMagnitude_lt ?_
  rw [position_firstQuotient, powerSignificand]
  have h := (ofNat_le_of_le hw hw').2
  have hcast : (10 : ℚ) ^ 18 * 2 ^ 103 ≤ largestUnits := by exact_mod_cast hlargest
  refine le_trans ?_ hcast
  rw [div_le_iff₀ (by norm_num)]
  norm_num
  linarith

/-- A large significand is rounded with the smaller error. -/
theorem near_of_large {q : ℚ} {s g : Nat} (hlarge : (5 * 10 ^ 15 + 1) * 2 ^ s ≤ q + 2 ^ s / 2)
    (hupper : q ≤ (g + 1 / 2) * 2 ^ s) (hlower : (g - 1 / 2) * 2 ^ s ≤ q) :
    Near shortRounding q (g * 2 ^ s) := by
  have hk : (1 : ℚ) + 1 / (2 * (5 * 10 ^ 15)) = shortRounding := by norm_num [shortRounding]
  have hpow : (0 : ℚ) < 2 ^ s := by positivity
  have hg : (5 * 10 ^ 15 : ℚ) ≤ g := by
    refine le_of_mul_le_mul_right ?_ hpow
    linarith
  rw [← hk]
  exact near_of_significand (by norm_num) hupper hlower (by linarith) hg

/-- The quotient of a small significand has a large one. -/
theorem firstQuotient_large {s g s' : Nat} (hposition : position (ofNat w).magnitude = g * 2 ^ s)
    (hg : exponentWeight ≤ g) (hsmall : g < powerSignificand)
    (hnormal : exponentWeight * 2 ^ s' ≤ position (firstQuotient w)) :
    (5 * 10 ^ 15 + 1) * 2 ^ s' ≤ position (firstQuotient w) := by
  have hquotient : position (firstQuotient w) = g * 2 ^ s / (powerSignificand * 2 ^ powerShift) := by
    rw [← hposition, position, position, toRat_firstQuotient, div_mul_eq_mul_div]
  have hdivisor : (0 : ℚ) < powerSignificand * 2 ^ powerShift := by
    have : 0 < powerSignificand := by decide
    positivity
  rw [hquotient, le_div_iff₀ hdivisor] at hnormal ⊢
  have hscale : s' + powerShift + 52 < s := by
    have hlt : exponentWeight * 2 ^ s' * (powerSignificand * 2 ^ powerShift) <
        powerSignificand * 2 ^ s :=
      lt_of_le_of_lt (by exact_mod_cast hnormal) (Nat.mul_lt_mul_of_pos_right hsmall (by positivity))
    have hlt : 2 ^ (s' + powerShift + 52) * powerSignificand < 2 ^ s * powerSignificand := by
      calc 2 ^ (s' + powerShift + 52) * powerSignificand
          = exponentWeight * 2 ^ s' * (powerSignificand * 2 ^ powerShift) := by
            rw [Nat.pow_add, Nat.pow_add, show exponentWeight = 2 ^ 52 from rfl]
            ring
        _ < powerSignificand * 2 ^ s := hlt
        _ = 2 ^ s * powerSignificand := Nat.mul_comm _ _
    exact (Nat.pow_lt_pow_iff_right (by decide)).1 (Nat.lt_of_mul_lt_mul_right hlt)
  have hpow : (2 : ℚ) ^ (s' + powerShift + 53) ≤ 2 ^ s :=
    pow_le_pow_right₀ (by norm_num) hscale
  have hg : (2 : ℚ) ^ 52 ≤ g := by
    rw [← cast_exponentWeight]
    exact_mod_cast hg
  have hconstant : (5 * 10 ^ 15 + 1) * (powerSignificand : ℚ) ≤ 2 ^ 52 * 2 ^ 53 := by
    norm_num [powerSignificand]
  calc (5 * 10 ^ 15 + 1) * (2 : ℚ) ^ s' * (powerSignificand * 2 ^ powerShift)
      = (5 * 10 ^ 15 + 1) * powerSignificand * (2 ^ s' * 2 ^ powerShift) := by ring
    _ ≤ 2 ^ 52 * 2 ^ 53 * (2 ^ s' * 2 ^ powerShift) :=
        mul_le_mul_of_nonneg_right hconstant (by positivity)
    _ = 2 ^ 52 * 2 ^ (s' + powerShift + 53) := by
        rw [pow_add, pow_add, mul_assoc, mul_comm ((2 : ℚ) ^ 53)]
    _ ≤ g * 2 ^ s := mul_le_mul hg hpow (by positivity) (by positivity)

/-- Either the significand or the quotient is rounded with the smaller error. -/
theorem shortRounding_or (hw : 3 ≤ w) (hw' : w ≤ 10 ^ 17) :
    Near shortRounding w (ofNat w).magnitude.toRat ∨
      Near shortRounding (firstQuotient w).toRat
        (ofRatio false (firstQuotient w)).magnitude.toRat := by
  have hpos : 0 < w := by omega
  have hle := le_largestPower hw'
  obtain ⟨s, g, hposition, hg, -, hupper, hlower⟩ := ofRatio_normal false
    (le_position_ofNat hpos) (nearestMagnitude_lt (position_ofNat_le hle))
  by_cases hlarge : 5 * 10 ^ 15 + 1 ≤ g
  · left
    have hlarge : (5 * 10 ^ 15 + 1 : ℚ) * 2 ^ s ≤ g * 2 ^ s :=
      mul_le_mul_of_nonneg_right (by exact_mod_cast hlarge) (by positivity)
    have h := near_of_large (by linarith) hupper hlower
    rwa [← hposition, position_near_iff, Ratio.toRat_ofNat] at h
  · right
    obtain ⟨s', g', hposition', hg', hq', hupper', hlower'⟩ := ofRatio_normal false
      (firstQuotient_normal hw hw') (firstQuotient_lt hw hw')
    have hpow : (0 : ℚ) < 2 ^ s' := by positivity
    have hlarge' := firstQuotient_large hposition hg (by simp only [powerSignificand]; omega) hq'
    have h := near_of_large (by linarith) hupper' hlower'
    rwa [← hposition', position_near_iff] at h

/-- The two roundings of the first division and the rounding of the power make up no more than two
roundings. -/
theorem firstQuotient_near (hw : 3 ≤ w) (hw' : w ≤ 10 ^ 17) :
    Near (oneRounding ^ 2) (ofRatio false (firstQuotient w)).magnitude.toRat
      (w / 10 ^ largestPower) := by
  have hpos : 0 < w := by omega
  have hle := le_largestPower hw'
  have hone := oneRounding_pos.le
  have hshort : (0 : ℚ) ≤ shortRounding := by norm_num [shortRounding]
  have hpower : (0 : ℚ) ≤ powerRounding := by norm_num [powerRounding]
  have hdivisor : (0 : ℚ) < (powerOfTen largestPower).magnitude.toRat :=
    Ratio.toRat_pos.2 (powerOfTen_num_pos le_rfl)
  have hquotient : (firstQuotient w).toRat =
      (ofNat w).magnitude.toRat * ((powerOfTen largestPower).magnitude.toRat)⁻¹ := by
    rw [firstQuotient, Ratio.toRat_div, div_eq_mul_inv]
  have hfirst : Near oneRounding w (ofNat w).magnitude.toRat := ofNat_near hpos hle
  have hsecond : Near oneRounding (firstQuotient w).toRat
      (ofRatio false (firstQuotient w)).magnitude.toRat :=
    ofRatio_near false (firstQuotient_normal hw hw') (firstQuotient_lt hw hw')
  have htwo : Near (shortRounding * oneRounding)
      (w * ((powerOfTen largestPower).magnitude.toRat)⁻¹)
      (ofRatio false (firstQuotient w)).magnitude.toRat := by
    rcases shortRounding_or hw hw' with h | h
    · have h := h.mul_right (inv_nonneg.2 hdivisor.le)
      rw [← hquotient] at h
      exact h.trans hshort hone hsecond
    · have hfirst := hfirst.mul_right (inv_nonneg.2 hdivisor.le)
      rw [← hquotient] at hfirst
      rw [mul_comm shortRounding]
      exact hfirst.trans hone hshort h
  have hten := (largestPower_near.inv (by positivity) hdivisor).mul_left (Nat.cast_nonneg w)
  have hall := hten.trans hpower (mul_nonneg hshort hone) htwo
  rw [← div_eq_mul_inv] at hall
  refine (hall.mono (by positivity) (Ratio.toRat_nonneg _) ?_).symm
  calc powerRounding * (shortRounding * oneRounding)
      = powerRounding * shortRounding * oneRounding := (mul_assoc _ _ _).symm
    _ ≤ oneRounding * oneRounding := mul_le_mul_of_nonneg_right roundings_le hone
    _ = oneRounding ^ 2 := (sq oneRounding).symm

end FirstQuotient

/-! ## Scaling -/

theorem scaleDown_of_le {x : Binary64} {k : Nat} (hk : k ≤ largestPower) :
    scaleDown x k = x.div (powerOfTen k) := by
  rw [scaleDown, if_pos hk]

/-- Beyond the table, a number other than zero is first divided by the largest power. -/
theorem scaleDown_of_lt {x : Binary64} {k : Nat} (hx : x.isZero = false) (hk : largestPower < k) :
    scaleDown x k = scaleDown (x.div (powerOfTen largestPower)) (k - largestPower) := by
  rw [scaleDown, if_neg (Nat.not_le.2 hk), if_neg (by simp [hx])]

/-- The factor that one operation scales by. -/
def scaleFactor (e : Int) : ℚ :=
  if e < 0 then ((powerOfTen e.natAbs).magnitude.toRat)⁻¹ else (powerOfTen e.natAbs).magnitude.toRat

section OneOperation

variable {e : Int}

/-- A power of ten by the sign of its exponent, as the scaling distinguishes them. -/
theorem pow_ten_natAbs (e : Int) :
    (10 : ℚ) ^ e = if e < 0 then ((10 : ℚ) ^ e.natAbs)⁻¹ else 10 ^ e.natAbs := by
  split
  · rw [← zpow_natCast, ← zpow_neg]
    congr 1
    omega
  · rw [← zpow_natCast]
    congr 1
    omega

/-- The factor that the scaling applies is off by one rounding at most. -/
theorem scaleFactor_near (he : e.natAbs ≤ largestPower) :
    Near oneRounding (10 ^ e) (scaleFactor e) := by
  have h := powerOfTen_near he
  rw [pow_ten_natAbs, scaleFactor]
  split
  · exact h.inv (by positivity) (Ratio.toRat_pos.2 (powerOfTen_num_pos he))
  · exact h

theorem scaleFactor_exact (he : e.natAbs ≤ 22) : scaleFactor e = 10 ^ e := by
  rw [pow_ten_natAbs, scaleFactor, powerOfTen_exact he]

theorem scaleFactor_nonneg (e : Int) : 0 ≤ scaleFactor e := by
  unfold scaleFactor
  split
  · exact inv_nonneg.2 (Ratio.toRat_nonneg _)
  · exact Ratio.toRat_nonneg _

/-- What is rounded below the largest exponent field is not infinite. -/
theorem isInfinite_ofRatio {r : Ratio} (h : nearestMagnitude r < 2047 * exponentWeight) :
    (ofRatio false r).isInfinite = false := by
  have hfield : (ofRatio false r).exponentField < 2047 := by
    rw [exponentField, magnitudeBits_ofRatio, roundMagnitude_eq_of_lt h]
    exact Nat.div_lt_of_lt_mul (by rwa [Nat.mul_comm])
  rw [isInfinite, Bool.and_eq_false_imp, beq_iff_eq]
  omega

/-- Up to the largest power, the product or the quotient is rounded once. -/
theorem scaleBy_eq (w : Nat) (he : e.natAbs ≤ largestPower) :
    ∃ r : Ratio, r.toRat = (ofNat w).magnitude.toRat * scaleFactor e ∧
      (nearestMagnitude r < 2047 * exponentWeight →
        scaleBy (ofNat w) e = some (ofRatio false r)) := by
  have hpower := isNegative_powerOfTen e.natAbs
  rw [scaleBy, scaleFactor]
  by_cases hneg : e < 0
  · rw [if_pos hneg, if_pos hneg, scaleDown_of_le he]
    have hnum := powerOfTen_num_pos he
    exact ⟨_, by rw [Ratio.toRat_div, div_eq_mul_inv],
      fun _ => congrArg some (div_eq (isNegative_ofNat w) hpower hnum)⟩
  · have hnat : e.toNat = e.natAbs := by omega
    rw [if_neg hneg, if_neg hneg, if_pos (by omega), hnat, mul_eq (isNegative_ofNat w) hpower]
    refine ⟨_, Ratio.toRat_mul _ _, fun h => ?_⟩
    simp [isInfinite_ofRatio h]

end OneOperation

section Scaled

variable {w k : Nat} {e : Int}

theorem toRat_ofNat_pos (hw : 0 < w) (hw' : w ≤ 10 ^ 17) : 0 < (ofNat w).magnitude.toRat := by
  have h : (0 : ℚ) < oneRounding * (ofNat w).magnitude.toRat :=
    lt_of_lt_of_le (by exact_mod_cast hw) (ofNat_near hw (le_largestPower hw')).1
  exact (pos_iff_pos_of_mul_pos h).1 oneRounding_pos

/-- The two significands that the first division takes below the normal range. -/
theorem scaleDown_tiny : ∀ w ∈ [1, 2], ∀ k < 17, scaleDown (ofNat w) (k + 1 + largestPower) =
    ofRatio false ((Ratio.ofNat w).timesPowTen (-(k + 1 + largestPower : Nat))) := by
  decide +kernel

/-- Two divisions are within two roundings of the exact quotient. -/
theorem scaleDown_twice (hw : 0 < w) (hw' : w ≤ 10 ^ 17) (hpos : 0 < k) (hk : k ≤ 16) :
    ∃ r : Ratio, Near (oneRounding ^ 2) r.toRat (w / 10 ^ (k + largestPower)) ∧
      scaleDown (ofNat w) (k + largestPower) = ofRatio false r := by
  rcases Nat.lt_or_ge w 3 with htiny | hlarge
  · obtain ⟨j, rfl⟩ := Nat.exists_eq_succ_of_ne_zero hpos.ne'
    refine ⟨_, ?_, scaleDown_tiny w (by simp; omega) j (by omega)⟩
    rw [Ratio.toRat_timesPowTen, Ratio.toRat_ofNat, zpow_neg, zpow_natCast, ← div_eq_mul_inv]
    exact (Near.refl _).mono (by positivity) (by positivity) (one_le_pow₀ one_le_oneRounding)
  · have hlow : k ≤ largestPower := hk.trans (by decide)
    have hnum := powerOfTen_num_pos hlow
    have hfirst : (ofNat w).div (powerOfTen largestPower) = ofRatio false (firstQuotient w) :=
      div_eq (isNegative_ofNat w) (isNegative_powerOfTen _) _
    rw [scaleDown_of_lt (isZero_eq_false (toRat_ofNat_pos hw hw')) (by omega),
      Nat.add_sub_cancel, scaleDown_of_le hlow, hfirst,
      div_eq (isNegative_ofRatio false _) (isNegative_powerOfTen k) hnum]
    refine ⟨_, ?_, rfl⟩
    rw [Ratio.toRat_div, powerOfTen_exact (hk.trans (by decide)), Nat.add_comm, pow_add,
      ← div_div, div_eq_mul_inv, div_eq_mul_inv _ ((10 : ℚ) ^ k)]
    exact (firstQuotient_near hlarge hw').mul_right (by positivity)

/-- What is rounded last is within two roundings of the exact product, and it is that product when
the significand and the power are kept as they are. -/
theorem scaleBy_near (hw : 0 < w) (hw' : w ≤ 10 ^ 17) (he : -324 ≤ e) (he' : e ≤ largestPower) :
    ∃ r : Ratio, Near (oneRounding ^ 2) r.toRat (w * 10 ^ e) ∧
      (e.natAbs ≤ 22 → (ofNat w).magnitude.toRat = w → r.toRat = w * 10 ^ e) ∧
        (nearestMagnitude r < 2047 * exponentWeight →
          scaleBy (ofNat w) e = some (ofRatio false r)) := by
  by_cases hsmall : e.natAbs ≤ largestPower
  · obtain ⟨r, hr, hscale⟩ := scaleBy_eq w hsmall
    refine ⟨r, ?_, fun hpower hexact => ?_, hscale⟩
    · have h₁ := (ofNat_near hw (le_largestPower hw')).mul_right (scaleFactor_nonneg e)
      have h₂ := (scaleFactor_near hsmall).mul_left (Nat.cast_nonneg w)
      rw [hr, sq]
      exact (h₂.trans oneRounding_pos.le oneRounding_pos.le h₁).symm
    · rw [hr, hexact, scaleFactor_exact hpower]
  · obtain ⟨k, hk⟩ : ∃ k, e.natAbs = k + largestPower := ⟨e.natAbs - largestPower, by omega⟩
    have hlimit : largestPower = 308 := rfl
    have hneg : e < 0 := by omega
    obtain ⟨r, hr, hscale⟩ := scaleDown_twice hw hw' (k := k) (by omega) (by omega)
    refine ⟨r, ?_, fun hpower => absurd hpower (by omega), fun _ => ?_⟩
    · rwa [pow_ten_natAbs, if_pos hneg, hk, ← div_eq_mul_inv]
    · rw [scaleBy, if_pos hneg, hk, hscale]

end Scaled

end Json

end SyntaxTree
