import SyntaxTree.Proofs.Binary64.NearestEven
import SyntaxTree.Proofs.Json.LiteralFront

/-! # Literals stand for finite numbers

A literal of any length is either read as a finite number or refused as out of range. The significand
is finite because it has 64 bits, a product that would be infinite is refused, and a quotient by a
power of ten is not larger than what is divided. The division is done in rounds, of which there are
at most two however small the exponent is, because then nothing is left. -/

namespace SyntaxTree

open Binary64

namespace Json

/-! ## Rounded operations -/

section Operations

variable {x y : Binary64} {r : Ratio} {n k : Nat}

/-- What is rounded below the largest exponent field is finite. -/
theorem isFinite_ofRatio (negative : Bool) (h : nearestMagnitude r < 2047 * exponentWeight) :
    (ofRatio negative r).isFinite = true := by
  rwa [isFinite_iff, magnitudeBits_ofRatio, roundMagnitude_eq_of_lt h]

/-- Rounding gives no other special numbers than the infinities. -/
theorem isFinite_of_not_isInfinite {negative : Bool} (h : (ofRatio negative r).isInfinite = false) :
    (ofRatio negative r).isFinite = true := by
  refine isFinite_of_not ?_ h
  by_contra hnan
  rw [Bool.not_eq_false] at hnan
  have hle : (ofRatio negative r).magnitudeBits ≤ 2047 * exponentWeight := by
    rw [magnitudeBits_ofRatio]
    exact Nat.min_le_right _ _
  simp only [isNaN, Bool.and_eq_true, beq_iff_eq, bne_iff_ne] at hnan
  have hparts := (ofRatio negative r).magnitudeBits_eq
  rw [hnan.1] at hparts
  omega

theorem isFinite_neg (h : x.isFinite = true) : x.neg.isFinite = true := by
  rw [isFinite_iff] at h ⊢
  rwa [neg, magnitudeBits_ofParts x.magnitudeBits_lt]

/-- Up to the largest power of ten, natural numbers are finite. -/
theorem isFinite_ofNat (hn : n ≤ 10 ^ largestPower) : (ofNat n).isFinite = true :=
  isFinite_ofRatio false (nearestMagnitude_lt (position_ofNat_le hn))

theorem one_le_powerOfTen (hk : k ≤ largestPower) : 1 ≤ (powerOfTen k).magnitude.toRat := by
  rcases Nat.eq_zero_or_pos k with rfl | hpos
  · rw [powerOfTen_exact (by decide), pow_zero]
  · have hten : (10 : ℚ) ≤ 10 ^ k := le_self_pow₀ (by norm_num) hpos.ne'
    have hrounding : oneRounding ≤ 2 := by norm_num [oneRounding, cast_exponentWeight]
    have hnear := (powerOfTen_near hk).1
    have := mul_le_mul_of_nonneg_right hrounding (powerOfTen k).magnitude.toRat_nonneg
    linarith

/-- A quotient by what is not below one is not above the dividend. -/
theorem nearestMagnitude_div_lt (hx : x.isFinite = true) (hy : 1 ≤ y.magnitude.toRat)
    (hpos : 0 < y.magnitude.num) :
    nearestMagnitude (x.magnitude.div y.magnitude hpos) < 2047 * exponentWeight := by
  refine lt_of_le_of_lt ?_ (x.isFinite_iff.1 hx)
  rw [← nearestMagnitude_of_units (position_magnitude x)]
  refine nearestMagnitude_mono (mul_le_mul_of_nonneg_right ?_ (Nat.cast_nonneg _))
  rw [Ratio.toRat_div]
  exact div_le_self x.magnitude.toRat_nonneg hy

/-- A quotient by what is not below 1 is finite, because it is no larger. -/
theorem isFinite_div (hx : x.isFinite = true) (hy : 1 ≤ y.magnitude.toRat) :
    (x.div y).isFinite = true := by
  have hpos : 0 < y.magnitude.num := Ratio.toRat_pos.1 (by linarith)
  rw [div, dif_pos hpos]
  exact isFinite_ofRatio _ (nearestMagnitude_div_lt hx hy hpos)

/-- By induction along the rounds, each of which divides by the largest power. -/
theorem isFinite_scaleDown (hx : x.isFinite = true) (e : Nat) : (scaleDown x e).isFinite = true := by
  induction x, e using scaleDown.induct with
  | case1 x e he =>
      rw [scaleDown_of_le he]
      exact isFinite_div hx (one_le_powerOfTen he)
  | case2 x e he hzero =>
      rw [scaleDown, if_neg he, if_pos hzero]
      exact hx
  | case3 x e he hzero ih =>
      rw [scaleDown_of_lt (by simpa using hzero) (Nat.not_le.1 he)]
      exact ih (isFinite_div hx (one_le_powerOfTen le_rfl))

/-- Scaling a finite number gives a finite one, or none. -/
theorem isFinite_of_scaleBy {e : Int} (hx : x.isFinite = true) (h : scaleBy x e = some y) :
    y.isFinite = true := by
  rw [scaleBy] at h
  split at h
  · obtain rfl := Option.some.inj h
    exact isFinite_scaleDown hx _
  · split at h
    · dsimp only at h
      split at h
      · cases h
      · next hproduct =>
        obtain rfl := Option.some.inj h
        exact isFinite_of_not_isInfinite (Bool.eq_false_iff.2 hproduct)
    · split at h
      · obtain rfl := Option.some.inj h
        exact hx
      · cases h

end Operations

/-! ## Literals -/

theorem absorb_lt {limit start : Nat} {digits : List Char} (h : start < limit) :
    (absorb limit start digits).1 < limit := by
  induction digits generalizing start with
  | nil => exact h
  | cons c digits ih =>
      rw [absorb]
      split
      · next hnext => exact ih hnext
      · exact h

namespace Literal

/-- The significand of a literal is below the limit, however many digits it has. -/
theorem significand_lt (l : Literal) : l.significand.1 < significandLimit :=
  absorb_lt (absorb_lt (Nat.two_pow_pos 64))

/-- The significand is rounded to a finite number. -/
theorem isFinite_significand (l : Literal) : (ofNat l.significand.1).isFinite = true := by
  refine isFinite_ofNat (l.significand_lt.le.trans ?_)
  exact le_trans (by decide) (pow_ten_le (k := 20) (by decide))

theorem isFinite_signed {l : Literal} {x : Binary64} (h : x.isFinite = true) :
    (l.signed x).isFinite = true := by
  rw [signed]
  split
  · exact isFinite_neg h
  · exact h

/-- A literal that is accepted is scaled to a finite number. -/
theorem isFinite_of_scaled {l : Literal} {x : Option Binary64} {y : Binary64}
    (hx : ∀ z, x = some z → z.isFinite = true)
    (h : (x.elim (.error 0) fun z => .ok (l.signed z)) = (.ok y : Except Nat Binary64)) :
    y.isFinite = true := by
  cases x with
  | none => cases h
  | some z =>
      obtain rfl := Except.ok.inj h
      exact isFinite_signed (hx z rfl)

/-- A literal that is accepted has a finite value; the others are out of range. -/
theorem isFinite_toBinary64 {l : Literal} {x : Binary64} (h : l.toBinary64 = .ok x) :
    x.isFinite = true := by
  have hscaled {e : Int} (z : Binary64) (hz : scaleBy (ofNat l.significand.1) e = some z) :
      z.isFinite = true := isFinite_of_scaleBy l.isFinite_significand hz
  rw [toBinary64] at h
  dsimp only at h
  split at h
  · exact isFinite_of_scaled hscaled h
  · split at h
    · exact isFinite_of_scaled hscaled h
    · split at h
      · obtain rfl := Except.ok.inj h
        exact isFinite_signed (by decide)
      · cases h

/-- What a literal is read as is finite, whatever its length. -/
theorem isFinite_value {l : Literal} {n : Number} (h : l.value = .ok n) :
    n.toBinary64.isFinite = true := by
  rw [value] at h
  split at h
  · dsimp only at h
    split at h
    · obtain rfl := Except.ok.inj h
      exact l.isFinite_significand
    · split at h
      · obtain rfl := Except.ok.inj h
        exact isFinite_neg l.isFinite_significand
      · obtain rfl := Except.ok.inj h
        exact isFinite_neg l.isFinite_significand
  · cases hx : l.toBinary64 with
    | error left =>
        rw [hx] at h
        cases h
    | ok x =>
        rw [hx] at h
        obtain rfl := Except.ok.inj h
        exact isFinite_toBinary64 hx

end Literal

/-! ## Rounds of division -/

/-- Dividing `x` by `10 ^ e` goes through `k` rounds that divide by the largest power, and ends with
`y`. -/
inductive Rounds : Binary64 → Nat → Nat → Binary64 → Prop
  | divide {x : Binary64} {e : Nat} :
      e ≤ largestPower → Rounds x e 0 (x.div (powerOfTen e))
  | zero {x : Binary64} {e : Nat} : largestPower < e → x.isZero = true → Rounds x e 0 x
  | round {x y : Binary64} {e k : Nat} : largestPower < e → x.isZero = false →
      Rounds (x.div (powerOfTen largestPower)) (e - largestPower) k y → Rounds x e (k + 1) y

section Rounds

variable {x : Binary64} {b w : Nat}

theorem rounds_of_isZero (h : x.isZero = true) (e : Nat) :
    ∃ k ≤ 0, Rounds x e k (scaleDown x e) := by
  refine ⟨0, le_rfl, ?_⟩
  rcases Nat.lt_or_ge largestPower e with he | he
  · rw [scaleDown, if_neg (Nat.not_le.2 he), if_pos h]
    exact .zero he h
  · rw [scaleDown_of_le he]
    exact .divide he

/-- One round more than the quotient takes. -/
theorem rounds_of_div (h : ∀ e, ∃ k ≤ b, Rounds (x.div (powerOfTen largestPower)) e k
    (scaleDown (x.div (powerOfTen largestPower)) e)) (e : Nat) :
    ∃ k ≤ b + 1, Rounds x e k (scaleDown x e) := by
  rcases Nat.lt_or_ge largestPower e with he | he
  · cases hzero : x.isZero with
    | true =>
        obtain ⟨k, hk, hrounds⟩ := rounds_of_isZero hzero e
        exact ⟨k, by omega, hrounds⟩
    | false =>
        obtain ⟨k, hk, hrounds⟩ := h (e - largestPower)
        rw [scaleDown_of_lt hzero he]
        exact ⟨k + 1, by omega, .round he hzero hrounds⟩
  · rw [scaleDown_of_le he]
    exact ⟨0, Nat.zero_le _, .divide he⟩

/-- Rounding at most doubles a position. -/
theorem unitsOf_nearestMagnitude_le (r : Ratio) :
    (unitsOf (nearestMagnitude r) : ℚ) ≤ 2 * position r := by
  cases h : nearestMagnitude r with
  | zero =>
      have hnonneg : 0 ≤ position r := mul_nonneg r.toRat_nonneg (Nat.cast_nonneg _)
      rw [unitsOf_zero, Nat.cast_zero]
      linarith
  | succ m =>
      have hle := halfway_le_position h
      have hunits : (0 : ℚ) ≤ unitsOf m := Nat.cast_nonneg _
      rw [halfway] at hle
      linarith

/-- Dividing by the largest power takes 1022 binary places away: one less than the power has,
because rounding may double the quotient. -/
theorem position_div_le (hx : x.isNegative = false) (hfinite : x.isFinite = true) :
    position (x.div (powerOfTen largestPower)).magnitude * 2 ^ 1022 ≤ position x.magnitude := by
  have hpos := powerOfTen_num_pos (le_refl largestPower)
  have hpower : (2 : ℚ) ^ 1022 * 2 ≤ (powerOfTen largestPower).magnitude.toRat := by
    have hsplit : (2 : ℚ) ^ 1022 * 2 = 2 ^ 52 * 2 ^ powerShift := by
      rw [← pow_succ, ← pow_add]
      rfl
    rw [toRat_largestPower, hsplit]
    refine mul_le_mul_of_nonneg_right ?_ (by positivity)
    norm_num [powerSignificand]
  have hlt := nearestMagnitude_div_lt hfinite (one_le_powerOfTen le_rfl) hpos
  have hquotient : position (x.magnitude.div (powerOfTen largestPower).magnitude hpos) *
      (2 ^ 1022 * 2) ≤ position x.magnitude := by
    have hP : 0 < (powerOfTen largestPower).magnitude.toRat := Ratio.toRat_pos.2 hpos
    have hnonneg : 0 ≤ position x.magnitude :=
      mul_nonneg x.magnitude.toRat_nonneg (Nat.cast_nonneg _)
    rw [position, Ratio.toRat_div, div_mul_eq_mul_div, ← position, div_mul_eq_mul_div,
      div_le_iff₀ hP]
    exact mul_le_mul_of_nonneg_left hpower hnonneg
  rw [div_eq hx (isNegative_powerOfTen _) hpos, position_ofRatio hlt]
  refine le_trans ?_ hquotient
  rw [← mul_assoc, mul_right_comm, mul_comm _ (2 : ℚ)]
  exact mul_le_mul_of_nonneg_right (unitsOf_nearestMagnitude_le _) (by positivity)

/-- A quotient by a power of ten has the sign of the dividend. -/
theorem isNegative_div (hx : x.isNegative = false) :
    (x.div (powerOfTen largestPower)).isNegative = false := by
  rw [div_eq hx (isNegative_powerOfTen _) (powerOfTen_num_pos le_rfl)]
  exact isNegative_ofRatio false _

theorem isZero_of_position_lt (h : position x.magnitude < 1) : x.isZero = true := by
  rw [position_magnitude] at h
  have hunits : unitsOf x.magnitudeBits < 1 := by exact_mod_cast h
  rw [isZero, beq_iff_eq]
  by_contra hne
  have := unitsOf_strictMono (Nat.pos_of_ne_zero hne)
  omega

/-- Nothing is left of a significand of 64 bits after two divisions. -/
theorem isZero_of_two_divisions (hw : w < Literal.significandLimit) :
    (((ofNat w).div (powerOfTen largestPower)).div (powerOfTen largestPower)).isZero = true := by
  have hle : w ≤ 10 ^ largestPower :=
    hw.le.trans (le_trans (by decide) (pow_ten_le (k := 20) (by decide)))
  have hfinite := isFinite_ofNat hle
  have hnegative := isNegative_ofNat w
  have hfirst := position_div_le hnegative hfinite
  have hsecond := position_div_le (isNegative_div hnegative)
    (isFinite_div hfinite (one_le_powerOfTen le_rfl))
  have hstart : position (ofNat w).magnitude < 2 ^ 1022 * 2 ^ 1022 := by
    have hw : (w : ℚ) ≤ 2 ^ 64 := by exact_mod_cast hw.le
    calc position (ofNat w).magnitude ≤ 2 * 2 ^ 64 * 2 ^ 1074 := by
          rw [position, cast_unitsInOne]
          refine mul_le_mul_of_nonneg_right ?_ (by positivity)
          exact (toRat_ofNat_le hle).trans (mul_le_mul_of_nonneg_left hw (by norm_num))
      _ = 2 ^ (1 + 64 + 1074) := by rw [pow_add, pow_add, pow_one]
      _ < 2 ^ (1022 + 1022) := pow_lt_pow_right₀ (by norm_num) (by decide)
      _ = 2 ^ 1022 * 2 ^ 1022 := pow_add _ _ _
  have hpow : (0 : ℚ) < 2 ^ 1022 := by positivity
  refine isZero_of_position_lt ?_
  generalize (2 : ℚ) ^ 1022 = c at *
  refine lt_of_mul_lt_mul_right ?_ (mul_pos hpow hpow).le
  calc _ = position _ * c * c := (mul_assoc _ c c).symm
    _ ≤ position _ * c := mul_le_mul_of_nonneg_right hsecond hpow.le
    _ ≤ position (ofNat w).magnitude := hfirst
    _ < c * c := hstart
    _ = 1 * (c * c) := (one_mul _).symm

/-- However small the exponent is, the division of a significand ends after two rounds at most. -/
theorem rounds_scaleDown (hw : w < Literal.significandLimit) (e : Nat) :
    ∃ k ≤ 2, Rounds (ofNat w) e k (scaleDown (ofNat w) e) :=
  rounds_of_div (rounds_of_div (rounds_of_isZero (isZero_of_two_divisions hw))) e

end Rounds

end Json

end SyntaxTree
