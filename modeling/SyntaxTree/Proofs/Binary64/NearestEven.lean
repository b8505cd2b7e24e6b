import SyntaxTree.Proofs.Decimal.Resolution

/-! # Rounding, told by distances

A rational number is rounded to a finite number if no other finite number is nearer, if the
significand is even where another one is as near, and if it is not so large that it would be
infinite. Rounding through binades gives exactly this number: both are determined by the points
halfway, and a point halfway belongs to the even side. -/

namespace SyntaxTree

/-! ## Distances on the line -/

section Line

variable {a b t : ℚ}

/-- The middle of two points separates what is nearer to one from what is nearer to the other. -/
theorem abs_sub_le_left_iff (hab : a < b) : |t - a| ≤ |t - b| ↔ t ≤ (a + b) / 2 := by
  have hgap : 0 < b - a := sub_pos.2 hab
  have hsquares : (t - b) ^ 2 - (t - a) ^ 2 = (b - a) * (a + b - 2 * t) := by ring
  rw [← sq_le_sq, ← sub_nonneg, hsquares, mul_nonneg_iff_of_pos_left hgap, sub_nonneg,
    le_div_iff₀ two_pos, mul_comm]

theorem abs_sub_le_right_iff (hab : a < b) : |t - b| ≤ |t - a| ↔ (a + b) / 2 ≤ t := by
  have hgap : 0 < b - a := sub_pos.2 hab
  have hsquares : (t - a) ^ 2 - (t - b) ^ 2 = (b - a) * (2 * t - (a + b)) := by ring
  rw [← sq_le_sq, ← sub_nonneg, hsquares, mul_nonneg_iff_of_pos_left hgap, sub_nonneg,
    div_le_iff₀ two_pos, mul_comm]

theorem abs_sub_eq_iff (hab : a < b) : |t - a| = |t - b| ↔ t = (a + b) / 2 := by
  rw [le_antisymm_iff, le_antisymm_iff, abs_sub_le_left_iff hab, abs_sub_le_right_iff hab]

/-- Between the middles on its two sides a point of an increasing sequence is the nearest one, and
another point is as near in one of the middles only. -/
theorem nearest_of_between {points : Nat → ℚ} (hpoints : StrictMono points) {n : Nat}
    (hlower : (points n + points (n + 1)) / 2 ≤ t)
    (hupper : t ≤ (points (n + 1) + points (n + 2)) / 2) {k : Nat} (hk : k ≠ n + 1) :
    |t - points (n + 1)| ≤ |t - points k| ∧ (|t - points (n + 1)| = |t - points k| →
      t = (points n + points (n + 1)) / 2 ∨ t = (points (n + 1) + points (n + 2)) / 2) := by
  rcases Nat.lt_or_gt_of_ne hk with hlt | hgt
  · have hle : points k ≤ points n := hpoints.monotone (Nat.le_of_lt_succ hlt)
    have hlt := hpoints hlt
    refine ⟨(abs_sub_le_right_iff hlt).2 (by linarith), fun heq => .inl ?_⟩
    have := (abs_sub_eq_iff hlt).1 heq.symm
    linarith
  · have hle : points (n + 2) ≤ points k := hpoints.monotone hgt
    have hlt := hpoints hgt
    refine ⟨(abs_sub_le_left_iff hlt).2 (by linarith), fun heq => .inr ?_⟩
    have := (abs_sub_eq_iff hlt).1 heq
    linarith

end Line

namespace Binary64

/-! ## Points halfway -/

theorem even_significand_iff (x : Binary64) : Even x.significand ↔ Even x.magnitudeBits := by
  have hweight : Even exponentWeight := by decide
  rw [magnitudeBits_eq, significand]
  split <;> simp_all [Nat.even_add]

theorem halfway_lt_halfway (m : Nat) : halfway m < halfway (m + 1) :=
  (halfway_lt_unitsOf m).trans (unitsOf_lt_halfway (m + 1))

/-- A position belongs to one binade only. -/
theorem binade_eq_of_bounds {r : Ratio} {s : Nat} (hupper : position r < 2 * exponentWeight * 2 ^ s)
    (hlower : s = 0 ∨ exponentWeight * 2 ^ s ≤ position r) : binade r = s := by
  have hw : (0 : ℚ) < exponentWeight := by exact_mod_cast exponentWeight_pos
  obtain ⟨hupper', hlower'⟩ := position_bounds r
  -- Of two binades the next one begins where the first one ends.
  have hdisjoint {b c : Nat} (hbc : b < c) (hb : position r < 2 * exponentWeight * 2 ^ b)
      (hc : c = 0 ∨ exponentWeight * 2 ^ c ≤ position r) : False := by
    have hc := hc.resolve_left (by omega)
    have hpow : (2 : ℚ) ^ (b + 1) ≤ 2 ^ c := pow_le_pow_right₀ (by norm_num) hbc
    have := mul_le_mul_of_nonneg_left hpow hw.le
    rw [pow_succ] at this
    linarith
  rcases Nat.lt_trichotomy (binade r) s with hlt | heq | hgt
  · exact (hdisjoint hlt hupper' hlower).elim
  · exact heq
  · exact (hdisjoint hgt hupper hlower').elim

/-- Halfway between two magnitudes the even one of them is taken. -/
theorem even_nearestMagnitude {r : Ratio} {m : Nat} (h : position r = halfway m) :
    Even (nearestMagnitude r) := by
  obtain ⟨s, g, rfl, hg, hs, hgap⟩ := exists_shifted m
  have hpow : (0 : ℚ) < 2 ^ s := by positivity
  have hposition : position r = (g + 1 / 2) * 2 ^ s := by
    rw [h, halfway_eq, unitsOf_shifted hg.le hs, hgap]
    push_cast
    ring
  have hbinade : binade r = s := by
    refine binade_eq_of_bounds ?_ (hs.imp_right fun hs => ?_)
    · have hg : (g : ℚ) + 1 ≤ 2 * exponentWeight := by exact_mod_cast hg
      rw [hposition]
      exact mul_lt_mul_of_pos_right (by linarith) hpow
    · have hs : (exponentWeight : ℚ) ≤ g := by exact_mod_cast hs
      rw [hposition]
      exact mul_le_mul_of_nonneg_right (by linarith) hpow.le
  have hnearest := Ratio.isNearestEven_nearest (inSteps r (binade r))
  rw [toRat_inSteps, hbinade, hposition, mul_div_assoc, div_self hpow.ne', mul_one] at hnearest
  rw [nearestMagnitude, hbinade]
  refine Even.add (Even.mul_left (by decide) s) ?_
  generalize (inSteps r s).nearest = n at *
  -- Both neighbours of the half are one half away, so the one that is taken has to be even.
  have hhalf := hnearest.abs_sub_le_half
  obtain rfl | rfl : n = g ∨ n = g + 1 := by
    obtain ⟨hlow, hhigh⟩ := abs_le.1 hhalf
    have hlow : (n : ℚ) < (g + 2 : Nat) := by push_cast; linarith
    have hhigh : (g : ℚ) < (n + 1 : Nat) := by push_cast; linarith
    have hlow := Nat.cast_lt.1 hlow
    have hhigh := Nat.cast_lt.1 hhigh
    omega
  · refine (hnearest (n + 1)).2 (by omega) ?_
    push_cast
    norm_num
  · refine (hnearest g).2 (by omega) ?_
    push_cast
    norm_num

/-- What is rounded to a magnitude lies between the points halfway on its two sides, and may be one
of the points only if the magnitude is even. -/
theorem nearestMagnitude_eq_succ_iff {r : Ratio} {m : Nat} :
    nearestMagnitude r = m + 1 ↔ halfway m ≤ position r ∧ position r ≤ halfway (m + 1) ∧
      (position r = halfway m ∨ position r = halfway (m + 1) → Even (m + 1)) := by
  constructor
  · intro h
    refine ⟨halfway_le_position h, h ▸ position_le_halfway r, ?_⟩
    rintro (heq | heq)
    · exact h ▸ even_nearestMagnitude heq
    · exact h ▸ even_nearestMagnitude heq
  · rintro ⟨hlower, hupper, heven⟩
    have hmono := halfway_lt_halfway m
    rcases hlower.lt_or_eq with hlower | heq
    · have hgt := lt_nearestMagnitude hlower
      rcases hupper.lt_or_eq with hupper | heq
      · exact Nat.le_antisymm (nearestMagnitude_le hupper) hgt
      · have hle := nearestMagnitude_le (heq.trans_lt (halfway_lt_halfway (m + 1)))
        have hresult := even_nearestMagnitude heq
        have hm := heven (.inr heq)
        rw [Nat.even_iff] at hresult hm
        omega
    · have hle := nearestMagnitude_le (heq.symm.trans_lt hmono)
      have hge : m ≤ nearestMagnitude r := by
        cases m with
        | zero => exact Nat.zero_le _
        | succ m => exact lt_nearestMagnitude ((halfway_lt_halfway m).trans_eq heq)
      have hresult := even_nearestMagnitude heq.symm
      have hm := heven (.inl heq.symm)
      rw [Nat.even_iff] at hresult hm
      omega

/-! ## The number that a rational number is rounded to -/

/-- The sign as a factor. -/
def sign (x : Binary64) : ℚ := if x.isNegative then -1 else 1

/-- The value of a finite number. -/
def value (x : Binary64) : ℚ := x.sign * x.absValue

/-- The number that `q` is rounded to. From half a step beyond the largest number on, `q` is rounded
to an infinity. -/
structure RoundsTo (q : ℚ) (x : Binary64) : Prop where
  isFinite : x.isFinite = true
  inRange : |q| < 2 ^ 1024 - 2 ^ 970
  nearest : ∀ y : Binary64, y.isFinite = true → |q - x.value| ≤ |q - y.value|
  even : ∀ y : Binary64, y.isFinite = true → y.value ≠ x.value →
    |q - x.value| = |q - y.value| → Even x.significand

section Signs

variable {x y : Binary64} {q : ℚ}

theorem sign_cases (x : Binary64) : x.sign = 1 ∨ x.sign = -1 := by
  unfold sign
  split
  · exact .inr rfl
  · exact .inl rfl

theorem abs_sign (x : Binary64) : |x.sign| = 1 := by
  rcases x.sign_cases with h | h <;> rw [h] <;> norm_num

theorem sign_mul_sign (x : Binary64) : x.sign * x.sign = 1 := by
  rcases x.sign_cases with h | h <;> rw [h] <;> norm_num

theorem absValue_nonneg (x : Binary64) : 0 ≤ x.absValue := by
  rw [← toRat_magnitude]
  exact x.magnitude.toRat_nonneg

/-- Distances are the same when both sides change the sign. -/
theorem abs_sub_eq (x : Binary64) (q r : ℚ) : |q - r| = |x.sign * q - x.sign * r| := by
  rw [← mul_sub, abs_mul, abs_sign, one_mul]

theorem sign_mul_value (x : Binary64) : x.sign * x.value = x.absValue := by
  rw [value, ← mul_assoc, sign_mul_sign, one_mul]

/-- Seen from a number, every number has its absolute value or the opposite of it. -/
theorem sign_mul_value_cases (x y : Binary64) :
    x.sign * y.value = y.absValue ∨ x.sign * y.value = -y.absValue := by
  rw [value, ← mul_assoc]
  rcases x.sign_cases with hx | hx <;> rcases y.sign_cases with hy | hy <;> rw [hx, hy] <;> simp

end Signs

/-! ## Both ways of rounding agree -/

/-- The absolute values of the magnitudes. -/
def absOf (m : Nat) : ℚ := unitsOf m / unitsInOne

theorem absValue_eq_absOf (x : Binary64) : x.absValue = absOf x.magnitudeBits := x.absValue_eq

theorem absOf_strictMono : StrictMono absOf := by
  intro m n hmn
  refine div_lt_div_of_pos_right ?_ (by exact_mod_cast unitsInOne_pos)
  exact_mod_cast unitsOf_strictMono hmn

theorem absOf_zero : absOf 0 = 0 := by
  rw [absOf, unitsOf_zero, Nat.cast_zero, zero_div]

/-- The middle of two neighbours. -/
theorem middle_eq (m : Nat) : (absOf m + absOf (m + 1)) / 2 = halfway m / unitsInOne := by
  rw [absOf, absOf, halfway]
  ring

theorem isFinite_iff (x : Binary64) :
    x.isFinite = true ↔ x.magnitudeBits < 2047 * exponentWeight := by
  rw [isFinite, decide_eq_true_eq, exponentField, Nat.div_lt_iff_lt_mul exponentWeight_pos]

/-- The point above the largest number, which is `2 ^ 1024` less one half of the last gap. -/
theorem halfway_largest :
    halfway (2047 * exponentWeight - 1) / unitsInOne = 2 ^ 1024 - 2 ^ 970 := by
  have hlast : 2047 * exponentWeight - 1 = 2045 * exponentWeight + (2 * exponentWeight - 1) := by
    decide
  have hunits : unitsOf (2047 * exponentWeight - 1) = (2 * exponentWeight - 1) * 2 ^ 2045 := by
    rw [hlast]
    exact unitsOf_shifted (by decide) (.inr (by decide))
  have hgap : gap (2047 * exponentWeight - 1) = 2 ^ 2045 := by
    have hbinade : (2047 * exponentWeight - 1) / exponentWeight = 2046 := by decide
    rw [gap, hbinade]
  have hshift (s t : Nat) : ((2 * 2 ^ 52 - 1) * 2 ^ (s + 1 + t) + 2 ^ (s + 1 + t) / 2) / 2 ^ t =
      (2 : ℚ) ^ (s + 54) - 2 ^ s := by
    rw [div_eq_iff (by positivity)]
    ring
  have hweight : ((2 * exponentWeight - 1 : Nat) : ℚ) = 2 * 2 ^ 52 - 1 := by
    rw [Nat.cast_sub (by decide), Nat.cast_mul, cast_exponentWeight]
    norm_num
  rw [halfway_eq, hunits, hgap, Nat.cast_mul, hweight, cast_unitsInOne, Nat.cast_pow, Nat.cast_ofNat]
  exact hshift 970 1074

section Agreement

variable {x : Binary64} {q : ℚ} {r : Ratio} {k m : Nat}

theorem halfway_le_iff : halfway m ≤ position r ↔ (absOf m + absOf (m + 1)) / 2 ≤ r.toRat := by
  rw [middle_eq, position, div_le_iff₀ (by exact_mod_cast unitsInOne_pos)]

theorem le_halfway_iff : position r ≤ halfway m ↔ r.toRat ≤ (absOf m + absOf (m + 1)) / 2 := by
  rw [middle_eq, position, le_div_iff₀ (by exact_mod_cast unitsInOne_pos)]

theorem eq_halfway_iff : position r = halfway m ↔ r.toRat = (absOf m + absOf (m + 1)) / 2 := by
  rw [le_antisymm_iff, le_antisymm_iff, halfway_le_iff, le_halfway_iff]

/-- Every magnitude comes with the sign of `x` as well. -/
theorem exists_sameSign (x : Binary64) (hk : k < 2047 * exponentWeight) :
    ∃ y : Binary64, y.isFinite = true ∧ x.sign * y.value = absOf k := by
  have hlt : k < signWeight := hk.trans (by decide)
  refine ⟨ofParts x.isNegative k, ?_, ?_⟩
  · rw [isFinite_iff, magnitudeBits_ofParts hlt]
    exact hk
  · have hsign : (ofParts x.isNegative k).sign = x.sign := by
      rw [sign, sign, isNegative_ofParts hlt]
    rw [← hsign, sign_mul_value, absValue_eq_absOf, magnitudeBits_ofParts hlt]

theorem RoundsTo.nearest_absOf (h : RoundsTo q x) (hk : k < 2047 * exponentWeight) :
    |x.sign * q - absOf x.magnitudeBits| ≤ |x.sign * q - absOf k| ∧ (k ≠ x.magnitudeBits →
      |x.sign * q - absOf x.magnitudeBits| = |x.sign * q - absOf k| → Even x.magnitudeBits) := by
  obtain ⟨y, hy, hvalue⟩ := x.exists_sameSign hk
  have hself := x.sign_mul_value
  rw [absValue_eq_absOf] at hself
  rw [← hvalue, ← hself, ← abs_sub_eq, ← abs_sub_eq, ← even_significand_iff]
  refine ⟨h.nearest y hy, fun hne heq => h.even y hy (fun hsame => hne ?_) heq⟩
  rw [hsame, hself] at hvalue
  exact absOf_strictMono.injective hvalue.symm

theorem RoundsTo.sign_mul_pos (h : RoundsTo q x) (hx : x.magnitudeBits = m + 1) :
    0 < x.sign * q := by
  have hpos : absOf 0 < absOf (m + 1) := absOf_strictMono (Nat.succ_pos m)
  have hmiddle := (h.nearest_absOf (k := 0) (by decide)).1
  rw [hx, abs_sub_le_right_iff hpos] at hmiddle
  rw [absOf_zero] at hpos hmiddle
  linarith

section Between

variable (hx : x.magnitudeBits = m + 1) (hlower : (absOf m + absOf (m + 1)) / 2 ≤ x.sign * q)
  (hupper : x.sign * q ≤ (absOf (m + 1) + absOf (m + 2)) / 2)
  (heven : x.sign * q = (absOf m + absOf (m + 1)) / 2 ∨
    x.sign * q = (absOf (m + 1) + absOf (m + 2)) / 2 → Even (m + 1))

include hlower

/-- What is above the lower middle is positive. -/
theorem sign_mul_pos_of_between : 0 < x.sign * q := by
  have hpos : absOf 0 < absOf (m + 1) := absOf_strictMono (Nat.succ_pos m)
  have hle : absOf 0 ≤ absOf m := absOf_strictMono.monotone (Nat.zero_le m)
  rw [absOf_zero] at hpos hle
  linarith

include hx hupper heven

/-- No number is nearer than `x`, and one that is as near tells that `x` is even. -/
theorem nearest_value_of_between (y : Binary64) : |q - x.value| ≤ |q - y.value| ∧
    (y.value ≠ x.value → |q - x.value| = |q - y.value| → Even (m + 1)) := by
  have hself := x.sign_mul_value
  rw [absValue_eq_absOf, hx] at hself
  have hbetween {k : Nat} (hk : k ≠ m + 1) :=
    nearest_of_between absOf_strictMono hlower hupper hk
  rw [abs_sub_eq x q x.value, abs_sub_eq x q y.value, hself]
  rcases x.sign_mul_value_cases y with hy | hy <;> rw [absValue_eq_absOf] at hy
  · by_cases hk : y.magnitudeBits = m + 1
    · have hsame : y.value = x.value := by
        rw [hk, ← hself] at hy
        exact mul_left_cancel₀ (by rcases x.sign_cases with h | h <;> rw [h] <;> norm_num) hy
      exact ⟨by rw [hy, hk], fun hne => absurd hsame hne⟩
    · rw [hy]
      exact ⟨(hbetween hk).1, fun _ heq => heven ((hbetween hk).2 heq)⟩
  · -- A number of the other sign is farther away than zero, unless it is zero itself.
    have hpos := sign_mul_pos_of_between hlower
    have hzero := hbetween (Nat.succ_ne_zero m).symm
    have hk : 0 ≤ absOf y.magnitudeBits := by
      rw [← absValue_eq_absOf]
      exact y.absValue_nonneg
    have hdistance : |x.sign * q - x.sign * y.value| = x.sign * q + absOf y.magnitudeBits := by
      rw [hy, sub_neg_eq_add, abs_of_nonneg (by linarith)]
    rw [absOf_zero, sub_zero, abs_of_pos hpos] at hzero
    rw [hdistance]
    refine ⟨by linarith, fun _ heq => heven (hzero.2 ?_)⟩
    linarith

/-- What is rounded to a finite number is below the point above the largest one, which is odd. -/
theorem abs_lt_of_between (hfinite : x.isFinite = true) : |q| < 2 ^ 1024 - 2 ^ 970 := by
  have hpos := sign_mul_pos_of_between hlower
  have hmagnitude : m + 1 < 2047 * exponentWeight := hx ▸ x.isFinite_iff.1 hfinite
  have hodd : ¬ Even (2047 * exponentWeight - 1) := by decide
  have habs : |q| = x.sign * q := by
    rw [← one_mul |q|, ← abs_sign x, ← abs_mul, abs_of_pos hpos]
  rw [habs, ← halfway_largest, ← middle_eq]
  rcases Nat.lt_or_eq_of_le (Nat.le_sub_one_of_lt hmagnitude) with hlt | heq
  · have hlast := absOf_strictMono hlt
    have hnext := absOf_strictMono (Nat.succ_lt_succ hlt)
    rw [Nat.succ_eq_add_one, Nat.succ_eq_add_one] at hnext
    exact hupper.trans_lt (by linarith)
  · rw [← heq] at hodd ⊢
    exact lt_of_le_of_ne hupper fun hmiddle => hodd (heven (.inr hmiddle))

/-- A number between the two middles next to a finite number that is not zero is rounded to it, and
so is a middle if the number is even. -/
theorem roundsTo_of_between (hfinite : x.isFinite = true) : RoundsTo q x := by
  have hnearest := nearest_value_of_between hx hlower hupper heven
  refine ⟨hfinite, abs_lt_of_between hx hlower hupper heven hfinite, fun y _ => (hnearest y).1,
    fun y _ hne heq => ?_⟩
  rw [even_significand_iff, hx]
  exact (hnearest y).2 hne heq

end Between

/-- Both ways of rounding give the same number, for a finite number that is not zero. -/
theorem roundsTo_iff_nearestMagnitude (hfinite : x.isFinite = true)
    (hx : x.magnitudeBits = m + 1) (hr : r.toRat = x.sign * q) :
    RoundsTo q x ↔ nearestMagnitude r = x.magnitudeBits := by
  rw [hx, nearestMagnitude_eq_succ_iff, halfway_le_iff, le_halfway_iff, eq_halfway_iff,
    eq_halfway_iff, hr]
  constructor
  · intro h
    have hmagnitude : m + 1 < 2047 * exponentWeight := hx ▸ x.isFinite_iff.1 hfinite
    have hbelow := h.nearest_absOf (Nat.lt_of_succ_lt hmagnitude)
    have hlt : absOf m < absOf (m + 1) := absOf_strictMono (Nat.lt_succ_self m)
    have hlt' : absOf (m + 1) < absOf (m + 2) := absOf_strictMono (Nat.lt_succ_self (m + 1))
    rw [hx, abs_sub_le_right_iff hlt] at hbelow
    have hupper : x.sign * q ≤ (absOf (m + 1) + absOf (m + 2)) / 2 ∧
        (x.sign * q = (absOf (m + 1) + absOf (m + 2)) / 2 → Even (m + 1)) := by
      rcases Nat.lt_or_ge (m + 2) (2047 * exponentWeight) with hinner | hedge
      · have habove := h.nearest_absOf hinner
        rw [hx, abs_sub_le_left_iff hlt', abs_sub_eq_iff hlt'] at habove
        exact ⟨habove.1, habove.2 (by omega)⟩
      · have hrange := h.inRange
        obtain hlast : m + 1 = 2047 * exponentWeight - 1 := by omega
        rw [← halfway_largest, ← middle_eq, ← hlast] at hrange
        have hle : x.sign * q ≤ |q| := by
          rw [← one_mul |q|, ← abs_sign x, ← abs_mul]
          exact le_abs_self _
        exact ⟨(hle.trans_lt hrange).le, fun heq => absurd heq (hle.trans_lt hrange).ne⟩
    refine ⟨hbelow.1, hupper.1, ?_⟩
    rintro (heq | heq)
    · exact hbelow.2 (by omega) ((abs_sub_eq_iff hlt).2 heq).symm
    · exact hupper.2 heq
  · rintro ⟨hlower, hupper, heven⟩
    exact roundsTo_of_between hx hlower hupper heven hfinite

end Agreement

section OfRatio

variable {x : Binary64} {q : ℚ}

end OfRatio

end Binary64

end SyntaxTree
