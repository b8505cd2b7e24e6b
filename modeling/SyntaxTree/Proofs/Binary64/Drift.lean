import SyntaxTree.Proofs.Binary64.Rounding

/-! # How far rounding drifts

One rounding changes a number of the normal range by at most the factor `1 + 2 ^ -53`. Two ratios
that differ by at most two such factors are rounded to magnitudes that are at most two apart. -/

namespace SyntaxTree

namespace Binary64

/-! ## Nearness -/

/-- Neither number is more than `c` times the other. -/
def Near (c x y : ℚ) : Prop := x ≤ c * y ∧ y ≤ c * x

namespace Near

variable {a c x y z : ℚ}

theorem refl (x : ℚ) : Near 1 x x := ⟨(one_mul x).ge, (one_mul x).ge⟩

theorem eq (h : Near 1 x y) : x = y := by
  rw [Near, one_mul, one_mul] at h
  exact le_antisymm h.1 h.2

theorem symm (h : Near c x y) : Near c y x := ⟨h.2, h.1⟩

theorem trans (ha : 0 ≤ a) (hc : 0 ≤ c) (h : Near a x y) (h' : Near c y z) :
    Near (a * c) x z := by
  constructor
  · calc x ≤ a * y := h.1
      _ ≤ a * (c * z) := mul_le_mul_of_nonneg_left h'.1 ha
      _ = a * c * z := (mul_assoc a c z).symm
  · calc z ≤ c * y := h'.2
      _ ≤ c * (a * x) := mul_le_mul_of_nonneg_left h.2 hc
      _ = a * c * x := by ring

theorem mono (hx : 0 ≤ x) (hy : 0 ≤ y) (hac : a ≤ c) (h : Near a x y) : Near c x y :=
  ⟨h.1.trans (mul_le_mul_of_nonneg_right hac hy), h.2.trans (mul_le_mul_of_nonneg_right hac hx)⟩

theorem mul_right (hz : 0 ≤ z) (h : Near c x y) : Near c (x * z) (y * z) := by
  rw [Near, ← mul_assoc, ← mul_assoc]
  exact ⟨mul_le_mul_of_nonneg_right h.1 hz, mul_le_mul_of_nonneg_right h.2 hz⟩

theorem mul_left (hz : 0 ≤ z) (h : Near c x y) : Near c (z * x) (z * y) := by
  rw [mul_comm z, mul_comm z]
  exact h.mul_right hz

theorem inv (hx : 0 < x) (hy : 0 < y) (h : Near c x y) : Near c x⁻¹ y⁻¹ := by
  constructor
  · rw [← div_eq_mul_inv, le_div_iff₀ hy, inv_mul_le_iff₀ hx, mul_comm]
    exact h.2
  · rw [← div_eq_mul_inv, le_div_iff₀ hx, inv_mul_le_iff₀ hy, mul_comm]
    exact h.1

/-- Numbers that differ by at most a fraction of each are near. -/
theorem of_step {k h : ℚ} (hxy : x ≤ y + h) (hyx : y ≤ x + h) (hx : h ≤ k * x) (hy : h ≤ k * y) :
    Near (1 + k) x y := by
  constructor <;> linarith

end Near

/-! ## Drift -/

/-- The factor of one rounding. -/
def oneRounding : ℚ := 1 + 1 / (2 * exponentWeight)

theorem one_le_oneRounding : 1 ≤ oneRounding := by
  rw [oneRounding, le_add_iff_nonneg_right]
  positivity

theorem oneRounding_pos : 0 < oneRounding := zero_lt_one.trans_le one_le_oneRounding

/-- Two roundings do not take the point above a magnitude past the next two magnitudes. -/
theorem halfway_drift (m : Nat) : oneRounding ^ 2 * halfway m < halfway (m + 2) := by
  have hw : (0 : ℚ) < 2 * exponentWeight := by
    have := exponentWeight_pos
    positivity
  have hgap : (0 : ℚ) < gap m := by exact_mod_cast gap_pos m
  have hnext : (gap m : ℚ) ≤ gap (m + 1) := by exact_mod_cast gap_mono (Nat.le_add_right m 1)
  have hlast : (gap m : ℚ) ≤ gap (m + 2) := by exact_mod_cast gap_mono (Nat.le_add_right m 2)
  have hunits : (unitsOf m : ℚ) + gap m ≤ 2 * exponentWeight * gap m := by
    exact_mod_cast unitsOf_add_gap_le m
  have hfar : unitsOf m + 5 / 2 * gap m ≤ halfway (m + 2) := by
    rw [halfway_eq, unitsOf_succ, unitsOf_succ]
    push_cast
    linarith
  refine lt_of_lt_of_le ?_ hfar
  rw [halfway_eq, oneRounding]
  generalize (2 * exponentWeight : ℚ) = n at *
  generalize (unitsOf m : ℚ) = u at *
  generalize (gap m : ℚ) = g at *
  have hsplit : (1 + 1 / n) ^ 2 * (u + g / 2) =
      u + g / 2 + (2 * n + 1) * (u + g / 2) / n ^ 2 := by
    field_simp
    ring
  have hsmall : (2 * n + 1) * (u + g / 2) / n ^ 2 < 2 * g := by
    rw [div_lt_iff₀ (by positivity)]
    calc (2 * n + 1) * (u + g / 2) ≤ (2 * n + 1) * (n * g - g / 2) := by
          refine mul_le_mul_of_nonneg_left ?_ (by positivity)
          linarith
      _ = 2 * g * n ^ 2 - g / 2 := by ring
      _ < 2 * g * n ^ 2 := by linarith
  rw [hsplit]
  linarith

theorem position_near_iff {c : ℚ} {r s : Ratio} :
    Near c (position r) (position s) ↔ Near c r.toRat s.toRat := by
  have hunits : (0 : ℚ) < unitsInOne := by exact_mod_cast unitsInOne_pos
  refine ⟨fun h => ?_, fun h => h.mul_right hunits.le⟩
  have := h.mul_right (inv_nonneg.2 hunits.le)
  rwa [position, position, mul_inv_cancel_right₀ hunits.ne', mul_inv_cancel_right₀ hunits.ne']
    at this

/-- Ratios within two roundings of each other are rounded at most two magnitudes apart. -/
theorem nearestMagnitude_drift {r s : Ratio} (h : Near (oneRounding ^ 2) r.toRat s.toRat) :
    nearestMagnitude r ≤ nearestMagnitude s + 2 := by
  refine nearestMagnitude_le ?_
  calc position r ≤ oneRounding ^ 2 * position s := (position_near_iff.2 h).1
    _ ≤ oneRounding ^ 2 * halfway (nearestMagnitude s) :=
        mul_le_mul_of_nonneg_left (position_le_halfway s) (sq_nonneg _)
    _ < halfway (nearestMagnitude s + 2) := halfway_drift _

/-! ## The error of one rounding -/

/-- In the normal range the significand has all its bits. -/
theorem nearestMagnitude_normal {r : Ratio} (h : exponentWeight ≤ position r) :
    ∃ s g, unitsOf (nearestMagnitude r) = g * 2 ^ s ∧ exponentWeight ≤ g ∧
      exponentWeight * 2 ^ s ≤ position r ∧
        position r ≤ (g + 1 / 2) * 2 ^ s ∧ (g - 1 / 2) * 2 ^ s ≤ position r := by
  obtain ⟨s, g, hm, hg, hs, hbinade, hupper, hlower⟩ := nearestMagnitude_shifted r
  have hq : exponentWeight * 2 ^ s ≤ position r := by
    rcases hbinade with rfl | hq
    · simpa using h
    · exact hq
  have hpow : (0 : ℚ) < 2 ^ s := by positivity
  exact ⟨s, g, by rw [hm, unitsOf_shifted hg hs],
    le_of_le_add_half (le_of_mul_le_mul_right (hq.trans hupper) hpow), hq, hupper, hlower⟩

/-- The error is a fraction of the significand. -/
theorem near_of_significand {q k : ℚ} {s g : Nat} (hk : 0 < k) (hupper : q ≤ (g + 1 / 2) * 2 ^ s)
    (hlower : (g - 1 / 2) * 2 ^ s ≤ q) (hq : k * 2 ^ s ≤ q) (hg : k ≤ g) :
    Near (1 + 1 / (2 * k)) q (g * 2 ^ s) := by
  have hstep : (0 : ℚ) < 2 ^ s := by positivity
  have hhalf : (2 : ℚ) ^ s / 2 = 1 / (2 * k) * (k * 2 ^ s) := by
    field_simp
  refine Near.of_step (h := 2 ^ s / 2) (by linarith) (by linarith) ?_ ?_
  · rw [hhalf]
    exact mul_le_mul_of_nonneg_left hq (by positivity)
  · rw [hhalf]
    refine mul_le_mul_of_nonneg_left ?_ (by positivity)
    exact mul_le_mul_of_nonneg_right hg hstep.le

theorem nearestMagnitude_near {r : Ratio} (h : exponentWeight ≤ position r) :
    Near oneRounding (position r) (unitsOf (nearestMagnitude r)) := by
  obtain ⟨s, g, hunits, hg, hq, hupper, hlower⟩ := nearestMagnitude_normal h
  have hw : (0 : ℚ) < exponentWeight := by exact_mod_cast exponentWeight_pos
  rw [hunits, oneRounding]
  push_cast
  exact near_of_significand hw hupper hlower hq (by exact_mod_cast hg)

/-! ## Rounded numbers -/

theorem position_magnitude (x : Binary64) : position x.magnitude = unitsOf x.magnitudeBits := by
  have hunits : (unitsInOne : ℚ) ≠ 0 := by exact_mod_cast unitsInOne_pos.ne'
  simp only [position, Ratio.toRat, magnitude]
  rw [div_mul_cancel₀ _ hunits, units_eq]

theorem magnitudeBits_ofRatio (negative : Bool) (r : Ratio) :
    (ofRatio negative r).magnitudeBits = roundMagnitude r := by
  refine magnitudeBits_ofParts (Nat.lt_of_le_of_lt (Nat.min_le_right _ _) ?_)
  decide

theorem position_ofRatio {negative : Bool} {r : Ratio}
    (h : nearestMagnitude r < 2047 * exponentWeight) :
    position (ofRatio negative r).magnitude = unitsOf (nearestMagnitude r) := by
  rw [position_magnitude, magnitudeBits_ofRatio, roundMagnitude_eq_of_lt h]

/-- A rounded number of the normal range is a multiple of a power of two by a significand that has
all its bits. -/
theorem ofRatio_normal {r : Ratio} (negative : Bool) (hnormal : exponentWeight ≤ position r)
    (hfinite : nearestMagnitude r < 2047 * exponentWeight) :
    ∃ s g : Nat, position (ofRatio negative r).magnitude = g * 2 ^ s ∧ exponentWeight ≤ g ∧
      exponentWeight * 2 ^ s ≤ position r ∧
        position r ≤ (g + 1 / 2) * 2 ^ s ∧ (g - 1 / 2) * 2 ^ s ≤ position r := by
  obtain ⟨s, g, hunits, h⟩ := nearestMagnitude_normal hnormal
  refine ⟨s, g, ?_, h⟩
  rw [position_ofRatio hfinite, hunits]
  push_cast
  rfl

theorem ofRatio_near {r : Ratio} (negative : Bool) (hnormal : exponentWeight ≤ position r)
    (hfinite : nearestMagnitude r < 2047 * exponentWeight) :
    Near oneRounding r.toRat (ofRatio negative r).magnitude.toRat := by
  rw [← position_near_iff, position_ofRatio hfinite]
  exact nearestMagnitude_near hnormal

/-- The largest finite number, in units. -/
def largestUnits : Nat := (2 * exponentWeight - 1) * 2 ^ 2045

theorem nearestMagnitude_lt {r : Ratio} (h : position r ≤ largestUnits) :
    nearestMagnitude r < 2047 * exponentWeight := by
  have hunits : unitsOf (2047 * exponentWeight - 1) = largestUnits := by
    rw [show 2047 * exponentWeight - 1 = 2045 * exponentWeight + (2 * exponentWeight - 1) by decide]
    exact unitsOf_shifted (by decide) (.inr (by decide))
  have hle := nearestMagnitude_le (r := r) (m := 2047 * exponentWeight - 1)
    (h.trans_lt (hunits ▸ unitsOf_lt_halfway _))
  have : 0 < 2047 * exponentWeight := by decide
  omega

/-- A significand of at most 53 bits, or one more, is a magnitude at every exponent. -/
theorem exists_unitsOf {a : Nat} (ha : a ≤ 2 * exponentWeight) (j : Nat) :
    ∃ m, unitsOf m = a * 2 ^ j := by
  induction j generalizing a with
  | zero => exact ⟨a, by simpa using unitsOf_shifted (s := 0) ha (.inl rfl)⟩
  | succ j ih =>
      rcases Nat.lt_or_ge a exponentWeight with hlt | hge
      · obtain ⟨m, hm⟩ := ih (a := 2 * a) (by omega)
        exact ⟨m, by rw [hm, Nat.pow_succ]; ring⟩
      · exact ⟨_, unitsOf_shifted ha (.inr hge)⟩

/-- Such a number is kept as it is. -/
theorem ofRatio_exact {r : Ratio} {a j : Nat} (negative : Bool) (ha : a ≤ 2 * exponentWeight)
    (h : position r = a * 2 ^ j) (hfinite : position r ≤ largestUnits) :
    (ofRatio negative r).magnitude.toRat = r.toRat := by
  obtain ⟨m, hm⟩ := exists_unitsOf ha j
  have hposition : position r = unitsOf m := by
    rw [h, hm]
    push_cast
    rfl
  have hnear : Near 1 r.toRat (ofRatio negative r).magnitude.toRat := by
    rw [← position_near_iff, position_ofRatio (nearestMagnitude_lt hfinite),
      nearestMagnitude_of_units hposition, hposition]
    exact .refl _
  exact hnear.eq.symm

end Binary64

end SyntaxTree
