import Mathlib.Algebra.Order.Field.Rat
import Mathlib.Tactic.FieldSimp
import Mathlib.Tactic.Linarith
import Mathlib.Tactic.Positivity
import Mathlib.Tactic.Ring
import SyntaxTree.Proofs.Binary64.Bits

/-! # Rounding to the nearest magnitude

The magnitudes stand in increasing order on the line of units, and between two neighbours lies the
point halfway. Rounding is determined by these points: what lies below the point above a magnitude
is rounded to that magnitude or to one before it. -/

namespace SyntaxTree

namespace Ratio

/-- The ratio as a rational number. -/
def toRat (r : Ratio) : ℚ := r.num / r.den

theorem toRat_nonneg (r : Ratio) : 0 ≤ r.toRat := by
  unfold toRat
  positivity

theorem den_ne_zero (r : Ratio) : (r.den : ℚ) ≠ 0 := by
  exact_mod_cast Nat.ne_of_gt r.den_pos

theorem toRat_ofNat (n : Nat) : (ofNat n).toRat = n := by
  simp [toRat, ofNat]

theorem toRat_mul (r s : Ratio) : (r.mul s).toRat = r.toRat * s.toRat := by
  simp only [toRat, mul, Nat.cast_mul]
  rw [mul_div_mul_comm]

theorem toRat_div (r s : Ratio) (hs : 0 < s.num) : (r.div s hs).toRat = r.toRat / s.toRat := by
  simp only [toRat, div, Nat.cast_mul]
  rw [div_div_div_eq]

theorem toRat_timesPowTen (r : Ratio) (e : Int) :
    (r.timesPowTen e).toRat = r.toRat * 10 ^ e := by
  simp only [toRat, timesPowTen, Nat.cast_mul, Nat.pow_eq, Nat.cast_pow, Nat.cast_ofNat]
  rcases Int.le_total 0 e with he | he
  · obtain ⟨n, rfl⟩ := Int.eq_ofNat_of_zero_le he
    simp [div_mul_eq_mul_div]
  · obtain ⟨n, hn⟩ := Int.eq_ofNat_of_zero_le (Int.neg_nonneg_of_nonpos he)
    obtain rfl : e = -n := by omega
    simp only [Int.toNat_neg_natCast, pow_zero, mul_one, neg_neg, Int.toNat_natCast, zpow_neg,
      zpow_natCast, ← div_eq_mul_inv, div_div]

theorem toRat_pos {r : Ratio} : 0 < r.toRat ↔ 0 < r.num := by
  have hden : (0 : ℚ) < r.den := by exact_mod_cast r.den_pos
  rw [toRat, div_pos_iff_of_pos_right hden, Nat.cast_pos]

/-- Rounding moves a ratio by at most one half. -/
theorem nearest_bounds (r : Ratio) :
    r.toRat ≤ r.nearest + 1 / 2 ∧ (r.nearest : ℚ) ≤ r.toRat + 1 / 2 := by
  obtain ⟨h₁, h₂⟩ := r.nearest_near
  have hd : (0 : ℚ) < r.den := by exact_mod_cast r.den_pos
  have h₁ : (2 : ℚ) * r.num ≤ (2 * r.nearest + 1) * r.den := by exact_mod_cast h₁
  have h₂ : (2 : ℚ) * (r.nearest * r.den) ≤ 2 * r.num + r.den := by exact_mod_cast h₂
  have hnum : (r.num : ℚ) = r.toRat * r.den := by
    rw [toRat, div_mul_cancel₀ _ r.den_ne_zero]
  rw [hnum] at h₁ h₂
  constructor
  · refine le_of_mul_le_mul_right ?_ hd
    linarith
  · refine le_of_mul_le_mul_right ?_ hd
    linarith

theorem floor_bounds (r : Ratio) : (r.floor : ℚ) ≤ r.toRat ∧ r.toRat < r.floor + 1 := by
  have hd : (0 : ℚ) < r.den := by exact_mod_cast r.den_pos
  rw [toRat, le_div_iff₀ hd, div_lt_iff₀ hd]
  constructor
  · exact_mod_cast Nat.div_mul_le_self r.num r.den
  · exact_mod_cast Nat.lt_mul_of_div_lt (Nat.lt_succ_self (r.num / r.den)) r.den_pos

/-! ## Equal ratios -/

theorem toRat_eq_iff {r s : Ratio} : r.toRat = s.toRat ↔ r.num * s.den = s.num * r.den := by
  rw [toRat, toRat, div_eq_div_iff r.den_ne_zero s.den_ne_zero]
  exact_mod_cast Iff.rfl

theorem floor_congr {r s : Ratio} (h : r.toRat = s.toRat) : r.floor = s.floor := by
  have h := toRat_eq_iff.1 h
  rw [floor, floor, ← Nat.mul_div_mul_right r.num r.den s.den_pos, h, Nat.mul_comm r.den,
    Nat.mul_div_mul_right s.num s.den r.den_pos]

/-- Scaling both terms does not change the nearest number. -/
theorem nearest_scaled (n d k : Nat) (hd : 0 < d) (hk : 0 < k) :
    nearest ⟨n * k, d * k, Nat.mul_pos hd hk⟩ = nearest ⟨n, d, hd⟩ := by
  have hlt (a b : Nat) : a * k < b * k ↔ a < b := Nat.mul_lt_mul_right hk
  simp only [nearest, Nat.mul_div_mul_right n d hk, Nat.mul_mod_mul_right, ← Nat.mul_assoc, hlt]

theorem nearest_congr {r s : Ratio} (h : r.toRat = s.toRat) : r.nearest = s.nearest := by
  have h := toRat_eq_iff.1 h
  rw [← nearest_scaled r.num r.den s.den r.den_pos s.den_pos,
    ← nearest_scaled s.num s.den r.den s.den_pos r.den_pos]
  simp only [h, Nat.mul_comm s.den]

end Ratio

namespace Binary64

/-! ## The line of units -/

/-- The number of units that a magnitude stands for. -/
def unitsOf (m : Nat) : Nat :=
  (if m / exponentWeight = 0 then m % exponentWeight else exponentWeight + m % exponentWeight) *
    Nat.pow 2 (m / exponentWeight - 1)

theorem units_eq (x : Binary64) : x.units = unitsOf x.magnitudeBits := rfl

theorem unitsOf_zero : unitsOf 0 = 0 := by decide

/-- The distance to the next magnitude. -/
def gap (m : Nat) : Nat := 2 ^ (m / exponentWeight - 1)

theorem exponentWeight_pos : 0 < exponentWeight := pow_two_pos 52

theorem gap_pos (m : Nat) : 0 < gap m := Nat.pow_pos (by decide)

theorem gap_mono {m n : Nat} (h : m ≤ n) : gap m ≤ gap n := by
  refine Nat.pow_le_pow_right (by decide) (Nat.sub_le_sub_right ?_ 1)
  exact Nat.div_le_div_right h

/-- A significand of at most 53 bits, or one more, shifted by `s` bits. -/
theorem unitsOf_shifted {s g : Nat} (hg : g ≤ 2 * exponentWeight) (hs : s = 0 ∨ exponentWeight ≤ g) :
    unitsOf (s * exponentWeight + g) = g * 2 ^ s := by
  have hw := exponentWeight_pos
  have hdiv : (s * exponentWeight + g) / exponentWeight = s + g / exponentWeight := by
    rw [Nat.add_comm, Nat.add_mul_div_right _ _ hw, Nat.add_comm]
  have hmod : (s * exponentWeight + g) % exponentWeight = g % exponentWeight := by
    rw [Nat.add_comm, Nat.add_mul_mod_self_right]
  unfold unitsOf
  rw [hdiv, hmod]
  rcases Nat.lt_or_ge g exponentWeight with hlt | hge
  · obtain rfl : s = 0 := hs.resolve_right (Nat.not_le.2 hlt)
    simp [Nat.div_eq_of_lt hlt, Nat.mod_eq_of_lt hlt]
  · rcases Nat.lt_or_ge g (2 * exponentWeight) with hlt | hge'
    · have hone : g / exponentWeight = 1 := Nat.div_eq_of_lt_le (by omega) (by omega)
      have hrest : exponentWeight + g % exponentWeight = g := by
        have := Nat.div_add_mod g exponentWeight
        rw [hone] at this
        omega
      rw [hone, if_neg (by omega), hrest, Nat.add_sub_cancel]
      rfl
    · obtain rfl : g = 2 * exponentWeight := Nat.le_antisymm hg hge'
      rw [Nat.mul_div_cancel _ hw, Nat.mul_mod_left, if_neg (by omega), Nat.add_zero,
        Nat.mul_comm 2, Nat.mul_assoc]
      change exponentWeight * 2 ^ (s + 1) = _
      rw [Nat.pow_succ, Nat.mul_comm 2]

/-- Every magnitude is a shifted significand. -/
theorem exists_shifted (m : Nat) : ∃ s g, m = s * exponentWeight + g ∧ g < 2 * exponentWeight ∧
    (s = 0 ∨ exponentWeight ≤ g) ∧ gap m = 2 ^ s := by
  have hw := exponentWeight_pos
  have hm := Nat.div_add_mod m exponentWeight
  have hlt := Nat.mod_lt m hw
  rcases Nat.eq_zero_or_pos (m / exponentWeight) with hzero | hpos
  · refine ⟨0, m, by omega, ?_, .inl rfl, by rw [gap, hzero]⟩
    rw [hzero] at hm
    omega
  · refine ⟨m / exponentWeight - 1, exponentWeight + m % exponentWeight, ?_, by omega,
      .inr (by omega), rfl⟩
    have hsplit : m / exponentWeight = (m / exponentWeight - 1) + 1 := by omega
    have : m / exponentWeight * exponentWeight =
        (m / exponentWeight - 1) * exponentWeight + exponentWeight := by
      nth_rewrite 1 [hsplit]
      rw [Nat.add_mul, Nat.one_mul]
    rw [Nat.mul_comm] at hm
    omega

theorem unitsOf_succ (m : Nat) : unitsOf (m + 1) = unitsOf m + gap m := by
  obtain ⟨s, g, rfl, hg, hs, hgap⟩ := exists_shifted m
  rw [Nat.add_assoc, unitsOf_shifted (by omega) hs, unitsOf_shifted (by omega) (by omega), hgap,
    Nat.add_mul, Nat.one_mul]

/-- A magnitude is less than `2 ^ 53` times the distance to the next one. -/
theorem unitsOf_add_gap_le (m : Nat) : unitsOf m + gap m ≤ 2 * exponentWeight * gap m := by
  obtain ⟨s, g, rfl, hg, hs, hgap⟩ := exists_shifted m
  rw [unitsOf_shifted (by omega) hs, hgap, ← Nat.succ_mul]
  exact Nat.mul_le_mul_right _ hg

/-- The point halfway between a magnitude and the next one. -/
def halfway (m : Nat) : ℚ := (unitsOf m + unitsOf (m + 1)) / 2

theorem halfway_eq (m : Nat) : halfway m = unitsOf m + gap m / 2 := by
  rw [halfway, unitsOf_succ, Nat.cast_add]
  ring

theorem halfway_mono {m n : Nat} (h : m ≤ n) : halfway m ≤ halfway n := by
  induction h with
  | refl => exact le_refl _
  | @step n _ ih =>
      refine ih.trans ?_
      have h₁ : (0 : ℚ) < gap n := by exact_mod_cast gap_pos n
      have h₂ : (0 : ℚ) < gap (n + 1) := by exact_mod_cast gap_pos (n + 1)
      rw [Nat.succ_eq_add_one, halfway_eq, halfway_eq, unitsOf_succ, Nat.cast_add]
      linarith

/-! ## Rounding -/

theorem cast_pow_two (n : Nat) : ((Nat.pow 2 n : Nat) : ℚ) = 2 ^ n := by
  exact_mod_cast rfl

theorem cast_exponentWeight : (exponentWeight : ℚ) = 2 ^ 52 := cast_pow_two 52

theorem cast_unitsInOne : (unitsInOne : ℚ) = 2 ^ 1074 := by
  unfold unitsInOne
  apply cast_pow_two

/-- The place of a ratio on the line of units. -/
def position (r : Ratio) : ℚ := r.toRat * unitsInOne

/-- The binary exponent, over the unit, of the multiples that the ratio is rounded to. -/
def binade (r : Ratio) : Nat := (r.num * unitsInOne / r.den).log2 - 52

/-- The ratio counted in steps of `2 ^ s` units. -/
def inSteps (r : Ratio) (s : Nat) : Ratio :=
  ⟨r.num * unitsInOne, r.den * Nat.pow 2 s, Nat.mul_pos r.den_pos (pow_two_pos s)⟩

theorem toRat_inSteps (r : Ratio) (s : Nat) : (inSteps r s).toRat = position r / 2 ^ s := by
  simp only [inSteps, Ratio.toRat, position, Nat.cast_mul, cast_pow_two]
  rw [div_mul_eq_mul_div, div_div]

theorem binade_eq (r : Ratio) : binade r = (inSteps r 0).floor.log2 - 52 := by
  simp [binade, inSteps, Ratio.floor]

/-- The rounded magnitude, with no bound on the exponent. -/
def nearestMagnitude (r : Ratio) : Nat :=
  binade r * exponentWeight + (inSteps r (binade r)).nearest

theorem roundMagnitude_eq (r : Ratio) :
    roundMagnitude r = min (nearestMagnitude r) (2047 * exponentWeight) := rfl

theorem roundMagnitude_eq_of_lt {r : Ratio} (h : nearestMagnitude r < 2047 * exponentWeight) :
    roundMagnitude r = nearestMagnitude r := Nat.min_eq_left h.le

theorem nearestMagnitude_eq_of_lt {r : Ratio} (h : roundMagnitude r < 2047 * exponentWeight) :
    nearestMagnitude r = roundMagnitude r := by
  rw [roundMagnitude_eq] at h ⊢
  omega

theorem le_of_le_add_half {m n : Nat} (h : (m : ℚ) ≤ n + 1 / 2) : m ≤ n := by
  have h : (m : ℚ) < (n + 1 : Nat) := by
    push_cast
    linarith
  exact Nat.lt_succ_iff.1 (by exact_mod_cast h)

/-- A position lies in its binade, or below the first one. -/
theorem position_bounds (r : Ratio) : position r < 2 * exponentWeight * 2 ^ binade r ∧
    (binade r = 0 ∨ exponentWeight * 2 ^ binade r ≤ position r) := by
  obtain ⟨hle, hlt⟩ := Ratio.floor_bounds (inSteps r 0)
  rw [toRat_inSteps, pow_zero, div_one] at hle hlt
  rw [binade_eq]
  generalize (inSteps r 0).floor = n at *
  constructor
  · have hpow : n + 1 ≤ 2 * exponentWeight * 2 ^ (n.log2 - 52) := by
      have hstep : 2 ^ (n.log2 + 1) ≤ 2 ^ (53 + (n.log2 - 52)) :=
        Nat.pow_le_pow_right (by decide) (by omega)
      rw [Nat.pow_add 2 53] at hstep
      exact le_trans Nat.lt_log2_self hstep
    refine hlt.trans_le ?_
    exact_mod_cast hpow
  · rcases Nat.eq_zero_or_pos (n.log2 - 52) with hzero | hpos
    · exact .inl hzero
    · refine .inr (le_trans ?_ hle)
      have hne : n ≠ 0 := by
        rintro rfl
        simp at hpos
      have hlower : 2 ^ n.log2 ≤ n := Nat.log2_self_le hne
      have hsplit : n.log2 = 52 + (n.log2 - 52) := by omega
      rw [hsplit, Nat.pow_add] at hlower
      exact_mod_cast hlower

/-- Rounding takes the nearest multiple of the steps of the binade. -/
theorem nearestMagnitude_shifted (r : Ratio) : ∃ s g, nearestMagnitude r = s * exponentWeight + g ∧
    g ≤ 2 * exponentWeight ∧ (s = 0 ∨ exponentWeight ≤ g) ∧
      (s = 0 ∨ exponentWeight * 2 ^ s ≤ position r) ∧
        position r ≤ (g + 1 / 2) * 2 ^ s ∧ (g - 1 / 2) * 2 ^ s ≤ position r := by
  obtain ⟨hupper, hlower⟩ := position_bounds r
  obtain ⟨hbelow, habove⟩ := Ratio.nearest_bounds (inSteps r (binade r))
  refine ⟨binade r, (inSteps r (binade r)).nearest, rfl, ?_⟩
  rw [toRat_inSteps] at hbelow habove
  generalize (inSteps r (binade r)).nearest = g at *
  generalize binade r = s at *
  have hpow : (0 : ℚ) < 2 ^ s := by positivity
  rw [div_le_iff₀ hpow] at hbelow
  rw [← sub_le_iff_le_add, le_div_iff₀ hpow] at habove
  refine ⟨?_, ?_, hlower, hbelow, habove⟩
  · have h : (g : ℚ) - 1 / 2 < 2 * exponentWeight :=
      lt_of_mul_lt_mul_right (habove.trans_lt hupper) hpow.le
    refine le_of_le_add_half ?_
    push_cast
    linarith
  · exact hlower.imp_right fun hlower =>
      le_of_le_add_half (le_of_mul_le_mul_right (hlower.trans hbelow) hpow)

/-! ## The points halfway -/

theorem two_pow_le_gap {s g : Nat} (hs : s = 0 ∨ exponentWeight ≤ g) :
    2 ^ s ≤ gap (s * exponentWeight + g) := by
  refine Nat.pow_le_pow_right (by decide) ?_
  rcases hs with rfl | hg
  · exact Nat.zero_le _
  · refine Nat.le_sub_of_add_le ((Nat.le_div_iff_mul_le exponentWeight_pos).2 ?_)
    rw [Nat.add_mul]
    omega

theorem position_le_halfway (r : Ratio) : position r ≤ halfway (nearestMagnitude r) := by
  obtain ⟨s, g, hm, hg, hs, -, hupper, -⟩ := nearestMagnitude_shifted r
  have hgap : ((2 ^ s : Nat) : ℚ) ≤ gap (s * exponentWeight + g) := by
    exact_mod_cast two_pow_le_gap hs
  rw [hm, halfway_eq, unitsOf_shifted hg hs]
  push_cast at hgap ⊢
  linarith

theorem halfway_le_position {r : Ratio} {m : Nat} (h : nearestMagnitude r = m + 1) :
    halfway m ≤ position r := by
  obtain ⟨s, g, hm, hg, hs, hbinade, -, hlower⟩ := nearestMagnitude_shifted r
  have hunits : unitsOf (m + 1) = g * 2 ^ s := by rw [← h, hm, unitsOf_shifted hg hs]
  have hhalfway : halfway m = unitsOf (m + 1) - gap m / 2 := by
    rw [halfway_eq, unitsOf_succ, Nat.cast_add]
    ring
  rw [hhalfway, hunits]
  push_cast
  by_cases hfirst : s ≠ 0 ∧ g = exponentWeight
  · -- The point halfway lies below the first number of the binade.
    obtain ⟨hs₀, rfl⟩ := hfirst
    have hgap : (0 : ℚ) < gap m := by exact_mod_cast gap_pos m
    have := hbinade.resolve_left hs₀
    linarith
  · have hpos : 0 < g := by
      by_contra hzero
      obtain rfl : g = 0 := by omega
      have hs₀ : s = 0 := hs.resolve_right (Nat.not_le.2 exponentWeight_pos)
      rw [hs₀] at hm
      omega
    have hgap : ((2 ^ s : Nat) : ℚ) ≤ gap m := by
      obtain rfl : m = s * exponentWeight + (g - 1) := by omega
      exact_mod_cast two_pow_le_gap (by omega)
    push_cast at hgap
    linarith

/-- What lies before the point above a magnitude is rounded to it or to one before it. -/
theorem nearestMagnitude_le {r : Ratio} {m : Nat} (h : position r < halfway m) :
    nearestMagnitude r ≤ m := by
  by_contra hlt
  obtain ⟨k, hk⟩ := Nat.exists_eq_add_of_lt (Nat.not_le.1 hlt)
  have := halfway_le_position hk
  exact absurd ((halfway_mono (Nat.le_add_right m k)).trans this) (not_le.2 h)

theorem lt_nearestMagnitude {r : Ratio} {m : Nat} (h : halfway m < position r) :
    m < nearestMagnitude r := by
  by_contra hle
  exact absurd ((position_le_halfway r).trans (halfway_mono (Nat.not_lt.1 hle))) (not_le.2 h)

theorem unitsOf_lt_halfway (m : Nat) : (unitsOf m : ℚ) < halfway m := by
  have : (0 : ℚ) < gap m := by exact_mod_cast gap_pos m
  rw [halfway_eq]
  linarith

theorem halfway_lt_unitsOf (m : Nat) : halfway m < unitsOf (m + 1) := by
  have : (0 : ℚ) < gap m := by exact_mod_cast gap_pos m
  rw [halfway_eq, unitsOf_succ, Nat.cast_add]
  linarith

/-- A magnitude is rounded to itself. -/
theorem nearestMagnitude_of_units {r : Ratio} {m : Nat} (h : position r = unitsOf m) :
    nearestMagnitude r = m := by
  refine Nat.le_antisymm (nearestMagnitude_le (h ▸ unitsOf_lt_halfway m)) ?_
  cases m with
  | zero => exact Nat.zero_le _
  | succ m => exact lt_nearestMagnitude (h ▸ halfway_lt_unitsOf m)

/-- Rounding sees the value of a ratio only. -/
theorem nearestMagnitude_congr {r s : Ratio} (h : r.toRat = s.toRat) :
    nearestMagnitude r = nearestMagnitude s := by
  have hposition : position r = position s := by rw [position, position, h]
  have hsteps (k : Nat) : (inSteps r k).toRat = (inSteps s k).toRat := by
    rw [toRat_inSteps, toRat_inSteps, hposition]
  have hbinade : binade r = binade s := by
    rw [binade_eq, binade_eq, Ratio.floor_congr (hsteps 0)]
  rw [nearestMagnitude, nearestMagnitude, hbinade, Ratio.nearest_congr (hsteps _)]

/-- Rounding keeps the order. -/
theorem nearestMagnitude_mono {r s : Ratio} (h : position r ≤ position s) :
    nearestMagnitude r ≤ nearestMagnitude s := by
  rcases h.lt_or_eq with hlt | heq
  · by_contra hgt
    obtain ⟨k, hk⟩ := Nat.exists_eq_add_of_lt (Nat.not_le.1 hgt)
    have hle : halfway (nearestMagnitude s) ≤ position r :=
      (halfway_mono (Nat.le_add_right _ k)).trans (halfway_le_position hk)
    exact absurd ((position_le_halfway s).trans hle) (not_le.2 hlt)
  · have hunits : (unitsInOne : ℚ) ≠ 0 := by exact_mod_cast unitsInOne_pos.ne'
    exact (nearestMagnitude_congr (mul_right_cancel₀ hunits heq)).le

end Binary64

end SyntaxTree
