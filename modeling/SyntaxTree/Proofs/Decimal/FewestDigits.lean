import SyntaxTree.Proofs.Binary64.NearestEven

/-! # Fewest digits

Among all decimals that are rounded to a finite number, the one that the search finds has the fewest
significant digits, and none with as many digits is nearer. Any decimal that is rounded to the number
leads to a point with as many digits that is on a grid of the search: the decimal itself, or the
power of ten that lies between it and the number. -/

namespace SyntaxTree

/-- A decimal that can be written with `n` significant digits or fewer. -/
def HasDigits (q : ℚ) (n : Nat) : Prop := ∃ c e : ℤ, |c| < 10 ^ n ∧ q = c * 10 ^ e

theorem HasDigits.sign_mul {q : ℚ} {n : Nat} (h : HasDigits q n) (x : Binary64) :
    HasDigits (x.sign * q) n := by
  obtain ⟨c, e, hc, rfl⟩ := h
  rcases x.sign_cases with hsign | hsign
  · exact ⟨c, e, hc, by rw [hsign, one_mul]⟩
  · exact ⟨-c, e, by rwa [abs_neg], by rw [hsign]; push_cast; ring⟩

/-- A decimal of `n` digits that is rounded to `x`. None that is rounded to `x` has fewer digits,
and none with as many digits is nearer to `x`. -/
structure Binary64.IsShortest (q : ℚ) (n : Nat) (x : Binary64) : Prop where
  hasDigits : HasDigits q n
  roundsTo : x.RoundsTo q
  fewest : ∀ r k, HasDigits r k → RoundsTo r x → n ≤ k
  closest : ∀ r, HasDigits r n → RoundsTo r x → |q - x.value| ≤ |r - x.value|

namespace Decimal

open Binary64

/-! ## Decimals without their sign -/

section Unsigned

variable {x : Binary64} {d d' : Decimal}

theorem roundsTo_iff_signed (hfinite : x.isFinite = true) (hzero : x.isZero = false) :
    d.roundsTo x = true ↔ RoundsTo (x.sign * d.value.toRat) x := by
  obtain ⟨m, hx, hm⟩ := exists_succ hfinite hzero
  have hr : d.value.toRat = x.sign * (x.sign * d.value.toRat) := by
    rw [← mul_assoc, sign_mul_sign, one_mul]
  rw [roundsTo_iff (hx ▸ hm), roundsTo_iff_nearestMagnitude hfinite hx hr]

/-- A decimal that is rounded to a number has the sign of the number. -/
theorem exists_unsigned {q : ℚ} {n : Nat} (hzero : x.isZero = false) (h : RoundsTo q x)
    (hdigits : HasDigits q n) : ∃ d : Decimal, 0 < d.coefficient ∧ d.coefficient < 10 ^ n ∧
      q = x.sign * d.value.toRat ∧ d.roundsTo x = true := by
  obtain ⟨m, hx, -⟩ := exists_succ h.isFinite hzero
  have hpos := h.sign_mul_pos hx
  obtain ⟨c, e, hc, rfl⟩ := hdigits
  have hpow : (0 : ℚ) < 10 ^ e := zpow_pos (by norm_num) e
  have habs : |(c : ℚ) * 10 ^ e| = (value ⟨c.natAbs, e⟩).toRat := by
    rw [toRat_value, abs_mul, abs_of_pos hpow, Nat.cast_natAbs, Int.cast_abs]
  have hsigned : (c : ℚ) * 10 ^ e = x.sign * (value ⟨c.natAbs, e⟩).toRat := by
    rw [← habs, ← one_mul |(c : ℚ) * 10 ^ e|, ← abs_sign x, ← abs_mul, abs_of_pos hpos, ← mul_assoc,
      sign_mul_sign, one_mul]
  refine ⟨⟨c.natAbs, e⟩, Int.natAbs_pos.2 ?_, by zify; exact hc, hsigned, ?_⟩
  · rintro rfl
    simp at hpos
  · rw [roundsTo_iff_signed h.isFinite hzero, ← hsigned]
    exact h

/-- What lies between a number and a decimal that is rounded to it is rounded to it as well. -/
theorem roundsTo_of_between (hfinite : x.isFinite = true) (h : d'.roundsTo x = true)
    (hbetween : d'.value.toRat ≤ d.value.toRat ∧ d.value.toRat ≤ x.magnitude.toRat ∨
      x.magnitude.toRat ≤ d.value.toRat ∧ d.value.toRat ≤ d'.value.toRat) :
    d.roundsTo x = true := by
  have hm := x.isFinite_iff.1 hfinite
  have hself : nearestMagnitude x.magnitude = x.magnitudeBits :=
    nearestMagnitude_of_units (position_magnitude x)
  have hmono {r s : Ratio} (hrs : r.toRat ≤ s.toRat) : nearestMagnitude r ≤ nearestMagnitude s :=
    nearestMagnitude_mono (mul_le_mul_of_nonneg_right hrs (Nat.cast_nonneg _))
  rw [roundsTo_iff hm] at h ⊢
  rcases hbetween with ⟨hlower, hupper⟩ | ⟨hlower, hupper⟩
  · exact Nat.le_antisymm ((hmono hupper).trans hself.le) (h.ge.trans (hmono hlower))
  · exact Nat.le_antisymm ((hmono hupper).trans h.le) (hself.ge.trans (hmono hlower))

theorem roundsTo_congr (hfinite : x.isFinite = true) (hvalue : d.value.toRat = d'.value.toRat)
    (h : d.roundsTo x = true) : d'.roundsTo x = true := by
  have hm := x.isFinite_iff.1 hfinite
  rw [roundsTo_iff hm] at h ⊢
  rw [← nearestMagnitude_congr hvalue, h]

/-- A decimal is a point of every grid that is not coarser than its exponent. -/
theorem exists_onGrid {e : Int} (hle : e ≤ d.exponent) :
    ∃ n, (value ⟨n, e⟩).toRat = d.value.toRat := by
  obtain ⟨k, hk⟩ := Int.eq_ofNat_of_zero_le (Int.sub_nonneg_of_le hle)
  refine ⟨d.coefficient * 10 ^ k, ?_⟩
  have hexponent : d.exponent = k + e := by omega
  rw [toRat_value, toRat_value, hexponent, zpow_add₀ (by norm_num), zpow_natCast]
  push_cast
  ring

/-- The exponent of a decimal follows from its order and the number of its digits. -/
theorem sub_le_exponent {order : Int} {n : Nat} (hdigits : d.coefficient < 10 ^ (n + 1))
    (horder : (10 : ℚ) ^ order ≤ d.value.toRat) : order - n ≤ d.exponent := by
  have hpow : (0 : ℚ) < 10 ^ d.exponent := zpow_pos (by norm_num) _
  have hlt : (10 : ℚ) ^ order < 10 ^ (n + 1 + d.exponent : Int) := by
    refine horder.trans_lt ?_
    rw [toRat_value, zpow_add₀ (by norm_num)]
    exact mul_lt_mul_of_pos_right (by exact_mod_cast hdigits) hpow
  have := (zpow_lt_zpow_iff_right₀ (by norm_num)).1 hlt
  omega

end Unsigned

/-! ## The nearer neighbour -/

/-- What is above the floor is the remainder of the division. -/
theorem sub_floor_mul_den (r : Ratio) :
    (r.toRat - r.floor) * r.den = (r.num % r.den : Nat) := by
  have hden : (0 : ℚ) < r.den := by exact_mod_cast r.den_pos
  have hsplit : (r.den : ℚ) * r.floor + (r.num % r.den : Nat) = r.num := by
    exact_mod_cast Nat.div_add_mod r.num r.den
  rw [sub_mul, Ratio.toRat, div_mul_cancel₀ _ hden.ne']
  linarith

/-- The neighbour that is taken is not farther away than one that could be taken. -/
theorem pick_closest {tie : Tie} {scaled : Ratio} {e : Int} {below above : Bool} {d : Decimal}
    (h : pick tie scaled ⟨scaled.floor, e⟩ ⟨scaled.floor + 1, e⟩ below above = some d) :
    (below = true → |d.coefficient - scaled.toRat| ≤ scaled.toRat - scaled.floor) ∧
      (above = true → |d.coefficient - scaled.toRat| ≤ scaled.floor + 1 - scaled.toRat) := by
  obtain ⟨hle, hlt⟩ := scaled.floor_bounds
  have hbelow : |(scaled.floor : ℚ) - scaled.toRat| = scaled.toRat - scaled.floor := by
    rw [abs_of_nonpos (by linarith), neg_sub]
  have habove : |((scaled.floor + 1 : Nat) : ℚ) - scaled.toRat| =
      scaled.floor + 1 - scaled.toRat := by
    rw [Nat.cast_add, Nat.cast_one, abs_of_nonneg (by linarith)]
  match below, above, h with
  | true, false, h =>
      obtain rfl := Option.some.inj h
      exact ⟨fun _ => hbelow.le, nofun⟩
  | false, true, h =>
      obtain rfl := Option.some.inj h
      exact ⟨nofun, fun _ => habove.le⟩
  | true, true, h =>
      have hden : (0 : ℚ) < scaled.den := by exact_mod_cast scaled.den_pos
      have hrest := sub_floor_mul_den scaled
      dsimp only [pick] at h
      split at h
      · next hlow =>
        have hlow : (2 : ℚ) * (scaled.num % scaled.den : Nat) < scaled.den := by exact_mod_cast hlow
        have hhalf : scaled.toRat - scaled.floor < 1 / 2 :=
          lt_of_mul_lt_mul_right (by linarith) hden.le
        obtain rfl := Option.some.inj h
        exact ⟨fun _ => hbelow.le, fun _ => hbelow.le.trans (by linarith)⟩
      · next hlow =>
        have hlow : (scaled.den : ℚ) ≤ 2 * (scaled.num % scaled.den : Nat) := by
          exact_mod_cast Nat.not_lt.1 hlow
        have hhalf : 1 / 2 ≤ scaled.toRat - scaled.floor :=
          le_of_mul_le_mul_right (by linarith) hden
        split at h
        · obtain rfl := Option.some.inj h
          exact ⟨fun _ => habove.le.trans (by linarith), fun _ => habove.le⟩
        · next hhigh =>
          have hhigh : (2 : ℚ) * (scaled.num % scaled.den : Nat) ≤ scaled.den := by
            exact_mod_cast Nat.not_lt.1 hhigh
          have hhalf' : scaled.toRat - scaled.floor ≤ 1 / 2 :=
            le_of_mul_le_mul_right (by linarith) hden
          split at h
          · obtain rfl := Option.some.inj h
            exact ⟨fun _ => hbelow.le, fun _ => hbelow.le.trans (by linarith)⟩
          · obtain rfl := Option.some.inj h
            exact ⟨fun _ => habove.le.trans (by linarith), fun _ => habove.le⟩

/-- The point that is taken on a grid is not farther from the number than a decimal that is rounded
to the number, unless this decimal lies between the neighbours of the number on the grid. -/
theorem onGrid?_closest {tie : Tie} {x : Binary64} {e : Int} {d d' : Decimal}
    (hfinite : x.isFinite = true) (h : onGrid? tie x e = some d) (h' : d'.roundsTo x = true)
    (houtside : d'.value.toRat ≤ (value ⟨stepsBelow x e, e⟩).toRat ∨
      (value ⟨stepsBelow x e + 1, e⟩).toRat ≤ d'.value.toRat) :
    |d.value.toRat - x.magnitude.toRat| ≤ |d'.value.toRat - x.magnitude.toRat| := by
  have hpow : (0 : ℚ) < 10 ^ e := zpow_pos (by norm_num) e
  obtain ⟨hbelow, habove⟩ := pick_closest h
  obtain ⟨hle, hlt⟩ := (x.magnitude.timesPowTen (-e)).floor_bounds
  obtain ⟨n, rfl, -, -⟩ := onGrid?_eq_some h
  -- Distances on the grid are counted in steps.
  have hscaled : x.magnitude.toRat = (x.magnitude.timesPowTen (-e)).toRat * 10 ^ e := by
    rw [Ratio.toRat_timesPowTen, mul_assoc, ← zpow_add₀ (by norm_num), neg_add_cancel, zpow_zero,
      mul_one]
  have hsteps (k : Nat) : (value ⟨k, e⟩).toRat - x.magnitude.toRat =
      (k - (x.magnitude.timesPowTen (-e)).toRat) * 10 ^ e := by
    rw [toRat_value, hscaled, sub_mul]
  rw [hsteps, abs_mul, abs_of_pos hpow]
  rw [stepsBelow] at houtside
  rcases houtside with houtside | houtside
  · have hdistance := hsteps (x.magnitude.timesPowTen (-e)).floor
    have hself := mul_nonpos_of_nonpos_of_nonneg (sub_nonpos.2 hle) hpow.le
    have hrounds := roundsTo_of_between hfinite h' (.inl ⟨houtside, by linarith⟩)
    refine (mul_le_mul_of_nonneg_right (hbelow hrounds) hpow.le).trans ?_
    rw [abs_of_nonpos (by linarith)]
    linarith
  · have hdistance := hsteps ((x.magnitude.timesPowTen (-e)).floor + 1)
    rw [Nat.cast_add, Nat.cast_one] at hdistance
    have hself := mul_nonneg (sub_nonneg.2 hlt.le) hpow.le
    have hrounds := roundsTo_of_between hfinite h' (.inr ⟨by linarith, houtside⟩)
    refine (mul_le_mul_of_nonneg_right (habove hrounds) hpow.le).trans ?_
    rw [abs_of_nonneg (by linarith)]
    linarith

/-! ## The search -/

section Search

variable {tie : Tie} {x : Binary64} {m n : Nat} {d : Decimal}

/-- A decimal of few digits that is rounded to a number puts a point on the grid with as many
digits. If the decimal is below the order of the number, the power of ten of this order is such a
point. -/
theorem onGrid?_ne_none_of_hasDigits (tie : Tie) (hfinite : x.isFinite = true)
    (hx : x.magnitudeBits = m + 1) (hdigits : d.coefficient < 10 ^ (n + 1))
    (h : d.roundsTo x = true) : onGrid? tie x (x.magnitude.floorLogTen - n) ≠ none := by
  obtain ⟨hle, -⟩ := order_bounds hx
  have hm := x.isFinite_iff.1 hfinite
  rcases le_or_gt ((10 : ℚ) ^ x.magnitude.floorLogTen) d.value.toRat with horder | horder
  · obtain ⟨k, hk⟩ := exists_onGrid (sub_le_exponent hdigits horder)
    exact onGrid?_ne_none_of_roundsTo tie hm (roundsTo_congr hfinite hk.symm h)
  · obtain ⟨k, hk⟩ := exists_onGrid (d := ⟨1, x.magnitude.floorLogTen⟩)
      (e := x.magnitude.floorLogTen - n) (by simp)
    have hpower : (value ⟨1, x.magnitude.floorLogTen⟩).toRat = 10 ^ x.magnitude.floorLogTen := by
      rw [toRat_value, Nat.cast_one, one_mul]
    refine onGrid?_ne_none_of_roundsTo tie hm (n := k) (roundsTo_of_between hfinite h (.inl ?_))
    rw [hk, hpower]
    exact ⟨horder.le, hle⟩

/-- A decimal of few digits does not lie strictly between the neighbours of the number on the grid
with as many digits. -/
theorem outside_of_hasDigits (hx : x.magnitudeBits = m + 1) (hdigits : d.coefficient < 10 ^ (n + 1)) :
    d.value.toRat ≤
        (value ⟨stepsBelow x (x.magnitude.floorLogTen - n), x.magnitude.floorLogTen - n⟩).toRat ∨
      (value ⟨stepsBelow x (x.magnitude.floorLogTen - n) + 1, x.magnitude.floorLogTen - n⟩).toRat ≤
        d.value.toRat := by
  obtain ⟨hsteps, -⟩ := stepsBelow_order hx n
  have hmono {a b : Nat} {e : Int} (hab : a ≤ b) : (value ⟨a, e⟩).toRat ≤ (value ⟨b, e⟩).toRat := by
    rw [toRat_value, toRat_value]
    exact mul_le_mul_of_nonneg_right (by exact_mod_cast hab) (zpow_nonneg (by norm_num) e)
  rcases le_or_gt ((10 : ℚ) ^ x.magnitude.floorLogTen) d.value.toRat with horder | horder
  · obtain ⟨k, hk⟩ := exists_onGrid (sub_le_exponent hdigits horder)
    rw [← hk]
    rcases Nat.lt_or_ge (stepsBelow x (x.magnitude.floorLogTen - n)) k with hlt | hge
    · exact .inr (hmono hlt)
    · exact .inl (hmono hge)
  · refine .inl (horder.le.trans ?_)
    calc (10 : ℚ) ^ x.magnitude.floorLogTen
        = (value ⟨10 ^ n, x.magnitude.floorLogTen - n⟩).toRat := by
          rw [toRat_value, Nat.cast_pow, Nat.cast_ofNat, ← zpow_natCast, ← zpow_add₀ (by norm_num),
            add_sub_cancel]
      _ ≤ _ := hmono hsteps

/-- What is taken on a grid that adds `n` digits to the order has `n + 1` digits or fewer; if it is
the next power of ten, one digit suffices. -/
theorem hasDigits_of_onGrid (hx : x.magnitudeBits = m + 1)
    (h : onGrid? tie x (x.magnitude.floorLogTen - n) = some d) :
    HasDigits d.value.toRat (n + 1) := by
  obtain ⟨k, rfl, hk, -⟩ := onGrid?_eq_some h
  obtain ⟨-, hsteps⟩ := stepsBelow_order hx n
  have hle : k ≤ 10 ^ (n + 1) := by
    rcases hk with rfl | rfl
    · exact hsteps.le
    · exact hsteps
  rw [toRat_value]
  rcases hle.lt_or_eq with hlt | rfl
  · refine ⟨k, x.magnitude.floorLogTen - n, ?_, by push_cast; rfl⟩
    rw [Nat.abs_cast]
    exact_mod_cast hlt
  · refine ⟨1, (n + 1 : Nat) + (x.magnitude.floorLogTen - n), ?_, ?_⟩
    · rw [abs_one]
      exact one_lt_pow₀ (by norm_num) n.succ_ne_zero
    · rw [zpow_add₀ (by norm_num), zpow_natCast]
      push_cast
      ring

end Search

/-- The search finds a shortest decimal. -/
theorem shortest_isShortest (tie : Tie) {x : Binary64} (hfinite : x.isFinite = true)
    (hzero : x.isZero = false) :
    ∃ n, IsShortest (x.sign * (shortest tie x).value.toRat) n x := by
  obtain ⟨m, hx, hm⟩ := exists_succ hfinite hzero
  obtain ⟨extra, -, hsome, hnone⟩ := shortest_first tie hx hm
  obtain ⟨-, -, -, hrounds⟩ := onGrid?_eq_some hsome
  refine ⟨extra + 1, (hasDigits_of_onGrid hx hsome).sign_mul x,
    (roundsTo_iff_signed hfinite hzero).1 hrounds,
    fun r k hdigits hr => ?_, fun r hdigits hr => ?_⟩
  · obtain ⟨d, hpos, hlt, -, hd⟩ := exists_unsigned hzero hr hdigits
    obtain ⟨n, rfl⟩ : ∃ n, k = n + 1 := by
      refine Nat.exists_eq_succ_of_ne_zero ?_
      rintro rfl
      omega
    refine Nat.succ_le_succ (Nat.not_lt.1 fun hn => ?_)
    exact onGrid?_ne_none_of_hasDigits tie hfinite hx hlt hd (hnone n hn)
  · obtain ⟨d, -, hlt, rfl, hd⟩ := exists_unsigned hzero hr hdigits
    have hclosest := onGrid?_closest hfinite hsome hd (outside_of_hasDigits hx hlt)
    rw [abs_sub_eq x, abs_sub_eq x (x.sign * d.value.toRat), ← mul_assoc, ← mul_assoc,
      sign_mul_sign, one_mul, one_mul, sign_mul_value, ← toRat_magnitude]
    exact hclosest

end Decimal

end SyntaxTree
