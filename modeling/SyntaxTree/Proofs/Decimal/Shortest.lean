import SyntaxTree.Decimal.Shortest
import SyntaxTree.Proofs.Binary64.Drift

/-! # The shortest decimal rounds back

A grid that is finer than the distance between the points halfway has a point that is rounded to the
number, and one of the two neighbours of the number is such a point. Seventeen digits make the grid
fine enough, and so does the exponent of the smallest number. -/

namespace SyntaxTree

namespace Ratio

/-! ## Orders of magnitude -/

theorem lt_pow_length (n : Nat) : n < 10 ^ (Nat.toDigits 10 n).length :=
  (Nat.length_toDigits_le_iff (by decide) Nat.length_toDigits_pos).1 le_rfl

theorem pow_length_le {n : Nat} (hn : 0 < n) : 10 ^ ((Nat.toDigits 10 n).length - 1) ≤ n := by
  rcases Nat.eq_zero_or_pos ((Nat.toDigits 10 n).length - 1) with hzero | hpos
  · rwa [hzero, pow_zero]
  · by_contra hlt
    have := (Nat.length_toDigits_le_iff (by decide) hpos).2 (Nat.not_le.1 hlt)
    omega

theorem le_iff_toRat {r s : Ratio} : r ≤ s ↔ r.toRat ≤ s.toRat := by
  have hr : (0 : ℚ) < r.den := by exact_mod_cast r.den_pos
  have hs : (0 : ℚ) < s.den := by exact_mod_cast s.den_pos
  rw [le_def, toRat, toRat, div_le_div_iff₀ hr hs]
  exact_mod_cast Iff.rfl

/-- The order is the exponent of the largest power of ten that is at most the ratio. -/
theorem floorLogTen_bounds {r : Ratio} (hr : 0 < r.num) :
    (10 : ℚ) ^ r.floorLogTen ≤ r.toRat ∧ r.toRat < 10 ^ (r.floorLogTen + 1) := by
  have hden : (0 : ℚ) < r.den := by exact_mod_cast r.den_pos
  have hnum_lt : (r.num : ℚ) < 10 ^ (Nat.toDigits 10 r.num).length := by
    exact_mod_cast lt_pow_length r.num
  have hle_num : (10 : ℚ) ^ ((Nat.toDigits 10 r.num).length - 1) ≤ r.num := by
    exact_mod_cast pow_length_le hr
  have hden_lt : (r.den : ℚ) < 10 ^ (Nat.toDigits 10 r.den).length := by
    exact_mod_cast lt_pow_length r.den
  have hle_den : (10 : ℚ) ^ ((Nat.toDigits 10 r.den).length - 1) ≤ r.den := by
    exact_mod_cast pow_length_le r.den_pos
  have hlen_num : 0 < (Nat.toDigits 10 r.num).length := Nat.length_toDigits_pos
  have hlen_den : 0 < (Nat.toDigits 10 r.den).length := Nat.length_toDigits_pos
  unfold floorLogTen
  generalize (Nat.toDigits 10 r.num).length = m at *
  generalize (Nat.toDigits 10 r.den).length = n at *
  have hguess : (ofNat 1).timesPowTen (m - n : Int) ≤ r ↔ (10 : ℚ) ^ (m - n : Int) ≤ r.toRat := by
    rw [le_iff_toRat, toRat_timesPowTen, toRat_ofNat, Nat.cast_one, one_mul]
  have hupper : r.toRat < 10 ^ (m - n + 1 : Int) := by
    rw [toRat, div_lt_iff₀ hden]
    calc (r.num : ℚ) < 10 ^ m := hnum_lt
      _ = 10 ^ (m - n + 1 : Int) * 10 ^ (n - 1) := by
          rw [← zpow_natCast, ← zpow_natCast, ← zpow_add₀ (by norm_num)]
          exact congrArg ((10 : ℚ) ^ ·) (by omega)
      _ ≤ 10 ^ (m - n + 1 : Int) * r.den := mul_le_mul_of_nonneg_left hle_den (zpow_nonneg (by norm_num) _)
  have hlower : 10 ^ (m - n - 1 : Int) ≤ r.toRat := by
    rw [toRat, le_div_iff₀ hden]
    calc (10 : ℚ) ^ (m - n - 1 : Int) * r.den
        ≤ 10 ^ (m - n - 1 : Int) * 10 ^ n := 
          mul_le_mul_of_nonneg_left hden_lt.le (zpow_nonneg (by norm_num) _)
      _ = 10 ^ (m - 1) := by
          rw [← zpow_natCast, ← zpow_natCast, ← zpow_add₀ (by norm_num)]
          exact congrArg ((10 : ℚ) ^ ·) (by omega)
      _ ≤ r.num := hle_num
  simp only [hguess]
  split
  · rename_i h
    exact ⟨h, hupper⟩
  · rename_i h
    exact ⟨hlower, by rw [sub_add_cancel]; exact not_le.1 h⟩

end Ratio

namespace Decimal

open Binary64

theorem toRat_value (d : Decimal) : d.value.toRat = d.coefficient * 10 ^ d.exponent := by
  rw [value, Ratio.toRat_timesPowTen, Ratio.toRat_ofNat]

theorem roundsTo_iff {d : Decimal} {x : Binary64} (hx : x.magnitudeBits < 2047 * exponentWeight) :
    d.roundsTo x = true ↔ nearestMagnitude d.value = x.magnitudeBits := by
  rw [roundsTo, beq_iff_eq]
  constructor
  · intro h
    rw [nearestMagnitude_eq_of_lt (h ▸ hx), h]
  · intro h
    rw [roundMagnitude_eq_of_lt (h ▸ hx), h]

/-! ## Grids -/

/-- The number below `x` on the grid of multiples of `10 ^ e`, counted in steps of the grid. -/
def stepsBelow (x : Binary64) (e : Int) : Nat := (x.magnitude.timesPowTen (-e)).floor

section Grid

variable {tie : Tie} {x : Binary64} {e : Int} {m : Nat}

theorem stepsBelow_bounds (x : Binary64) (e : Int) :
    (stepsBelow x e : ℚ) ≤ x.magnitude.toRat * 10 ^ (-e) ∧
      x.magnitude.toRat * 10 ^ (-e) < stepsBelow x e + 1 := by
  have h := Ratio.floor_bounds (x.magnitude.timesPowTen (-e))
  rwa [Ratio.toRat_timesPowTen] at h

/-- The number lies between its two neighbours on the grid. -/
theorem position_between (x : Binary64) (e : Int) :
    position (value ⟨stepsBelow x e, e⟩) ≤ position x.magnitude ∧
      position x.magnitude < position (value ⟨stepsBelow x e + 1, e⟩) := by
  have hunits : (0 : ℚ) < unitsInOne := by exact_mod_cast unitsInOne_pos
  have hpow : (0 : ℚ) < 10 ^ e := zpow_pos (by norm_num) e
  obtain ⟨hle, hlt⟩ := stepsBelow_bounds x e
  rw [zpow_neg, ← div_eq_mul_inv, le_div_iff₀ hpow] at hle
  rw [zpow_neg, ← div_eq_mul_inv, div_lt_iff₀ hpow] at hlt
  rw [position, position, position, toRat_value, toRat_value, Nat.cast_add, Nat.cast_one]
  exact ⟨mul_le_mul_of_nonneg_right hle hunits.le, mul_lt_mul_of_pos_right hlt hunits⟩

theorem pick_cases (tie : Tie) (scaled : Ratio) (below above : Decimal) (b a : Bool) :
    (b = true ∧ pick tie scaled below above b a = some below) ∨
      (a = true ∧ pick tie scaled below above b a = some above) ∨
        (b = false ∧ a = false ∧ pick tie scaled below above b a = none) := by
  cases b with
  | false =>
      cases a with
      | false => exact .inr (.inr ⟨rfl, rfl, rfl⟩)
      | true => exact .inr (.inl ⟨rfl, rfl⟩)
  | true =>
      cases a with
      | false => exact .inl ⟨rfl, rfl⟩
      | true =>
          dsimp only [pick]
          split
          · exact .inl ⟨rfl, rfl⟩
          · split
            · exact .inr (.inl ⟨rfl, rfl⟩)
            · split
              · exact .inl ⟨rfl, rfl⟩
              · exact .inr (.inl ⟨rfl, rfl⟩)

/-- One of the neighbours is taken, unless neither rounds to the number. -/
theorem onGrid?_cases (tie : Tie) (x : Binary64) (e : Int) :
    (∃ n, (n = stepsBelow x e ∨ n = stepsBelow x e + 1) ∧ roundsTo ⟨n, e⟩ x = true ∧
      onGrid? tie x e = some ⟨n, e⟩) ∨
    roundsTo ⟨stepsBelow x e, e⟩ x = false ∧ roundsTo ⟨stepsBelow x e + 1, e⟩ x = false ∧
      onGrid? tie x e = none := by
  obtain ⟨hbelow, h⟩ | ⟨habove, h⟩ | ⟨hbelow, habove, h⟩ :=
    pick_cases tie (x.magnitude.timesPowTen (-e)) ⟨stepsBelow x e, e⟩ ⟨stepsBelow x e + 1, e⟩
      (roundsTo ⟨stepsBelow x e, e⟩ x) (roundsTo ⟨stepsBelow x e + 1, e⟩ x)
  · exact .inl ⟨_, .inl rfl, hbelow, h⟩
  · exact .inl ⟨_, .inr rfl, habove, h⟩
  · exact .inr ⟨hbelow, habove, h⟩

theorem onGrid?_eq_some {d : Decimal} (h : onGrid? tie x e = some d) :
    ∃ n, d = ⟨n, e⟩ ∧ (n = stepsBelow x e ∨ n = stepsBelow x e + 1) ∧ d.roundsTo x = true := by
  obtain ⟨n, hn, hrounds, hsome⟩ | ⟨-, -, hnone⟩ := onGrid?_cases tie x e
  · obtain rfl := Option.some.inj (hsome.symm.trans h)
    exact ⟨n, rfl, hn, hrounds⟩
  · rw [hnone] at h
    exact absurd h (by simp)

/-- A grid that is finer than the gap below the number has a point that rounds to it. -/
theorem onGrid?_ne_none (tie : Tie) (hx : x.magnitudeBits = m + 1) (hfinite : m + 1 < 2047 * exponentWeight)
    (hgrid : 10 ^ e * unitsInOne < (gap m : ℚ)) : onGrid? tie x e ≠ none := by
  have hposition : position x.magnitude = unitsOf (m + 1) := by rw [position_magnitude, hx]
  obtain ⟨hbelow, habove⟩ := position_between x e
  rw [hposition] at hbelow habove
  have hstep : position (value ⟨stepsBelow x e + 1, e⟩) =
      position (value ⟨stepsBelow x e, e⟩) + 10 ^ e * unitsInOne := by
    simp only [position, toRat_value, Nat.cast_add, Nat.cast_one]
    ring
  have hwidth : (gap m : ℚ) ≤ halfway (m + 1) - halfway m := by
    have hgap : (gap m : ℚ) ≤ gap (m + 1) := by exact_mod_cast gap_mono (Nat.le_add_right m 1)
    rw [halfway_eq, halfway_eq, unitsOf_succ, Nat.cast_add]
    linarith
  have hrounds {n : Nat} (hlower : halfway m < position (value ⟨n, e⟩))
      (hupper : position (value ⟨n, e⟩) < halfway (m + 1)) : roundsTo ⟨n, e⟩ x = true := by
    rw [roundsTo_iff (by omega), hx]
    exact Nat.le_antisymm (nearestMagnitude_le hupper) (lt_nearestMagnitude hlower)
  obtain ⟨n, -, -, hsome⟩ | ⟨hnot, hnot', -⟩ := onGrid?_cases tie x e
  · simp [hsome]
  · by_cases hlower : halfway m < position (value ⟨stepsBelow x e, e⟩)
    · have := hrounds hlower (hbelow.trans_lt (unitsOf_lt_halfway _))
      simp [this] at hnot
    · have := hrounds ((halfway_lt_unitsOf m).trans habove) (by linarith)
      simp [this] at hnot'

/-- If any point of a grid rounds to the number, so does one of its neighbours there. -/
theorem onGrid?_ne_none_of_roundsTo (tie : Tie) (hfinite : x.magnitudeBits < 2047 * exponentWeight)
    {n : Nat} (h : roundsTo ⟨n, e⟩ x = true) : onGrid? tie x e ≠ none := by
  have hself : nearestMagnitude x.magnitude = x.magnitudeBits :=
    nearestMagnitude_of_units (position_magnitude x)
  have hmono {a b : Nat} (hab : a ≤ b) :
      position (value ⟨a, e⟩) ≤ position (value ⟨b, e⟩) := by
    have hunits : (0 : ℚ) ≤ unitsInOne := Nat.cast_nonneg _
    have hpow : (0 : ℚ) ≤ 10 ^ e := zpow_nonneg (by norm_num) e
    have hab : (a : ℚ) ≤ b := by exact_mod_cast hab
    rw [position, position, toRat_value, toRat_value]
    exact mul_le_mul_of_nonneg_right (mul_le_mul_of_nonneg_right hab hpow) hunits
  obtain ⟨hbelow, habove⟩ := position_between x e
  rw [roundsTo_iff hfinite] at h
  obtain ⟨k, -, -, hsome⟩ | ⟨hnot, hnot', -⟩ := onGrid?_cases tie x e
  · simp [hsome]
  · rcases Nat.lt_or_ge (stepsBelow x e) n with hn | hn
    · have hrounds : roundsTo ⟨stepsBelow x e + 1, e⟩ x = true := by
        rw [roundsTo_iff hfinite]
        refine Nat.le_antisymm ?_ ?_
        · exact (nearestMagnitude_mono (hmono hn)).trans h.le
        · exact hself.ge.trans (nearestMagnitude_mono habove.le)
      simp [hrounds] at hnot'
    · have hrounds : roundsTo ⟨stepsBelow x e, e⟩ x = true := by
        rw [roundsTo_iff hfinite]
        refine Nat.le_antisymm ?_ ?_
        · exact (nearestMagnitude_mono hbelow).trans hself.le
        · exact h.ge.trans (nearestMagnitude_mono (hmono hn))
      simp [hrounds] at hnot

/-- The points of a grid are points of every finer one. -/
theorem onGrid?_eq_none_of_finer {e' : Int} (hle : e ≤ e')
    (hfinite : x.magnitudeBits < 2047 * exponentWeight) (h : onGrid? tie x e = none) :
    onGrid? tie x e' = none := by
  by_contra hsome
  obtain ⟨d, hd⟩ := Option.ne_none_iff_exists'.1 hsome
  obtain ⟨n, rfl, -, hrounds⟩ := onGrid?_eq_some hd
  obtain ⟨k, hk⟩ := Int.eq_ofNat_of_zero_le (Int.sub_nonneg_of_le hle)
  have hvalue : (value ⟨n * 10 ^ k, e⟩).toRat = (value ⟨n, e'⟩).toRat := by
    obtain rfl : e' = k + e := by omega
    rw [toRat_value, toRat_value, zpow_add₀ (by norm_num), zpow_natCast]
    push_cast
    ring
  rw [roundsTo_iff hfinite, ← nearestMagnitude_congr hvalue, ← roundsTo_iff hfinite] at hrounds
  exact onGrid?_ne_none_of_roundsTo tie hfinite hrounds h

end Grid

/-! ## The search -/

/-- Every number is finite and nonzero here: its magnitude follows another one. -/
theorem exists_succ {x : Binary64} (hfinite : x.isFinite = true) (hzero : x.isZero = false) :
    ∃ m, x.magnitudeBits = m + 1 ∧ m + 1 < 2047 * exponentWeight := by
  rw [isZero, beq_eq_false_iff_ne] at hzero
  rw [isFinite, decide_eq_true_eq, exponentField, Nat.div_lt_iff_lt_mul exponentWeight_pos]
    at hfinite
  exact ⟨x.magnitudeBits - 1, by omega, by omega⟩

section Search

variable {x : Binary64} {m : Nat}

theorem order_bounds (hx : x.magnitudeBits = m + 1) :
    (10 : ℚ) ^ x.magnitude.floorLogTen ≤ x.magnitude.toRat ∧
      x.magnitude.toRat < 10 ^ (x.magnitude.floorLogTen + 1) := by
  refine Ratio.floorLogTen_bounds ?_
  rw [magnitude, units_eq, hx, unitsOf_succ]
  exact Nat.add_pos_right _ (gap_pos m)

/-- A grid that adds `n` digits to the order counts the number with `n + 1` digits. -/
theorem stepsBelow_order (hx : x.magnitudeBits = m + 1) (n : Nat) :
    10 ^ n ≤ stepsBelow x (x.magnitude.floorLogTen - n) ∧
      stepsBelow x (x.magnitude.floorLogTen - n) < 10 ^ (n + 1) := by
  obtain ⟨hle, hlt⟩ := order_bounds hx
  obtain ⟨hbelow, habove⟩ := stepsBelow_bounds x (x.magnitude.floorLogTen - n)
  generalize x.magnitude.floorLogTen = order at *
  have hpow : (0 : ℚ) < 10 ^ (-(order - n : Int)) := zpow_pos (by norm_num) _
  have hlower : (10 : ℚ) ^ n ≤ x.magnitude.toRat * 10 ^ (-(order - n : Int)) := by
    calc (10 : ℚ) ^ n = 10 ^ order * 10 ^ (-(order - n : Int)) := by
          rw [← zpow_natCast, ← zpow_add₀ (by norm_num)]
          exact congrArg ((10 : ℚ) ^ ·) (by omega)
      _ ≤ x.magnitude.toRat * 10 ^ (-(order - n : Int)) :=
          mul_le_mul_of_nonneg_right hle hpow.le
  have hupper : x.magnitude.toRat * 10 ^ (-(order - n : Int)) < 10 ^ (n + 1) := by
    calc x.magnitude.toRat * 10 ^ (-(order - n : Int))
        < 10 ^ (order + 1) * 10 ^ (-(order - n : Int)) := mul_lt_mul_of_pos_right hlt hpow
      _ = 10 ^ (n + 1) := by
          rw [← zpow_natCast, ← zpow_add₀ (by norm_num)]
          exact congrArg ((10 : ℚ) ^ ·) (by push_cast; omega)
  constructor
  · exact Nat.lt_succ_iff.1 (by exact_mod_cast hlower.trans_lt habove)
  · exact_mod_cast hbelow.trans_lt hupper

/-- Below this exponent every grid is finer than the smallest number. -/
def finestExponent : Int := -324

theorem finestExponent_lt : (10 : ℚ) ^ finestExponent * unitsInOne < 1 := by
  have h : unitsInOne < 10 ^ finestExponent.natAbs := by decide +kernel
  have hpow : (10 : ℚ) ^ finestExponent = (10 ^ finestExponent.natAbs)⁻¹ := by
    rw [← zpow_natCast, ← zpow_neg]
    rfl
  rw [hpow, inv_mul_lt_iff₀ (by positivity), mul_one]
  exact_mod_cast h

theorem finestExponent_le_order (hx : x.magnitudeBits = m + 1) :
    finestExponent ≤ x.magnitude.floorLogTen := by
  have hunits : (0 : ℚ) < unitsInOne := by exact_mod_cast unitsInOne_pos
  have hposition : (1 : ℚ) ≤ position x.magnitude := by
    have := gap_pos m
    rw [position_magnitude, hx, unitsOf_succ]
    exact_mod_cast (by omega : 1 ≤ unitsOf m + gap m)
  have hlt : (10 : ℚ) ^ finestExponent < 10 ^ (x.magnitude.floorLogTen + 1) := by
    refine lt_trans ?_ (order_bounds hx).2
    refine lt_of_mul_lt_mul_right ?_ hunits.le
    exact finestExponent_lt.trans_le hposition
  have := (zpow_lt_zpow_iff_right₀ (by norm_num)).1 hlt
  omega

/-- Seventeen digits make the grid fine enough. -/
theorem seventeenth_lt_gap (hx : x.magnitudeBits = m + 1) :
    (10 : ℚ) ^ (x.magnitude.floorLogTen - 16) * unitsInOne < gap m := by
  have hgap : (0 : ℚ) < gap m := by exact_mod_cast gap_pos m
  have hposition : position x.magnitude ≤ 2 * exponentWeight * gap m := by
    rw [position_magnitude, hx, unitsOf_succ]
    exact_mod_cast unitsOf_add_gap_le m
  rw [zpow_sub₀ (by norm_num), div_mul_eq_mul_div, div_lt_iff₀ (by norm_num)]
  calc (10 : ℚ) ^ x.magnitude.floorLogTen * unitsInOne
      ≤ x.magnitude.toRat * unitsInOne :=
        mul_le_mul_of_nonneg_right (order_bounds hx).1 (Nat.cast_nonneg _)
    _ ≤ 2 * exponentWeight * gap m := hposition
    _ < gap m * 10 ^ (16 : Int) := by
        rw [mul_comm]
        refine mul_lt_mul_of_pos_left ?_ hgap
        norm_num [cast_exponentWeight]

theorem finest_lt_gap (m : Nat) : (10 : ℚ) ^ finestExponent * unitsInOne < gap m :=
  finestExponent_lt.trans_le (by exact_mod_cast gap_pos m)

/-- A search through the numbers below `n` ends at the first one that has a result. -/
theorem findSome?_range {α : Type} {f : Nat → Option α} {n : Nat} {a : α}
    (h : (List.range n).findSome? f = some a) : ∃ k < n, f k = some a ∧ ∀ j < k, f j = none := by
  induction n with
  | zero => simp at h
  | succ n ih =>
      rw [List.range_succ, List.findSome?_append, Option.or_eq_some_iff] at h
      obtain h | ⟨hnone, h⟩ := h
      · obtain ⟨k, hk, hsome⟩ := ih h
        exact ⟨k, Nat.lt_succ_of_lt hk, hsome⟩
      · refine ⟨n, Nat.lt_succ_self n, by simpa using h, fun j hj => ?_⟩
        exact List.findSome?_eq_none_iff.1 hnone j (List.mem_range.2 hj)

/-- The search ends on the coarsest grid of one to seventeen digits that has a point which rounds to
the number. -/
theorem shortest_first (tie : Tie) (hx : x.magnitudeBits = m + 1)
    (hfinite : m + 1 < 2047 * exponentWeight) :
    ∃ extra ≤ 16,
      onGrid? tie x (x.magnitude.floorLogTen - (extra : Nat)) = some (shortest tie x) ∧
        ∀ j < extra, onGrid? tie x (x.magnitude.floorLogTen - (j : Nat)) = none := by
  rw [shortest]
  cases hsearch : (List.range 16).findSome? fun (extra : Nat) =>
      onGrid? tie x (x.magnitude.floorLogTen - extra) with
  | some d =>
      obtain ⟨k, hk, hsome, hnone⟩ := findSome?_range hsearch
      exact ⟨k, by omega, hsome, hnone⟩
  | none =>
      have hnone := List.findSome?_eq_none_iff.1 hsearch
      obtain ⟨d, hd⟩ := Option.ne_none_iff_exists'.1
        (onGrid?_ne_none tie hx hfinite (seventeenth_lt_gap hx))
      refine ⟨16, le_rfl, ?_, fun j hj => hnone j (List.mem_range.2 hj)⟩
      simp [hd]

/-- The search ends on a grid of one to seventeen digits that is not below the finest exponent. -/
theorem shortest_onGrid (tie : Tie) (hx : x.magnitudeBits = m + 1)
    (hfinite : m + 1 < 2047 * exponentWeight) :
    ∃ extra ≤ 16, finestExponent ≤ x.magnitude.floorLogTen - (extra : Nat) ∧
      onGrid? tie x (x.magnitude.floorLogTen - (extra : Nat)) = some (shortest tie x) := by
  have horder := finestExponent_le_order hx
  obtain ⟨extra, hextra, hsome, hnone⟩ := shortest_first tie hx hfinite
  refine ⟨extra, hextra, ?_, hsome⟩
  -- A search that has failed on every coarser grid has not passed the finest exponent.
  by_contra hlt
  obtain ⟨j, hj⟩ := Int.eq_ofNat_of_zero_le (Int.sub_nonneg_of_le horder)
  have hfinest : x.magnitude.floorLogTen - j = finestExponent := by omega
  have hnone := hnone j (by omega)
  rw [hfinest] at hnone
  exact onGrid?_ne_none tie hx hfinite (finest_lt_gap m) hnone

/-- The shortest decimal is on a grid that has a point which rounds to the number, if the next
coarser grid has none. -/
theorem shortest_eq_of_onGrid {tie : Tie} {extra : Nat} {d : Decimal} (hextra : extra ≤ 16)
    (hfinite : x.magnitudeBits < 2047 * exponentWeight)
    (hnone : onGrid? tie x (x.magnitude.floorLogTen - extra + 1) = none)
    (hsome : onGrid? tie x (x.magnitude.floorLogTen - extra) = some d) : shortest tie x = d := by
  have hcoarser {j : Nat} (hj : j < extra) :
      onGrid? tie x (x.magnitude.floorLogTen - (j : Nat)) = none :=
    onGrid?_eq_none_of_finer (by omega) hfinite hnone
  rw [shortest]
  cases hsearch : (List.range 16).findSome? fun (extra : Nat) =>
      onGrid? tie x (x.magnitude.floorLogTen - extra) with
  | some d' =>
      obtain ⟨k, -, hk, hbefore⟩ := findSome?_range hsearch
      rcases Nat.lt_trichotomy k extra with hlt | rfl | hgt
      · exact absurd (hk.symm.trans (hcoarser hlt)) (by simp)
      · exact Option.some.inj (hk.symm.trans hsome)
      · exact absurd (hsome.symm.trans (hbefore extra hgt)) (by simp)
  | none =>
      obtain rfl : extra = 16 := by
        have hall := List.findSome?_eq_none_iff.1 hsearch
        by_contra hne
        have := hall extra (List.mem_range.2 (by omega))
        exact absurd (hsome.symm.trans this) (by simp)
      have hsome : onGrid? tie x (x.magnitude.floorLogTen - 16) = some d := hsome
      simp [hsome]

end Search

/-- The shortest decimal of a finite nonzero number rounds to it, has at most seventeen digits and
is not below the finest exponent. -/
theorem shortest_spec (tie : Tie) {x : Binary64} (hfinite : x.isFinite = true)
    (hzero : x.isZero = false) :
    nearestMagnitude (shortest tie x).value = x.magnitudeBits ∧
      0 < (shortest tie x).coefficient ∧ (shortest tie x).coefficient ≤ 10 ^ 17 ∧
        finestExponent ≤ (shortest tie x).exponent := by
  obtain ⟨m, hx, hm⟩ := exists_succ hfinite hzero
  obtain ⟨extra, hextra, hexponent, hsome⟩ := shortest_onGrid tie hx hm
  obtain ⟨n, hd, hn, hrounds⟩ := onGrid?_eq_some hsome
  obtain ⟨hlower, hupper⟩ := stepsBelow_order hx extra
  have hpos : 0 < stepsBelow x (x.magnitude.floorLogTen - extra) :=
    (Nat.pow_pos (by decide)).trans_le hlower
  have hle : stepsBelow x (x.magnitude.floorLogTen - extra) < 10 ^ 17 :=
    hupper.trans_le (Nat.pow_le_pow_right (by decide) (Nat.succ_le_succ hextra))
  rw [roundsTo_iff (hx ▸ hm)] at hrounds
  rw [hd] at hrounds ⊢
  refine ⟨hrounds, ?_, ?_, hexponent⟩
  · rcases hn with rfl | rfl
    · exact hpos
    · exact Nat.succ_pos _
  · rcases hn with rfl | rfl
    · exact hle.le
    · exact hle

end Decimal

end SyntaxTree
