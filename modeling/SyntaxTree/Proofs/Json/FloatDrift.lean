import SyntaxTree.Proofs.Json.FloatLiteral
import SyntaxTree.Proofs.Json.RoundTrip
import SyntaxTree.Proofs.Json.Scaling

/-! # Finite numbers through JSON

The shortest digits of a number identify it under correct rounding, but the reader rounds the digits
and the power of ten before their product. What it gives is at most two magnitudes away, and it is
the number itself when the digits and the power need no rounding. -/

namespace SyntaxTree

open Binary64

namespace Json

open Grammar
open Text (Cursor)

theorem literalText_unique {text : List Char} {l l' : Literal} (h : LiteralText text l)
    (h' : LiteralText text l') : l = l' := by
  have hpass : (⟨text, 0⟩ : Cursor).Passes text ⟨[], 0 + Text.byteLength text⟩ := ⟨by simp, rfl⟩
  have hend : Delimited ⟨[], 0 + Text.byteLength text⟩ := fun x hx => by simp at hx
  have hreads : (literal .invalidNumber).Reads ⟨text, 0⟩ l _ := literal_complete h hpass hend
  exact (hreads.unique (literal_complete h' hpass hend)).1

/-- A float node is read as the number that its literal is read as. -/
theorem ofJson_float {x y : Binary64} (h : readDocument float (floatValue x) = .ok y) :
    Expr.ofJson (Expr.toJson (.float x)) = .ok (.float y) := by
  obtain ⟨before, p, after, hp, hb, ha, htext⟩ := (readDocument_iff float_accepts).1 h
  have hnode : ExprText (Expr.toJson (.float x)).toList (.float y) :=
    .float (single_text (by decide) hp hb ha) htext
  exact (readDocument_iff fun _ => expr_accepts).2
    ⟨[], _, [], by simp, blank_nil, blank_nil, hnode⟩

/-! ## The edges of the range -/

theorem readsBack_zero : ∀ negative, ReadsBack (.zero negative) := by
  decide +kernel

theorem unitsOf_mono {m n : Nat} (h : m ≤ n) : unitsOf m ≤ unitsOf n := by
  induction h with
  | refl => exact le_rfl
  | step _ ih => exact ih.trans (by rw [Nat.succ_eq_add_one, unitsOf_succ]; omega)

/-- What rounds to a finite number is below this power of ten. -/
theorem toRat_lt_of_finite {r : Ratio} (h : nearestMagnitude r < 2047 * exponentWeight) :
    r.toRat < 10 ^ (largestPower + 1) := by
  have hunits : (0 : ℚ) < unitsInOne := by exact_mod_cast unitsInOne_pos
  have hbeyond : unitsOf (2047 * exponentWeight) = exponentWeight * 2 ^ 2046 := by
    rw [show 2047 * exponentWeight = 2046 * exponentWeight + exponentWeight by decide]
    exact unitsOf_shifted (by decide) (.inr le_rfl)
  have hposition : position r < 10 ^ (largestPower + 1) * unitsInOne := by
    calc position r ≤ halfway (nearestMagnitude r) := position_le_halfway r
      _ < unitsOf (nearestMagnitude r + 1) := halfway_lt_unitsOf _
      _ ≤ unitsOf (2047 * exponentWeight) := by exact_mod_cast unitsOf_mono h
      _ ≤ 10 ^ (largestPower + 1) * unitsInOne := by
          rw [hbeyond]
          exact_mod_cast largestPower_bounds.2.le
  exact lt_of_mul_lt_mul_right hposition hunits.le

/-! ## Numbers that are not zero -/

namespace Literal

/-- The digits are a significand of the format times a power of two, and the power of ten is an
exact number: the reader rounds their product only. -/
def IsExact (l : Literal) : Prop :=
  l.power.natAbs ≤ 22 ∧ ∃ a j, a ≤ 2 * exponentWeight ∧ l.digits = a * 2 ^ j

theorem signed_ofParts (l : Literal) {m : Nat} (hm : m < signWeight) :
    l.signed (ofParts false m) = ofParts l.negative m := by
  unfold signed
  cases l.negative with
  | true => rw [if_pos rfl, neg, isNegative_ofParts hm, magnitudeBits_ofParts hm]; rfl
  | false => rfl

end Literal

theorem floatValue_toList {x : Binary64} (hfinite : x.isFinite = true) (hzero : x.isZero = false) :
    (floatValue x).toList = (if x.isNegative then ['-'] else []) ++
      Decimal.write numberLayout (Decimal.shortest numberLayout.tie x) := by
  have hfield : x.exponentField ≠ 2047 := by
    simp only [isFinite, decide_eq_true_eq] at hfinite
    omega
  have hsign : (if x.isNegative then "-" else "").toList = if x.isNegative then ['-'] else [] := by
    cases x.isNegative <;> rfl
  rw [floatValue, if_neg (by simp [isNaN, hfield]), if_neg (by simp [isInfinite, hfield]),
    toShortest, hzero, if_neg Bool.false_ne_true, String.toList_append, String.toList_ofList, hsign]

/-- The largest two magnitudes, with the digits of their shortest decimals. -/
def largestTwo : List (Nat × Nat) :=
  [(2047 * exponentWeight - 2, 17976931348623155), (2047 * exponentWeight - 1, 17976931348623157)]

/-- The largest two numbers of each sign are both read as the largest one. -/
theorem read_largest {x : Binary64} (hedge : 2047 * exponentWeight - 2 ≤ x.magnitudeBits)
    (hlt : x.magnitudeBits < 2047 * exponentWeight) : readDocument float (floatValue x) =
      .ok (ofParts x.isNegative (2047 * exponentWeight - 1)) := by
  have hcomputed (negative : Bool) : ∀ p ∈ largestTwo, (ofParts negative p.1).isFinite = true ∧
      (ofParts negative p.1).isZero = false ∧
      (ofParts negative p.1).magnitude.floorLogTen = 308 ∧
      Decimal.onGrid? numberLayout.tie (ofParts negative p.1) 293 = none ∧
      Decimal.onGrid? numberLayout.tie (ofParts negative p.1) 292 = some ⟨p.2, 292⟩ ∧
      readDocument float (String.ofList ((if negative then ['-'] else []) ++
          Decimal.write numberLayout ⟨p.2, 292⟩)) =
        .ok (ofParts negative (2047 * exponentWeight - 1)) := by
    cases negative <;> decide +kernel
  obtain ⟨p, hp, hmagnitude⟩ : ∃ p ∈ largestTwo, p.1 = x.magnitudeBits := by
    rcases (by omega : x.magnitudeBits = 2047 * exponentWeight - 2 ∨
      x.magnitudeBits = 2047 * exponentWeight - 1) with hlast | hlast
    · exact ⟨_, List.mem_cons_self, hlast.symm⟩
    · exact ⟨_, List.mem_cons_of_mem _ List.mem_cons_self, hlast.symm⟩
  have h := hcomputed x.isNegative p hp
  rw [hmagnitude, ofParts_eta] at h
  obtain ⟨hfinite, hzero, horder, hnone, hsome, hread⟩ := h
  -- sixteen digits do not suffice, and so no fewer need be tried
  have hshortest : Decimal.shortest numberLayout.tie x = ⟨p.2, 292⟩ := by
    refine Decimal.shortest_eq_of_onGrid (Nat.le_refl 16) hlt ?_ ?_
    · rw [horder]
      exact hnone
    · rw [horder]
      exact hsome
  have htext := floatValue_toList hfinite hzero
  rw [hshortest] at htext
  rwa [← htext, String.ofList_toList] at hread

section Magnitude

variable {x : Binary64} {d : Decimal}

theorem exponent_le (hpos : 0 < d.coefficient) (hlt : d.value.toRat < 10 ^ (largestPower + 1)) :
    d.exponent ≤ largestPower := by
  have hpow : (0 : ℚ) < 10 ^ d.exponent := zpow_pos (by norm_num) _
  have hlt : (10 : ℚ) ^ d.exponent < 10 ^ ((largestPower + 1 : Nat) : Int) := by
    rw [zpow_natCast]
    refine lt_of_le_of_lt ?_ hlt
    rw [Decimal.toRat_value]
    exact le_mul_of_one_le_left hpow.le (by exact_mod_cast hpos)
  have := (zpow_lt_zpow_iff_right₀ (by norm_num)).1 hlt
  omega

theorem order_natAbs_le (hd : d.coefficient ≤ 10 ^ 17)
    (hexponent : Decimal.finestExponent ≤ d.exponent) (hle : d.exponent ≤ largestPower) :
    d.order.natAbs ≤ 1000 := by
  have hlength : (Nat.toDigits 10 d.coefficient).length ≤ 18 :=
    (Nat.length_toDigits_le_iff (by decide) (by decide)).2 (hd.trans_lt (by decide))
  have hpos : 0 < (Nat.toDigits 10 d.coefficient).length := Nat.length_toDigits_pos
  simp only [Decimal.order, Decimal.finestExponent, largestPower] at *
  omega

/-- What is written for a number that is not zero: its shortest decimal, as a literal. -/
theorem exists_literal (hfinite : x.isFinite = true) (hzero : x.isZero = false) :
    ∃ l d, d = Decimal.shortest numberLayout.tie x ∧ LiteralText (floatValue x).toList l ∧
      l.negative = x.isNegative ∧ Denotes l d ∧ 0 < d.coefficient ∧
      Decimal.finestExponent ≤ d.exponent ∧ d.value.toRat < 10 ^ (largestPower + 1) ∧
      d.order.natAbs ≤ 1000 := by
  obtain ⟨hrounds, hpos, hle, hexponent⟩ :=
    Decimal.shortest_spec numberLayout.tie hfinite hzero
  have htext := floatValue_toList hfinite hzero
  generalize Decimal.shortest numberLayout.tie x = d at *
  obtain ⟨l, hnegative, hl, hliteral⟩ := write_literal x.isNegative hpos hle
  rw [← htext] at hliteral
  obtain ⟨m, hx, hm⟩ := Decimal.exists_succ hfinite hzero
  have hvalue := toRat_lt_of_finite (by rw [hrounds, hx]; exact hm)
  exact ⟨l, d, rfl, hliteral, hnegative, hl, hpos, hexponent, hvalue,
    order_natAbs_le hle hexponent (exponent_le hpos hvalue)⟩

/-- The text of a number is a literal, whose value is rounded last from a ratio within two roundings
of the shortest decimal. -/
theorem exists_lastRounding (hfinite : x.isFinite = true) (hzero : x.isZero = false) :
    ∃ (l : Literal) (r : Ratio), LiteralText (floatValue x).toList l ∧
      Near (oneRounding ^ 2) r.toRat (Decimal.shortest numberLayout.tie x).value.toRat ∧
      (l.IsExact → r.toRat = (Decimal.shortest numberLayout.tie x).value.toRat) ∧
      (nearestMagnitude r < 2047 * exponentWeight →
        readDocument float (floatValue x) = .ok (ofParts x.isNegative (nearestMagnitude r))) := by
  obtain ⟨l, d, rfl, hliteral, hnegative, hl, hpos, hexponent, hvalue, horder⟩ :=
    exists_literal hfinite hzero
  generalize Decimal.shortest numberLayout.tie x = d at *
  have hdigits : 0 < l.digits := by
    refine Nat.pos_of_ne_zero fun hnone => ?_
    have hpositive : (0 : ℚ) < d.value.toRat := by
      rw [Decimal.toRat_value]
      exact mul_pos (by exact_mod_cast hpos) (zpow_pos (by norm_num) _)
    rw [← hl.value_eq, hnone, Nat.cast_zero, zero_mul] at hpositive
    exact lt_irrefl _ hpositive
  have hpower : l.power ≤ largestPower :=
    exponent_le (d := ⟨l.digits, l.power⟩) hdigits
      (by rwa [Decimal.toRat_value, hl.value_eq])
  have hpower' : -324 ≤ l.power := by
    have hlimit : Decimal.finestExponent = -324 := rfl
    rcases hl.power_le with h | h <;> omega
  obtain ⟨r, hnear, hexact, hscale⟩ := scaleBy_near hdigits hl.digits_le hpower' hpower
  rw [hl.value_eq] at hnear hexact
  refine ⟨l, r, hliteral, hnear, fun ⟨hsmall, a, j, ha, hj⟩ => ?_, fun h => ?_⟩
  · exact hexact hsmall (ofNat_exact ha hj (le_largestPower hl.digits_le))
  · have hread := Literal.value_eq_float (hl.isShort (horder.trans_lt (by decide))) (hscale h)
    have hlt : nearestMagnitude r < signWeight := h.trans (by decide)
    rw [ofRatio, roundMagnitude_eq_of_lt h, Literal.signed_ofParts l hlt, hnegative] at hread
    exact (readDocument_iff float_accepts).2
      ⟨[], _, [], by simp, blank_nil, blank_nil, .number hliteral hread⟩

end Magnitude

/-! ## The round trip -/

theorem isFinite_ofParts (negative : Bool) {m : Nat} (hm : m < 2047 * exponentWeight) :
    (ofParts negative m).isFinite = true := by
  rw [isFinite, decide_eq_true_eq, exponentField, magnitudeBits_ofParts (hm.trans (by decide))]
  exact Nat.div_lt_of_lt_mul (by rwa [Nat.mul_comm])

/-- A finite number comes back as a finite number of the same sign that is at most two magnitudes
away, and as itself when neither the digits of its literal nor their power of ten need rounding. -/
theorem ofJson_toJson_float (x : Binary64) (hfinite : x.isFinite = true) :
    ∃ y : Binary64, Expr.ofJson (Expr.toJson (.float x)) = .ok (.float y) ∧
      y.isFinite = true ∧ y.isNegative = x.isNegative ∧
      x.magnitudeBits ≤ y.magnitudeBits + 2 ∧ y.magnitudeBits ≤ x.magnitudeBits + 2 ∧
      ∀ l, LiteralText (floatValue x).toList l → l.IsExact → y = x := by
  cases hzero : x.isZero with
  | true =>
      have hx : x = .zero x.isNegative := eq_zero_of_isZero hzero
      have hread : ReadsBack x := hx ▸ readsBack_zero x.isNegative
      exact ⟨x, ofJson_float hread, hfinite, rfl, by omega, by omega, fun _ _ _ => rfl⟩
  | false =>
      obtain ⟨m, hx, hm⟩ := Decimal.exists_succ hfinite hzero
      obtain ⟨hrounds, -⟩ := Decimal.shortest_spec numberLayout.tie hfinite hzero
      obtain ⟨l, r, hliteral, hnear, hexact, hread⟩ := exists_lastRounding hfinite hzero
      have hself (h : l.IsExact) : readDocument float (floatValue x) = .ok x := by
        have hmagnitude := nearestMagnitude_congr (hexact h)
        rw [hrounds] at hmagnitude
        have := hread (by omega)
        rwa [hmagnitude, ofParts_eta] at this
      have hunique {y : Binary64} (hy : readDocument float (floatValue x) = .ok y) :
          ∀ l', LiteralText (floatValue x).toList l' → l'.IsExact → y = x := by
        intro l' hl' h
        obtain rfl := literalText_unique hliteral hl'
        exact Except.ok.inj (hy.symm.trans (hself h))
      have hupper := nearestMagnitude_drift hnear
      have hlower := nearestMagnitude_drift hnear.symm
      rw [hrounds] at hupper hlower
      rcases Nat.lt_or_ge x.magnitudeBits (2047 * exponentWeight - 2) with hinner | hedge
      · have hlt : nearestMagnitude r < 2047 * exponentWeight := by omega
        have hlt' : nearestMagnitude r < signWeight := hlt.trans (by decide)
        refine ⟨_, ofJson_float (hread hlt), isFinite_ofParts _ hlt, isNegative_ofParts hlt', ?_, ?_,
          hunique (hread hlt)⟩
        · rwa [magnitudeBits_ofParts hlt']
        · rwa [magnitudeBits_ofParts hlt']
      · have hy := read_largest hedge (hx ▸ hm)
        have hlt : 2047 * exponentWeight - 1 < signWeight := by decide
        refine ⟨_, ofJson_float hy, isFinite_ofParts _ (by decide), isNegative_ofParts hlt, ?_, ?_,
          hunique hy⟩
        · rw [magnitudeBits_ofParts hlt]
          omega
        · rw [magnitudeBits_ofParts hlt]
          omega

/-- The literal `2.5` needs no rounding before the last one. -/
theorem ofJson_toJson_float_exact :
    Expr.ofJson (Expr.toJson (.float ⟨0x4004000000000000⟩)) =
      .ok (.float ⟨0x4004000000000000⟩) := by
  obtain ⟨y, hy, -, -, -, -, hexact⟩ := ofJson_toJson_float ⟨0x4004000000000000⟩ (by decide)
  have htext : (floatValue ⟨0x4004000000000000⟩).toList = ['2', '.', '5'] := by decide +kernel
  have hliteral : LiteralText ['2', '.', '5'] ⟨false, ['2'], ['5'], none⟩ :=
    ⟨['.', '5'], [], rfl, wholeText_singleton rfl, .present (digits_singleton rfl), .absent⟩
  have hshort : Literal.IsExact ⟨false, ['2'], ['5'], none⟩ :=
    ⟨by decide, 25, 0, by decide, by decide⟩
  rw [hexact _ (htext ▸ hliteral) hshort] at hy
  exact hy

/-- The bound is reached: both the digits `9270652296817293` and the power `10 ^ 246` are rounded,
and the quotient is two magnitudes below the number that was written. -/
theorem ofJson_toJson_float_two_apart :
    (⟨1165527561521514215⟩ : Binary64).isFinite = true ∧
      Expr.ofJson (Expr.toJson (.float ⟨1165527561521514215⟩)) =
        .ok (.float ⟨1165527561521514213⟩) ∧
      Expr.ofJson (Expr.toJson (.float ⟨1165527561521514215⟩)) ≠
        .ok (.float ⟨1165527561521514215⟩) := by
  have hread : readDocument float (floatValue ⟨1165527561521514215⟩) =
      .ok ⟨1165527561521514213⟩ := by
    decide +kernel
  have hjson := ofJson_float hread
  refine ⟨by decide, hjson, ?_⟩
  rw [hjson]
  intro h
  injection h with h
  injection h with h
  exact absurd h (by decide)

end Json

end SyntaxTree
