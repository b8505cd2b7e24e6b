import SyntaxTree.Binary64

/-! # Bit patterns

A number is determined by its sign and the bits of its magnitude, and the magnitudes at the top of
the range are the infinities and the patterns that are not numbers. -/

namespace SyntaxTree

namespace Binary64

theorem ext_bits {x y : Binary64} (h : x.bits.toNat = y.bits.toNat) : x = y := by
  obtain ⟨x⟩ := x
  obtain ⟨y⟩ := y
  exact congrArg Binary64.mk (UInt64.toNat_inj.1 h)

theorem magnitudeBits_lt (x : Binary64) : x.magnitudeBits < signWeight :=
  Nat.mod_lt _ (by decide)

theorem bits_eq (x : Binary64) :
    x.bits.toNat = (if x.isNegative then signWeight else 0) + x.magnitudeBits := by
  have hlt : x.bits.toNat < 2 * signWeight := x.bits.toNat_lt
  have hmod := Nat.div_add_mod x.bits.toNat signWeight
  have hdiv : x.bits.toNat / signWeight < 2 := Nat.div_lt_of_lt_mul (by omega)
  unfold isNegative magnitudeBits
  by_cases h : signWeight ≤ x.bits.toNat
  · have : x.bits.toNat / signWeight = 1 := by
      have := Nat.div_pos h (by decide)
      omega
    simp only [h, decide_true, if_true]
    rw [this] at hmod
    omega
  · simp only [h, decide_false, Bool.false_eq_true, if_false]
    rw [Nat.mod_eq_of_lt (by omega), Nat.zero_add]

section OfParts

variable {negative : Bool} {m : Nat}

theorem bits_ofParts (hm : m < signWeight) :
    (ofParts negative m).bits.toNat = (if negative then signWeight else 0) + m := by
  refine UInt64.toNat_ofNat_of_lt' ?_
  simp only [UInt64.size]
  cases negative
  · exact Nat.lt_of_lt_of_le (by simpa using hm) (by decide)
  · have : signWeight + signWeight = 2 ^ 64 := by decide
    simp only [if_true]
    omega

theorem isNegative_ofParts (hm : m < signWeight) : (ofParts negative m).isNegative = negative := by
  rw [isNegative, bits_ofParts hm]
  cases negative <;> simp [hm]

theorem magnitudeBits_ofParts (hm : m < signWeight) : (ofParts negative m).magnitudeBits = m := by
  rw [magnitudeBits, bits_ofParts hm]
  cases negative <;> simp [Nat.mod_eq_of_lt hm]

end OfParts

theorem ofParts_eta (x : Binary64) : ofParts x.isNegative x.magnitudeBits = x :=
  ext_bits (by rw [bits_ofParts x.magnitudeBits_lt, ← bits_eq])

theorem eq_of_parts {x y : Binary64} (hs : x.isNegative = y.isNegative)
    (hm : x.magnitudeBits = y.magnitudeBits) : x = y := by
  rw [← ofParts_eta x, hs, hm, ofParts_eta]

/-- The fields of the magnitude. -/
theorem magnitudeBits_eq (x : Binary64) :
    x.magnitudeBits = x.exponentField * exponentWeight + x.fractionField := by
  rw [exponentField, fractionField, Nat.mul_comm]
  exact (Nat.div_add_mod _ _).symm

theorem exponentField_le (x : Binary64) : x.exponentField ≤ 2047 := by
  have h : x.magnitudeBits < exponentWeight * 2048 := x.magnitudeBits_lt
  exact Nat.le_of_lt_succ (Nat.div_lt_of_lt_mul h)

theorem eq_infinity {x : Binary64} (h : x.isInfinite = true) : x = infinity x.isNegative := by
  simp only [isInfinite, Bool.and_eq_true, beq_iff_eq] at h
  refine eq_of_parts (isNegative_ofParts (by decide)).symm ?_
  rw [infinity, magnitudeBits_ofParts (by decide), magnitudeBits_eq, h.1, h.2, Nat.add_zero]

/-- A number is finite, infinite or not a number. -/
theorem isFinite_of_not {x : Binary64} (hn : x.isNaN = false) (hi : x.isInfinite = false) :
    x.isFinite = true := by
  have hle := x.exponentField_le
  simp only [isNaN, isInfinite, Bool.and_eq_false_imp, beq_iff_eq, bne_eq_false_iff_eq,
    beq_eq_false_iff_ne] at hn hi
  simp only [isFinite, decide_eq_true_eq]
  refine Nat.lt_of_le_of_ne hle fun h => hi h (hn h)

theorem isNaN_of_isFinite {x : Binary64} (h : x.isFinite = true) : x.isNaN = false := by
  simp only [isFinite, decide_eq_true_eq] at h
  simp [isNaN, Nat.ne_of_lt h]

theorem isInfinite_of_isFinite {x : Binary64} (h : x.isFinite = true) : x.isInfinite = false := by
  simp only [isFinite, decide_eq_true_eq] at h
  simp [isInfinite, Nat.ne_of_lt h]

/-- The number with a not-a-number made the canonical one. -/
def canonical (x : Binary64) : Binary64 := if x.isNaN then nan else x

theorem canonical_of_isNaN {x : Binary64} (h : x.isNaN = true) : x.canonical = nan := by
  rw [canonical, if_pos h]

theorem canonical_of_not {x : Binary64} (h : x.isNaN = false) : x.canonical = x := by
  rw [canonical, if_neg (by simp [h])]

theorem isNaN_nan : nan.isNaN = true := by decide

/-! ## Numbers that are not told apart -/

/-- Where some numbers are all replaced by one of them, two images are the same when the numbers
are the same or both were replaced. -/
theorem replaced_eq_iff {p : Binary64 → Bool} {c : Binary64} (hc : p c = true) {x y : Binary64} :
    (if p x then c else x) = (if p y then c else y) ↔ x = y ∨ (p x = true ∧ p y = true) := by
  constructor
  · intro h
    split at h
    · rename_i hx
      split at h
      · rename_i hy
        exact .inr ⟨hx, hy⟩
      · exact absurd (h ▸ hc) ‹_›
    · rename_i hx
      split at h
      · exact absurd (h ▸ hc) hx
      · exact .inl h
  · rintro (rfl | ⟨hx, hy⟩)
    · rfl
    · rw [if_pos hx, if_pos hy]

/-- The same bits, or both not a number. -/
def SameOrNaN (x y : Binary64) : Prop := x = y ∨ (x.isNaN = true ∧ y.isNaN = true)

theorem canonical_eq_iff {x y : Binary64} : x.canonical = y.canonical ↔ x.SameOrNaN y :=
  replaced_eq_iff isNaN_nan

theorem eq_zero_of_isZero {x : Binary64} (h : x.isZero = true) : x = zero x.isNegative := by
  rw [isZero, beq_iff_eq] at h
  rw [zero, ← h, ofParts_eta]

/-- The number without the sign of a zero. -/
def unsignedZero (x : Binary64) : Binary64 := if x.isZero then zero false else x

/-- The negative zero is the only number that changes. -/
theorem unsignedZero_of_ne {x : Binary64} (h : x ≠ zero true) : x.unsignedZero = x := by
  unfold unsignedZero
  split
  · rename_i hzero
    have hx := eq_zero_of_isZero hzero
    cases hsign : x.isNegative with
    | true => exact absurd (hsign ▸ hx) h
    | false => rw [hx, hsign]
  · rfl

/-- Numbers are equal if no one is a not-a-number and they differ at most in the sign of a zero. -/
theorem eq_iff {x y : Binary64} :
    x.eq y = true ↔ x.unsignedZero = y.unsignedZero ∧ x.isNaN = false ∧ y.isNaN = false := by
  have hsame : x.unsignedZero = y.unsignedZero ↔ x = y ∨ (x.isZero = true ∧ y.isZero = true) :=
    replaced_eq_iff (by decide)
  simp only [hsame, eq, Bool.and_eq_true, Bool.or_eq_true, Bool.not_eq_true', beq_iff_eq]
  exact and_comm

end Binary64

end SyntaxTree
