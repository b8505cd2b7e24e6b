import SyntaxTree.Ratio

/-! # Binary floating-point numbers of 64 bits

A number is its bit pattern: a sign, eleven exponent bits and 52 fraction bits. Every finite
number is a whole multiple of the unit `2 ^ -1074`, so exact values are natural numbers of units,
and arithmetic is exact arithmetic followed by one rounding to the nearest, ties to even. -/

namespace SyntaxTree

/-- A number is its bits, so that two not-a-numbers with different payloads are different. -/
structure Binary64 where
  bits : UInt64
  deriving DecidableEq, Repr

namespace Binary64

/-- The weight of the sign bit. -/
def signWeight : Nat := Nat.pow 2 63

/-- The weight of the lowest exponent bit, which is also the number of fractions. -/
def exponentWeight : Nat := Nat.pow 2 52

/-- Whether the sign bit is set, which it may be in a zero and in a not-a-number too. -/
def isNegative (x : Binary64) : Bool := signWeight ≤ x.bits.toNat

/-- The bit pattern without the sign; its order is the order of absolute values. -/
def magnitudeBits (x : Binary64) : Nat := x.bits.toNat % signWeight

/-- The eleven exponent bits. -/
def exponentField (x : Binary64) : Nat := x.magnitudeBits / exponentWeight

/-- The 52 fraction bits. -/
def fractionField (x : Binary64) : Nat := x.magnitudeBits % exponentWeight

/-- The largest exponent field is kept for infinities and not-a-numbers. -/
def isFinite (x : Binary64) : Bool := x.exponentField < 2047

/-- Any fraction other than zero marks a not-a-number. -/
def isNaN (x : Binary64) : Bool := x.exponentField == 2047 && x.fractionField != 0

/-- An infinity has the largest exponent field and no fraction. -/
def isInfinite (x : Binary64) : Bool := x.exponentField == 2047 && x.fractionField == 0

/-- Zero has two signs and no other bits. -/
def isZero (x : Binary64) : Bool := x.magnitudeBits == 0

/-- The significand as an integer, with the leading bit that normal numbers leave out. -/
def significand (x : Binary64) : Nat :=
  if x.exponentField = 0 then x.fractionField else exponentWeight + x.fractionField

/-- The binary exponent over the unit: a finite number has the absolute value
`significand * 2 ^ scale` units. -/
def scale (x : Binary64) : Nat := x.exponentField - 1

/-- The absolute value in units of `2 ^ -1074`, of a finite number. -/
def units (x : Binary64) : Nat := x.significand * Nat.pow 2 x.scale

/-- The number of units in 1. -/
def unitsInOne : Nat := Nat.pow 2 1074

theorem pow_two_pos (n : Nat) : 0 < Nat.pow 2 n := Nat.pow_pos (by decide)

theorem unitsInOne_pos : 0 < unitsInOne := by
  unfold unitsInOne
  apply pow_two_pos

/-- The absolute value of a finite number. -/
def magnitude (x : Binary64) : Ratio := ⟨x.units, unitsInOne, unitsInOne_pos⟩

/-- The number with the given sign and the other bits. -/
def ofParts (negative : Bool) (magnitudeBits : Nat) : Binary64 :=
  ⟨UInt64.ofNat ((if negative then signWeight else 0) + magnitudeBits)⟩

/-- The zero of a sign. -/
def zero (negative : Bool) : Binary64 := ofParts negative 0

/-- The infinity of a sign. -/
def infinity (negative : Bool) : Binary64 := ofParts negative (2047 * exponentWeight)

/-- The quiet not-a-number with no payload. -/
def nan : Binary64 := ofParts false (2047 * exponentWeight + exponentWeight / 2)

/-- The number with the other sign and the same magnitude. -/
def neg (x : Binary64) : Binary64 := ofParts (!x.isNegative) x.magnitudeBits

/-- The bits of the magnitude nearest to `r`. The numbers around `r` are the multiples of
`2 ^ scale` units; a significand that rounds up to `2 ^ 53` carries into the exponent field, which
is the next binade. What lies beyond the finite numbers is infinite. -/
def roundMagnitude (r : Ratio) : Nat :=
  let inUnits := r.num * unitsInOne
  let scale := (inUnits / r.den).log2 - 52
  let significand := Ratio.nearest ⟨inUnits, r.den * Nat.pow 2 scale,
    Nat.mul_pos r.den_pos (pow_two_pos scale)⟩
  min (scale * exponentWeight + significand) (2047 * exponentWeight)

/-- The number nearest to the ratio, with the given sign. -/
def ofRatio (negative : Bool) (r : Ratio) : Binary64 := ofParts negative (roundMagnitude r)

/-- The number nearest to a natural one. -/
def ofNat (n : Nat) : Binary64 := ofRatio false (.ofNat n)

/-- The product of two finite numbers, rounded once. -/
def mul (x y : Binary64) : Binary64 :=
  ofRatio (x.isNegative != y.isNegative) (x.magnitude.mul y.magnitude)

/-- The quotient of two finite numbers, rounded once. A division by zero is infinite, or not a
number when zero is divided. -/
def div (x y : Binary64) : Binary64 :=
  if h : 0 < y.magnitude.num then
    ofRatio (x.isNegative != y.isNegative) (x.magnitude.div y.magnitude h)
  else if x.isZero then nan
  else infinity (x.isNegative != y.isNegative)

/-- Numerical equality: nothing equals a not-a-number, and the two zeros are equal. -/
def eq (x y : Binary64) : Bool :=
  !x.isNaN && !y.isNaN && (x == y || (x.isZero && y.isZero))

/-- Numerical equality is symmetric. -/
theorem eq_comm (x y : Binary64) : x.eq y = y.eq x := by
  have h : (x == y) = (y == x) := by
    rw [Bool.eq_iff_iff, beq_iff_eq, beq_iff_eq]; exact ⟨Eq.symm, Eq.symm⟩
  unfold eq
  rw [h, Bool.and_comm (!x.isNaN) (!y.isNaN), Bool.and_comm x.isZero y.isZero]

/-- Every number equals itself, unless it is none. -/
theorem eq_self (x : Binary64) : x.eq x = !x.isNaN := by
  cases h : x.isNaN <;> simp [eq, h]

end Binary64

end SyntaxTree
