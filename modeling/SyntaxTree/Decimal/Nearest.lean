import SyntaxTree.Decimal.Shortest

/-! # The nearest binary number

A decimal of any size is rounded once to the nearest binary number. -/

namespace SyntaxTree

namespace Decimal

/-- Every decimal of this order or above is beyond the finite numbers, and every one whose order is
as far below zero rounds to zero. -/
def orderLimit : Int := 400

/-- The nearest number, with the given sign. Powers of ten are formed only within the limit. -/
def toBinary64 (negative : Bool) (d : Decimal) : Binary64 :=
  let order := d.exponent + (Nat.toDigits 10 d.coefficient).length
  if d.coefficient = 0 ∨ order < -orderLimit then .zero negative
  else if orderLimit < order then .infinity negative
  else .ofRatio negative d.value

end Decimal

end SyntaxTree
