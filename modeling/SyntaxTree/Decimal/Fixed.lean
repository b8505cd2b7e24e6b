import SyntaxTree.Binary64

/-! # Fixed-point text

A number written with a given count of digits after the point: the exact binary value is rounded
once to that many places, ties to even, and the sign is kept even on zero. -/

namespace SyntaxTree

namespace Decimal

/-- The decimal digits of `n`, filled up with zeros on the left to at least `width`. -/
def paddedDigits (width n : Nat) : List Char :=
  let digits := Nat.toDigits 10 n
  List.replicate (width - digits.length) '0' ++ digits

/-- The text of `n / 10 ^ places`. -/
def fixedPoint (places n : Nat) : String :=
  if places = 0 then n.repr
  else
    let one := Nat.pow 10 places
    (n / one).repr ++ "." ++ String.ofList (paddedDigits places (n % one))

end Decimal

namespace Binary64

/-- The absolute value in units of `10 ^ -places`, rounded to the nearest. -/
def inPlaces (x : Binary64) (places : Nat) : Nat :=
  (x.magnitude.mul (.ofNat (Nat.pow 10 places))).nearest

/-- Fixed-point text of a finite number. -/
def toFixed (places : Nat) (x : Binary64) : String :=
  (if x.isNegative then "-" else "") ++ Decimal.fixedPoint places (x.inPlaces places)

end Binary64

end SyntaxTree
