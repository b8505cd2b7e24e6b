import SyntaxTree.Decimal.Shortest

/-! # Layouts of decimal text

A decimal is written plainly, with at least one digit on each side of the point, or with an
exponent. A layout says which of the two applies and how a tie between two shortest decimals is
broken. -/

namespace SyntaxTree

namespace Decimal

structure Layout where
  /-- Whether a number of the form `d.ddd * 10 ^ order` is written plainly. -/
  isPlain : (order : Int) → Bool
  tie : Tie

/-- The digits up to the last one that is not zero. -/
def significantDigits (d : Decimal) : List Char :=
  ((Nat.toDigits 10 d.coefficient).reverse.dropWhile (· == '0')).reverse

/-- The exponent of the first digit. -/
def order (d : Decimal) : Int :=
  d.exponent + (Nat.toDigits 10 d.coefficient).length - 1

/-- Writes the number `0.ddd * 10 ^ point` without an exponent. -/
def plainText (digits : List Char) (point : Int) : List Char :=
  if point ≤ 0 then
    '0' :: '.' :: (List.replicate (-point).toNat '0' ++ digits)
  else
    let whole := point.toNat
    let fraction := digits.drop whole
    digits.take whole ++ List.replicate (whole - digits.length) '0' ++
      '.' :: (if fraction.isEmpty then ['0'] else fraction)

/-- Writes the number `d.ddd * 10 ^ order` with an exponent, which has its sign always. -/
def exponentText (digits : List Char) (order : Int) : List Char :=
  let mantissa :=
    match digits with
    | first :: second :: rest => first :: '.' :: second :: rest
    | _ => digits
  mantissa ++ 'e' :: (if order < 0 then '-' else '+') :: Nat.toDigits 10 order.natAbs

def write (layout : Layout) (d : Decimal) : List Char :=
  if layout.isPlain d.order then plainText d.significantDigits (d.order + 1)
  else exponentText d.significantDigits d.order

end Decimal

namespace Binary64

/-- The shortest text of a finite number. -/
def toShortest (layout : Decimal.Layout) (x : Binary64) : String :=
  (if x.isNegative then "-" else "") ++
    if x.isZero then "0.0" else String.ofList (Decimal.write layout (Decimal.shortest layout.tie x))

end Binary64

end SyntaxTree
