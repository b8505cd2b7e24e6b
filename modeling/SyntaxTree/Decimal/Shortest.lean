import SyntaxTree.Binary64

/-! # Shortest decimals

The decimal with the fewest digits among those that round to a given binary number, and among
these one nearest to it. On the grid of multiples of a power of ten, the only points that matter
are the two neighbours of the number itself: if any point of the grid rounds to the number, so
does one of them. -/

namespace SyntaxTree

/-- The number `coefficient * 10 ^ exponent`. -/
structure Decimal where
  coefficient : Nat
  exponent : Int
  deriving DecidableEq, Repr

namespace Decimal

def value (d : Decimal) : Ratio := (Ratio.ofNat d.coefficient).timesPowTen d.exponent

/-- Which neighbour is taken when both are equally near. -/
inductive Tie where
  | toEven
  | up
  deriving DecidableEq, Repr

/-- Whether `d` reads back as the absolute value of `x`. -/
def roundsTo (d : Decimal) (x : Binary64) : Bool :=
  Binary64.roundMagnitude d.value == x.magnitudeBits

/-- One of the two neighbours of `scaled`, by whether each of them rounds to the number: the nearer
one where both do. -/
def pick (tie : Tie) (scaled : Ratio) (below above : Decimal) : Bool → Bool → Option Decimal
  | true, true =>
    let rest := 2 * (scaled.num % scaled.den)
    if rest < scaled.den then some below
    else if scaled.den < rest then some above
    else if tie = .toEven ∧ below.coefficient % 2 = 0 then some below
    else some above
  | true, false => some below
  | false, true => some above
  | false, false => none

/-- The nearest multiple of `10 ^ exponent` that rounds to `x`, if there is one. -/
def onGrid? (tie : Tie) (x : Binary64) (exponent : Int) : Option Decimal :=
  let scaled := x.magnitude.timesPowTen (-exponent)
  let below : Decimal := ⟨scaled.floor, exponent⟩
  let above : Decimal := ⟨scaled.floor + 1, exponent⟩
  pick tie scaled below above (below.roundsTo x) (above.roundsTo x)

/-- The shortest decimal of a finite nonzero number, without its sign. The grids from one
significant digit to sixteen are tried in this order; seventeen digits always suffice. -/
def shortest (tie : Tie) (x : Binary64) : Decimal :=
  let order := x.magnitude.floorLogTen
  let finest := order - 16
  ((List.range 16).findSome? fun (extra : Nat) => onGrid? tie x (order - extra)).getD
    ((onGrid? tie x finest).getD ⟨(x.magnitude.timesPowTen (-finest)).floor, finest⟩)

end Decimal

end SyntaxTree
