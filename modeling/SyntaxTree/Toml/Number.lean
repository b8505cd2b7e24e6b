import SyntaxTree.Decimal.Nearest
import SyntaxTree.Toml.Scan

/-! # Numbers

Integers of 64 bits in four bases, and floating-point numbers, which are rounded to the nearest.
An underscore may stand between two digits. -/

namespace SyntaxTree

namespace Toml

namespace Scan

/-- The decimal digits. -/
def isDigit (c : Char) : Bool := '0' ≤ c && c ≤ '9'

/-- Digits, of which two may have an underscore between them. -/
def digits (test : Char → Bool) : Scan (List Char) := do
  let first ← satisfying test
  let rest ← many (satisfying test <|> (do char '_'; satisfying test))
  pure (first :: rest)

/-- Decimal digits of which the first is zero only if it stands alone. -/
def wholeDigits : Scan (List Char) := do
  match ← peek with
  | some '0' => do
    char '0'
    pure ['0']
  | _ => digits isDigit

/-- Whether there is a minus sign; a plus sign is taken too. -/
def sign : Scan Bool := do
  match ← peek with
  | some '-' => do
    char '-'
    pure true
  | some '+' => do
    char '+'
    pure false
  | _ => pure false

/-- The value of a digit in any of the bases up to sixteen. -/
def digitValue (c : Char) : Nat :=
  if isDigit c then c.toNat - '0'.toNat
  else if 'a' ≤ c ∧ c ≤ 'f' then c.toNat - 'a'.toNat + 10
  else c.toNat - 'A'.toNat + 10

/-- The number that the digits write in a base. -/
def numberOf (base : Nat) (digits : List Char) : Nat :=
  digits.foldl (fun n c => n * base + digitValue c) 0

/-- Digits in a base other than ten, after a mark that says which. -/
def based (mark : Char) (base : Nat) (test : Char → Bool) : Scan Nat := do
  char '0'
  char mark
  numberOf base <$> digits test

/-- A whole number with an optional sign, or one in another base without. -/
def integer : Scan Int := do
  let value ←
    (do
      let n ← based 'x' 16 (fun c => isDigit c || ('a' ≤ c && c ≤ 'f') || ('A' ≤ c && c ≤ 'F')) <|>
        based 'o' 8 (fun c => '0' ≤ c && c ≤ '7') <|>
        based 'b' 2 (fun c => c == '0' || c == '1')
      pure (n : Int)) <|>
    (do
      let negative ← sign
      let n := numberOf 10 (← wholeDigits)
      pure (if negative then -(n : Int) else (n : Int)))
  guard (Int64.minValue.toInt ≤ value ∧ value ≤ Int64.maxValue.toInt)
  pure value

/-- The value of an exponent. -/
def exponent : Scan Int := do
  let _ ← satisfying fun c => c == 'e' || c == 'E'
  let negative ← sign
  let n := numberOf 10 (← digits isDigit)
  pure (if negative then -(n : Int) else (n : Int))

/-- A number with a fraction or an exponent. One too large for a positive number is refused. -/
def decimal : Scan Binary64 := do
  let negative ← sign
  let whole ← wholeDigits
  let (fraction, exponent) ←
    (do
      let exponent ← exponent
      pure ([], exponent)) <|>
    (do
      char '.'
      let fraction ← digits isDigit
      let exponent ← exponent <|> pure 0
      pure (fraction, exponent))
  let value := Decimal.toBinary64 negative
    ⟨numberOf 10 (whole ++ fraction), exponent - fraction.length⟩
  guard (value ≠ .infinity false)
  pure value

/-- A number that has a name. -/
def named : Scan Binary64 := do
  let negative ← sign
  (do chars ['i', 'n', 'f']; pure (.infinity negative)) <|>
    (do chars ['n', 'a', 'n']; pure .nan)

/-- A number with a point or an exponent, or one of the names for the others. -/
def float : Scan Binary64 := decimal <|> named

end Scan

end Toml

end SyntaxTree
