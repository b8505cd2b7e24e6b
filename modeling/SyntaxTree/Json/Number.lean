import SyntaxTree.Json.Reader

/-! # Numbers

A number literal is read in two steps: its digits by the grammar, and then its value. Digits are
kept in a significand of 64 bits, and those that would overflow it only move the exponent. The
value with a fraction or an exponent comes from one rounded multiplication or division by a power
of ten, so it need not be the nearest to the decimal that was written. -/

namespace SyntaxTree

namespace Json

/-- The parts of a literal. The exponent is its sign and digits. -/
structure Literal where
  negative : Bool
  whole : List Char
  fraction : List Char
  exponent : Option (Bool × List Char)
  deriving DecidableEq, Repr

/-- The value of a literal: an integer that fits 64 bits keeps its own form. -/
inductive Number where
  | natural (value : Nat)
  /-- The number `-value`, for a positive `value`. -/
  | negative (value : Nat)
  | float (value : Binary64)
  deriving DecidableEq, Repr

def isDigit (c : Char) : Bool := '0' ≤ c && c ≤ '9'

def digitValue (c : Char) : Nat := c.toNat - '0'.toNat

/-! ## The grammar -/

/-- The digits before the point: a zero alone, or digits that do not begin with one. Where the
text ends too early, the fault is `missing`. -/
def wholeDigits (missing : Cause) : Reader (List Char) := do
  match ← peek with
  | none => failAhead missing
  | some '0' => do
    advance
    match ← peek with
    | some c => if isDigit c then failAhead .invalidNumber else pure ['0']
    | none => pure ['0']
  | some c => if isDigit c then takeWhile isDigit else failAhead .invalidNumber

/-- The digits after a point, if one comes next. -/
def fractionDigits (missing : Cause) : Reader (List Char) := do
  match ← peek with
  | some '.' => do
    advance
    let digits ← takeWhile isDigit
    if digits.isEmpty then
      match ← peek with
      | none => failAhead missing
      | some _ => failAhead .invalidNumber
    else pure digits
  | _ => pure []

/-- The sign of an exponent, if one comes next. -/
def exponentSign : Reader Bool := do
  match ← peek with
  | some '-' => do advance; pure true
  | some '+' => do advance; pure false
  | _ => pure false

def exponentPart (missing : Cause) : Reader (Option (Bool × List Char)) := do
  match ← peek with
  | some c =>
    if c = 'e' ∨ c = 'E' then do
      advance
      let negative ← exponentSign
      match ← peek with
      | none => failAhead missing
      | some d =>
        if isDigit d then
          let digits ← takeWhile isDigit
          pure (some (negative, digits))
        else failAhead .invalidNumber
    else pure none
  | none => pure none

/-- A literal, whose sign or first digit comes next. -/
def literal (missing : Cause) : Reader Literal := do
  let negative ← match ← peek with
    | some '-' => do advance; pure true
    | _ => pure false
  let whole ← wholeDigits missing
  let fraction ← fractionDigits missing
  let exponent ← exponentPart missing
  pure ⟨negative, whole, fraction, exponent⟩

/-! ## The value -/

/-- Appends digits to a significand as long as it stays below `limit`. The second component is the
number of digits that are left. -/
def absorb (limit : Nat) (significand : Nat) : List Char → Nat × Nat
  | [] => (significand, 0)
  | c :: rest =>
    let next := significand * 10 + digitValue c
    if next < limit then absorb limit next rest else (significand, rest.length + 1)

/-- The largest power of ten that is a finite number. -/
def largestPower : Nat := 308

/-- The power of ten, rounded to the nearest number. -/
def powerOfTen (n : Nat) : Binary64 := .ofNat (Nat.pow 10 n)

/-- `x` divided by a power of ten, in steps of the largest power while the exponent exceeds it. -/
def scaleDown (x : Binary64) (exponent : Nat) : Binary64 :=
  if exponent ≤ largestPower then x.div (powerOfTen exponent)
  else if x.isZero then x
  else scaleDown (x.div (powerOfTen largestPower)) (exponent - largestPower)
termination_by exponent
decreasing_by simp only [largestPower] at *; omega

/-- `x` times a power of ten. `none` stands for a result beyond the finite numbers. -/
def scaleBy (x : Binary64) (exponent : Int) : Option Binary64 :=
  if exponent < 0 then some (scaleDown x exponent.natAbs)
  else if exponent ≤ largestPower then
    let product := x.mul (powerOfTen exponent.toNat)
    if product.isInfinite then none else some product
  else if x.isZero then some x
  else none

namespace Literal

def significandLimit : Nat := Nat.pow 2 64

def exponentLimit : Nat := Nat.pow 2 31

/-- The significand, and the power of ten that its last digit stands for when no exponent is
written. That power is counted here without a bound; a count of 32 bits, as for the exponent, agrees
with it up to `2 ^ 31` digits that are dropped or stand after the point. -/
def significand (literal : Literal) : Nat × Int :=
  let (whole, dropped) := absorb significandLimit 0 literal.whole
  let (all, unused) := absorb significandLimit whole literal.fraction
  (all, (dropped : Int) - (literal.fraction.length - unused : Nat))

def isInteger (literal : Literal) : Bool :=
  literal.fraction.isEmpty && literal.exponent.isNone &&
    (absorb significandLimit 0 literal.whole).2 == 0

/-- Gives a magnitude the sign of the literal. -/
def signed (literal : Literal) (x : Binary64) : Binary64 :=
  if literal.negative then x.neg else x

/-- The value of a literal that is no integer of 64 bits. An error counts the characters of the
literal after the place where it turns out to be too large. -/
def toBinary64 (literal : Literal) : Except Nat Binary64 :=
  let (digits, shift) := literal.significand
  let x := Binary64.ofNat digits
  match literal.exponent with
  | none => (scaleBy x shift).elim (.error 0) fun y => .ok (literal.signed y)
  | some (negative, written) =>
    let (value, left) := absorb exponentLimit 0 written
    if left = 0 then
      let exponent := if negative then shift - value else shift + value
      (scaleBy x exponent).elim (.error 0) fun y => .ok (literal.signed y)
    else if digits = 0 ∨ negative then .ok (literal.signed (.zero false))
    else .error (left - 1)

def value (literal : Literal) : Except Nat Number :=
  if literal.isInteger then
    let n := literal.significand.1
    if !literal.negative then .ok (.natural n)
    else if 0 < n ∧ n ≤ Nat.pow 2 63 then .ok (.negative n)
    else .ok (.float (Binary64.ofNat n).neg)
  else literal.toBinary64.map .float

end Literal

/-- A number, whose sign or first digit comes next. -/
def number : Reader Number := do
  let written ← literal (.endOfInput .value)
  match written.value with
  | .ok value => pure value
  | .error left => Reader.ofStep fun cursor =>
    (.error ⟨.numberOutOfRange, some (cursor.offset - left)⟩, cursor)

/-- Passes over a number, of which only the grammar counts. -/
def skipNumber : Reader Unit := do
  let _ ← literal .invalidNumber

namespace Number

def found : Number → Shape.Found
  | .natural n => .integer n
  | .negative n => .integer (-(n : Int))
  | .float x => .float x

/-- The nearest floating-point number. -/
def toBinary64 : Number → Binary64
  | .natural n => .ofNat n
  | .negative n => (Binary64.ofNat n).neg
  | .float x => x

end Number

end Json

end SyntaxTree
