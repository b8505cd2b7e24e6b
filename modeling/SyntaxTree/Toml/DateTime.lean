import SyntaxTree.Toml.Number

/-! # Dates and times

A date, a time of day, or a date and a time with or without an offset. Only the form and the ranges
of the fields are checked. -/

namespace SyntaxTree

namespace Toml

namespace Scan

/-- Exactly `count` digits. -/
def fixedDigits (count : Nat) : Scan Nat := numberOf 10 <$> go count
where
  go : Nat → Scan (List Char)
    | 0 => pure []
    | count + 1 => do
      let first ← satisfying isDigit
      let rest ← go count
      pure (first :: rest)

/-- Two digits that write a number of the range. -/
def twoDigits (low high : Nat) : Scan Nat := do
  let n ← fixedDigits 2
  guard (low ≤ n ∧ n ≤ high)
  pure n

/-- The Gregorian rule. -/
def isLeapYear (year : Nat) : Bool :=
  year % 4 == 0 && (year % 100 != 0 || year % 400 == 0)

/-- The number of days of a month, numbered from one. -/
def daysIn (year month : Nat) : Nat :=
  if month = 2 then (if isLeapYear year then 29 else 28)
  else if month = 4 ∨ month = 6 ∨ month = 9 ∨ month = 11 then 30
  else 31

/-- A date that the calendar has. -/
def date : Scan Unit := do
  let year ← fixedDigits 4
  char '-'
  let month ← twoDigits 1 12
  char '-'
  let _ ← twoDigits 1 (daysIn year month)

/-- A time of day, whose seconds may have a fraction and may count a leap second. -/
def timeOfDay : Scan Unit := do
  let _ ← twoDigits 0 23
  char ':'
  let _ ← twoDigits 0 59
  char ':'
  let _ ← twoDigits 0 60
  optional do
    char '.'
    let _ ← satisfying isDigit
    let _ ← takeWhile isDigit

/-- The offset of a time from universal time. -/
def timeOffset : Scan Unit := do
  let mark ← satisfying fun c => c == 'Z' || c == 'z' || c == '+' || c == '-'
  if mark == '+' || mark == '-' then
    let _ ← twoDigits 0 23
    char ':'
    let _ ← twoDigits 0 59

/-- A date, a time of day, or both. -/
def dateTime : Scan Unit :=
  (do
    date
    optional do
      let _ ← satisfying fun c => c == 'T' || c == 't' || c == ' '
      timeOfDay
      optional timeOffset) <|>
  timeOfDay

end Scan

end Toml

end SyntaxTree
