import SyntaxTree.Json.Number
import SyntaxTree.Json.Quoted

/-! # Values of any shape

Two readers take whatever value comes next. The first keeps what a float literal may be made of;
the second passes over the value of a field that is not wanted, and is laxer about numbers and
strings but stricter about commas. -/

namespace SyntaxTree

namespace Json

/-- What is kept of a value of any shape. -/
inductive Loose where
  | number (value : Number)
  | text (value : String)
  | other
  deriving DecidableEq, Repr

/-- The entries of an object up to its end: each key is read, and `entry` reads what follows it and
adds it to what the entries before have given. -/
def entries {σ : Type} (entry : σ → String → Reader σ) :
    (bound : Nat) → (first : Bool) → σ → Reader σ
  | 0, _, _ => failAhead (.endOfInput .object)
  | bound + 1, first, state => do
    if ← nextKey first then
      let key ← string
      let state ← entry state key
      entries entry bound false state
    else pure state

/-- The object whose opening brace has been taken. -/
def objectOf {σ α : Type} (entry : σ → String → Reader σ) (finish : σ → Reader α) (start : σ) :
    Reader α := do
  let bound ← remaining
  enclosed (do finish (← entries entry bound true start)) closeObject

/-- One value, whose parts are read by `inner`. -/
def looseStep (inner : Reader Loose) : Reader Loose := do
  skipBlanks
  match ← peek with
  | none => failAhead (.endOfInput .value)
  | some 'n' => do advance; word ['u', 'l', 'l']; pure .other
  | some 't' => do advance; word ['r', 'u', 'e']; pure .other
  | some 'f' => do advance; word ['a', 'l', 's', 'e']; pure .other
  | some '"' => .text <$> string
  | some '[' => do
    advance
    let _ ← listOf inner
    pure .other
  | some '\x7b' => do
    advance
    objectOf (fun () _ => do colon; let _ ← inner) (fun () => pure .other) ()
  | some c => if c = '-' ∨ isDigit c then .number <$> number else failAhead .expectedValue

/-- A value of any shape. Its depth is bounded by the characters that are left. -/
def looseWithin : (bound : Nat) → Reader Loose
  | 0 => failAhead (.endOfInput .value)
  | bound + 1 => fun cursor => looseStep (looseWithin bound) cursor

def loose : Reader Loose := do looseWithin (← remaining)

/-! ## Skipping -/

/-- Passes over the rest of a bracket. After a separator a list goes on with a value, and an object
with a key. -/
def skipRest (item : Reader Unit) (close : Char) (separator : Cause) (unclosed : Construct) :
    (bound : Nat) → Reader Unit
  | 0 => failAhead (.endOfInput unclosed)
  | bound + 1 => do
    item
    skipBlanks
    match ← peek with
    | none => failAhead (.endOfInput unclosed)
    | some c =>
      if c = ',' then do advance; skipRest item close separator unclosed bound
      else if c = close then advance
      else failAhead separator

/-- Passes over a bracket whose opening character has been taken. -/
def skipBracket (item : Reader Unit) (close : Char) (separator : Cause) (unclosed : Construct) :
    Reader Unit := do
  skipBlanks
  match ← peek with
  | none => failAhead (.endOfInput unclosed)
  | some c =>
    if c = close then advance else skipRest item close separator unclosed (← remaining)

/-- Passes over a key and its colon, and then over the value by `inner`. -/
def skipEntry (inner : Reader Unit) : Reader Unit := do
  skipBlanks
  match ← peek with
  | none => failAhead (.endOfInput .object)
  | some '"' => do skipString; colon; inner
  | some _ => failAhead .keyNotString

def skipStep (inner : Reader Unit) : Reader Unit := do
  skipBlanks
  match ← peek with
  | none => failAhead (.endOfInput .value)
  | some 'n' => do advance; word ['u', 'l', 'l']
  | some 't' => do advance; word ['r', 'u', 'e']
  | some 'f' => do advance; word ['a', 'l', 's', 'e']
  | some '"' => skipString
  | some '[' => do advance; skipBracket inner ']' .expectedListSeparator .list
  | some '\x7b' => do
    advance
    skipBracket (skipEntry inner) '\x7d' .expectedMapSeparator .object
  | some c => if c = '-' ∨ isDigit c then skipNumber else failAhead .expectedValue

/-- Passes over a value. -/
def skipWithin : (bound : Nat) → Reader Unit
  | 0 => failAhead (.endOfInput .value)
  | bound + 1 => fun cursor => skipStep (skipWithin bound) cursor

def skipValue : Reader Unit := do skipWithin (← remaining)

end Json

end SyntaxTree
