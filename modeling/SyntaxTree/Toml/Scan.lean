import SyntaxTree.Text.Cursor
import SyntaxTree.Toml.Value

/-! # Scanning

A scanner takes the front of the text or fails; on failure an alternative starts again from the
same place. No fault is described, because a text that is no document is refused as a whole. -/

namespace SyntaxTree

namespace Toml

open Text (Cursor)

/-- A scanner from one place in the text to another. -/
abbrev Scan (α : Type) := StateT Cursor Option α

namespace Scan

/-- One character that passes the test. -/
def satisfying (test : Char → Bool) : Scan Char := fun cursor =>
  match cursor.rest with
  | [] => none
  | c :: rest => if test c then some (c, ⟨rest, cursor.offset + c.utf8Size⟩) else none

/-- The given character. -/
def char (c : Char) : Scan Unit := do
  let _ ← satisfying (· == c)

/-- The given characters in a row. -/
def chars : List Char → Scan Unit
  | [] => pure ()
  | c :: rest => do
    char c
    chars rest

/-- The next character, which is not taken. -/
def peek : Scan (Option Char) := fun cursor => some (cursor.rest.head?, cursor)

/-- The longest run of characters that pass the test, which may be empty. -/
def takeWhile (test : Char → Bool) : Scan (List Char) := fun cursor =>
  some (cursor.rest.takeWhile test, cursor.dropWhile test)

/-- The number of characters left. -/
def remaining : Scan Nat := fun cursor => some (cursor.rest.length, cursor)

/-- Nothing, at the end of the text only. -/
def atEnd : Scan Unit := fun cursor => if cursor.rest.isEmpty then some ((), cursor) else none

/-- What the scanner takes, or nothing. -/
def optional (scan : Scan Unit) : Scan Unit := scan <|> pure ()

/-- At most the given number of items in a row. -/
def manyWithin {α : Type} (scan : Scan α) : (bound : Nat) → Scan (List α)
  | 0 => pure []
  | bound + 1 =>
    (do
      let value ← scan
      let values ← manyWithin scan bound
      pure (value :: values)) <|> pure []

/-- As many as there are, of something that is never empty. -/
def many {α : Type} (scan : Scan α) : Scan (List α) := do manyWithin scan (← remaining)

/-- Any number of items with a separator between two. -/
def separated {α : Type} (item : Scan α) (separator : Scan Unit) : Scan (List α) :=
  (do
    let first ← item
    let rest ← many (do separator; item)
    pure (first :: rest)) <|> pure []

/-- What the scanner takes, with the bytes it stretches over. -/
def spanned {α : Type} (scan : Scan α) : Scan (α × Span) := fun cursor => do
  let (value, stop) ← scan cursor
  pure ((value, ⟨cursor.offset, stop.offset⟩), stop)

/-! ## Blanks and lines -/

/-- The characters that may stand between two tokens of a line. -/
def isBlank (c : Char) : Bool := c == ' ' || c == '\t'

/-- The characters beyond ASCII, all of which may stand in comments and strings. -/
def isNonAscii (c : Char) : Bool := 0x80 ≤ c.toNat

/-- Every character that may stand in a comment. -/
def isPlain (c : Char) : Bool := c == '\t' || (0x20 ≤ c.toNat && c.toNat ≤ 0x7e) || isNonAscii c

/-- Any number of blanks. -/
def blanks : Scan Unit := do
  let _ ← takeWhile isBlank

/-- The end of a line in either convention. -/
def newline : Scan Unit := char '\n' <|> chars ['\r', '\n']

/-- A comment up to the end of its line, which is left. -/
def comment : Scan Unit := do
  char '#'
  let _ ← takeWhile isPlain

/-- The end of a line, after blanks and a comment. -/
def lineEnd : Scan Unit := do
  blanks
  optional comment
  newline <|> atEnd

/-- Blanks, line ends and comments, as between the elements of an array. -/
def gap : Scan Unit := do
  let _ ← many ((do let _ ← satisfying isBlank) <|> newline <|> comment)

end Scan

end Toml

end SyntaxTree
