/-! # Cursors

A place in a text: what is left of it, and how many bytes lie before. -/

namespace SyntaxTree

namespace Text

/-- The number of bytes of some text. -/
def byteLength : List Char → Nat
  | [] => 0
  | c :: text => c.utf8Size + byteLength text

@[simp] theorem byteLength_nil : byteLength [] = 0 := rfl

@[simp] theorem byteLength_cons (c : Char) (text : List Char) :
    byteLength (c :: text) = c.utf8Size + byteLength text := rfl

/-- Lengths add up, so the offset after a text does not depend on how it was cut. -/
@[simp] theorem byteLength_append (a b : List Char) :
    byteLength (a ++ b) = byteLength a + byteLength b := by
  induction a with
  | nil => simp
  | cons c a ih => simp [ih, Nat.add_assoc]

/-- A place in a text that is being read. -/
structure Cursor where
  rest : List Char
  offset : Nat
  deriving DecidableEq, Repr

namespace Cursor

/-- The beginning of a text. -/
def start (source : String) : Cursor := ⟨source.toList, 0⟩

/-- The place after the next character, if there is one. -/
def next (cursor : Cursor) : Cursor :=
  match cursor.rest with
  | [] => cursor
  | c :: rest => ⟨rest, cursor.offset + c.utf8Size⟩

/-- The place of the first character that fails the test. -/
def dropWhile (test : Char → Bool) (cursor : Cursor) : Cursor :=
  ⟨cursor.rest.dropWhile test, cursor.offset + byteLength (cursor.rest.takeWhile test)⟩

end Cursor

end Text

end SyntaxTree
