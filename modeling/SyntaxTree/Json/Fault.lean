import SyntaxTree.Shape.Mismatch

/-! # Faults in JSON text

Why a text is refused, and where. A fault of the grammar is located when it is met; a fault of the
shape is located later, by the nearest enclosing reader that locates what passes through it, or
never. -/

namespace SyntaxTree

namespace Json

/-- Numbers from `0.00001` to below `10 ^ 16` are written plainly, others with an exponent. -/
def numberLayout : Decimal.Layout := ⟨fun order => -5 ≤ order && order ≤ 15, .toEven⟩

/-- What was being read when the text ended. -/
inductive Construct where
  | value
  | string
  | list
  | object
  deriving DecidableEq, Repr

/-- What a reader can object to, without the place. -/
inductive Cause where
  | endOfInput (inside : Construct)
  | expectedColon
  | expectedListSeparator
  | expectedMapSeparator
  | expectedWord
  | expectedValue
  | invalidEscape
  | invalidNumber
  | numberOutOfRange
  | loneSurrogate
  | unfinishedSurrogatePair
  | controlCharacter
  | keyNotString
  | trailingComma
  | trailingCharacters
  | mismatch (what : Shape.Mismatch)
  deriving DecidableEq, Repr

/-- How the message calls what was being read when the text ended. -/
def Construct.text : Construct → String
  | .value => "a value"
  | .string => "a string"
  | .list => "a list"
  | .object => "an object"

/-- The message of a cause, before the place is appended. -/
def Cause.text : Cause → String
  | .endOfInput inside => "EOF while parsing " ++ inside.text
  | .expectedColon => "expected `:`"
  | .expectedListSeparator => "expected `,` or `]`"
  | .expectedMapSeparator => "expected `,` or `\x7d`"
  | .expectedWord => "expected ident"
  | .expectedValue => "expected value"
  | .invalidEscape => "invalid escape"
  | .invalidNumber => "invalid number"
  | .numberOutOfRange => "number out of range"
  | .loneSurrogate => "lone leading surrogate in hex escape"
  | .unfinishedSurrogatePair => "unexpected end of hex escape"
  | .controlCharacter => "control character (\\u0000-\\u001F) found while parsing a string"
  | .keyNotString => "key must be a string"
  | .trailingComma => "trailing comma"
  | .trailingCharacters => "trailing characters"
  | .mismatch what => what.text numberLayout

/-- A fault with the byte offset that it is reported at, once it has one. -/
structure Fault where
  cause : Cause
  offset : Option Nat
  deriving DecidableEq, Repr

/-- Gives the fault an offset, unless it has one. -/
def Fault.locate (offset : Nat) (fault : Fault) : Fault :=
  { fault with offset := fault.offset.or (some offset) }

/-- A line, counted from one, and the number of bytes before the place on it. -/
structure Position where
  line : Nat
  column : Nat
  deriving DecidableEq, Repr

namespace Position

/-- Moves over the characters that begin before the byte `offset`, where `here` is the position of
the byte `start`. The offset may lie inside the last of them. -/
def advance (offset : Nat) : (start : Nat) → (here : Position) → List Char → Position
  | _, here, [] => here
  | start, here, c :: rest =>
    if offset ≤ start then here
    else if c = '\n' then advance offset (start + 1) ⟨here.line + 1, 0⟩ rest
    else
      let next := min offset (start + c.utf8Size)
      advance offset (start + c.utf8Size) ⟨here.line, here.column + (next - start)⟩ rest

/-- The place of an offset in a text. -/
def ofOffset (source : String) (offset : Nat) : Position :=
  advance offset 0 ⟨1, 0⟩ source.toList

end Position

/-- Why a document was refused, and where if that is known. -/
structure Failure where
  cause : Cause
  position : Option Position
  deriving DecidableEq, Repr

/-- The message with its line and column. -/
def Failure.message (failure : Failure) : String :=
  failure.cause.text ++
    match failure.position with
    | some p => " at line " ++ p.line.repr ++ " column " ++ p.column.repr
    | none => ""

/-- The failure that a fault at an offset amounts to, once the text around it is known. -/
def Fault.toFailure (source : String) (fault : Fault) : Failure :=
  ⟨fault.cause, fault.offset.map (Position.ofOffset source)⟩

end Json

end SyntaxTree
