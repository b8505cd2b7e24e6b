import SyntaxTree.Text.Hex
import SyntaxTree.Toml.Scan

/-! # Strings and keys

Strings come in four forms: with or without escapes, on one line or between tripled quotes over
several. In the latter form a line end right after the opening quotes is dropped, every line end
counts as a line feed, and a backslash at the end of a line joins it to the next text. -/

namespace SyntaxTree

namespace Toml

open Text (Cursor hexNumber?)

/-- The character that stands after the backslash of a short escape. -/
def shortEscape? : Char → Option Char
  | 'b' => some '\x08'
  | 't' => some '\t'
  | 'n' => some '\n'
  | 'f' => some '\x0c'
  | 'r' => some '\r'
  | '"' => some '"'
  | '\\' => some '\\'
  | _ => none

/-- The character with the code point that the digits write. -/
def codePoint? (digits : List Char) : Option Char := do
  let n ← hexNumber? digits
  if n.isValidChar then some (Char.ofNat n) else none

/-- Whether blanks and a line end come next. -/
def endsLine (text : List Char) : Bool :=
  match text.dropWhile Scan.isBlank with
  | '\n' :: _ => true
  | '\r' :: '\n' :: _ => true
  | _ => false

/-- The rest of a string with escapes, up to its closing quotes, which are taken. While the lines
are being joined, blanks and line ends are dropped. -/
def scanEscaped (multiline : Bool) (joining : Bool) (seen : List Char) (offset : Nat) :
    List Char → Option (String × Cursor)
  | [] => none
  | '\r' :: '\n' :: rest =>
    if !multiline then none
    else if joining then scanEscaped multiline true seen (offset + 2) rest
    else scanEscaped multiline false ('\n' :: seen) (offset + 2) rest
  | '\n' :: rest =>
    if !multiline then none
    else if joining then scanEscaped multiline true seen (offset + 1) rest
    else scanEscaped multiline false ('\n' :: seen) (offset + 1) rest
  | '"' :: '"' :: '"' :: rest =>
    if !multiline then some (String.ofList seen.reverse, ⟨'"' :: '"' :: rest, offset + 1⟩)
    else
      match rest with
      | '"' :: '"' :: rest => some (String.ofList ('"' :: '"' :: seen).reverse, ⟨rest, offset + 5⟩)
      | '"' :: rest => some (String.ofList ('"' :: seen).reverse, ⟨rest, offset + 4⟩)
      | rest => some (String.ofList seen.reverse, ⟨rest, offset + 3⟩)
  | '"' :: rest =>
    if multiline then scanEscaped multiline false ('"' :: seen) (offset + 1) rest
    else some (String.ofList seen.reverse, ⟨rest, offset + 1⟩)
  | '\\' :: 'u' :: a :: b :: c :: d :: rest => do
    let char ← codePoint? [a, b, c, d]
    scanEscaped multiline false (char :: seen) (offset + 6) rest
  | '\\' :: 'U' :: a :: b :: c :: d :: e :: f :: g :: h :: rest => do
    let char ← codePoint? [a, b, c, d, e, f, g, h]
    scanEscaped multiline false (char :: seen) (offset + 10) rest
  | '\\' :: c :: rest =>
    if multiline && endsLine (c :: rest) then
      scanEscaped multiline true seen (offset + 1 + c.utf8Size) rest
    else do
      let char ← shortEscape? c
      scanEscaped multiline false (char :: seen) (offset + 2) rest
  | c :: rest =>
    if joining && Scan.isBlank c then scanEscaped multiline true seen (offset + 1) rest
    else if Scan.isPlain c && c != '\\' then
      scanEscaped multiline false (c :: seen) (offset + c.utf8Size) rest
    else none

/-- The rest of a string without escapes, up to its closing quotes, which are taken. -/
def scanLiteral (multiline : Bool) (seen : List Char) (offset : Nat) :
    List Char → Option (String × Cursor)
  | [] => none
  | '\r' :: '\n' :: rest =>
    if multiline then scanLiteral multiline ('\n' :: seen) (offset + 2) rest else none
  | '\n' :: rest =>
    if multiline then scanLiteral multiline ('\n' :: seen) (offset + 1) rest else none
  | '\x27' :: '\x27' :: '\x27' :: rest =>
    if !multiline then some (String.ofList seen.reverse, ⟨'\x27' :: '\x27' :: rest, offset + 1⟩)
    else
      match rest with
      | '\x27' :: '\x27' :: rest =>
        some (String.ofList ('\x27' :: '\x27' :: seen).reverse, ⟨rest, offset + 5⟩)
      | '\x27' :: rest => some (String.ofList ('\x27' :: seen).reverse, ⟨rest, offset + 4⟩)
      | rest => some (String.ofList seen.reverse, ⟨rest, offset + 3⟩)
  | '\x27' :: rest =>
    if multiline then scanLiteral multiline ('\x27' :: seen) (offset + 1) rest
    else some (String.ofList seen.reverse, ⟨rest, offset + 1⟩)
  | c :: rest =>
    if Scan.isPlain c then scanLiteral multiline (c :: seen) (offset + c.utf8Size) rest else none

namespace Scan

/-- A string between single quotes or double ones, on one line. -/
def lineString : Scan String := do
  match ← peek with
  | some '"' => do
    char '"'
    fun cursor => scanEscaped false false [] cursor.offset cursor.rest
  | some '\x27' => do
    char '\x27'
    fun cursor => scanLiteral false [] cursor.offset cursor.rest
  | _ => failure

/-- A string between tripled quotes. -/
def blockString : Scan String :=
  (do
    chars ['"', '"', '"']
    optional newline
    fun cursor => scanEscaped true false [] cursor.offset cursor.rest) <|>
  (do
    chars ['\x27', '\x27', '\x27']
    optional newline
    fun cursor => scanLiteral true [] cursor.offset cursor.rest)

def string : Scan String := blockString <|> lineString

/-- Letters, digits, hyphens and underscores, all of them ASCII. -/
def isBare (c : Char) : Bool := c.isAlphanum || c == '-' || c == '_'

def bareKey : Scan String := do
  let first ← satisfying isBare
  let rest ← takeWhile isBare
  pure (String.ofList (first :: rest))

def simpleKey : Scan Key := do
  let (name, span) ← spanned (lineString <|> bareKey)
  pure ⟨name, span⟩

/-- No key has this many parts, and no value is nested as deep. -/
def depthLimit : Nat := 80

/-- A dotted key with blanks around its parts, as the parts before the last and the last one. -/
def key : Scan (List Key × Key) := do
  let parts ← separated (do blanks; let part ← simpleKey; blanks; pure part) (char '.')
  guard (parts.length < depthLimit)
  match parts.getLast? with
  | some last => pure (parts.dropLast, last)
  | none => failure

end Scan

end Toml

end SyntaxTree
