import SyntaxTree.Json.Fault
import SyntaxTree.Text.Cursor

/-! # Readers

A reader consumes the front of the text that is left. Its state survives a fault, because a shape
fault may be located only after the reading of the enclosing brackets has gone on. -/

namespace SyntaxTree

namespace Json

open Text (Cursor)

abbrev Reader (α : Type) := ExceptT Fault (StateM Cursor) α

namespace Reader

/-- Runs the reader on a cursor: the result, and the cursor where the reading stopped. -/
def on {α : Type} (reader : Reader α) (cursor : Cursor) : Except Fault α × Cursor :=
  (ExceptT.run reader).run cursor

def ofStep {α : Type} (step : Cursor → Except Fault α × Cursor) : Reader α :=
  ExceptT.mk fun cursor => step cursor

end Reader

open Reader

/-- The next character, which stays. -/
def peek : Reader (Option Char) := ofStep fun cursor => (.ok cursor.rest.head?, cursor)

/-- Takes the next character, if there is one. -/
def advance : Reader Unit := ofStep fun cursor => (.ok (), cursor.next)

/-- Takes the characters up to the first that fails the test. -/
def takeWhile (test : Char → Bool) : Reader (List Char) := ofStep fun cursor =>
  (.ok (cursor.rest.takeWhile test), cursor.dropWhile test)

def isBlank (c : Char) : Bool := c == ' ' || c == '\n' || c == '\t' || c == '\r'

def skipBlanks : Reader Unit := do
  let _ ← takeWhile isBlank

/-- The number of characters that are left, which bounds every loop of a reader. -/
def remaining : Reader Nat := ofStep fun cursor => (.ok cursor.rest.length, cursor)

/-- A fault located just before the next character. -/
def failHere {α : Type} (cause : Cause) : Reader α := ofStep fun cursor =>
  (.error ⟨cause, some cursor.offset⟩, cursor)

/-- A fault located just after the first byte of the next character, or at the end of the text. -/
def failAhead {α : Type} (cause : Cause) : Reader α := ofStep fun cursor =>
  (.error ⟨cause, some (if cursor.rest.isEmpty then cursor.offset else cursor.offset + 1)⟩, cursor)

/-- A shape fault, without a location. -/
def failShape {α : Type} (mismatch : Shape.Mismatch) : Reader α := ofStep fun cursor =>
  (.error ⟨.mismatch mismatch, none⟩, cursor)

/-- Locates the reader's fault where the reading stopped, unless it is located already. -/
def located {α : Type} (reader : Reader α) : Reader α := ofStep fun cursor =>
  let (result, stop) := reader.on cursor
  (result.mapError (Fault.locate stop.offset), stop)

/-- Reads the contents of a bracket and then its end. The end is read even after a fault of the
contents, whose fault is then the one reported; whichever it is, it is located here. -/
def enclosed {α : Type} (contents : Reader α) (close : Reader Unit) : Reader α :=
  located <| ofStep fun cursor =>
    let (result, middle) := contents.on cursor
    let (closed, stop) := close.on middle
    match result, closed with
    | .ok value, .ok () => (.ok value, stop)
    | .error fault, _ => (.error fault, stop)
    | .ok _, .error fault => (.error fault, stop)

/-- Takes exactly these characters, the rest of a bare word. -/
def word : List Char → Reader Unit
  | [] => pure ()
  | c :: rest => do
    match ← peek with
    | none => failAhead (.endOfInput .value)
    | some d => if d = c then do advance; word rest else failAhead .expectedWord

/-! ## Separators -/

/-- Goes to the next element of a list, and says whether there is one. -/
def nextElement (first : Bool) : Reader Bool := do
  skipBlanks
  match ← peek with
  | none => failAhead (.endOfInput .list)
  | some ']' => pure false
  | some c =>
    if first then pure true
    else if c = ',' then do
      advance
      skipBlanks
      match ← peek with
      | none => failAhead (.endOfInput .value)
      | some ']' => failAhead .trailingComma
      | some _ => pure true
    else failAhead .expectedListSeparator

/-- Goes to the next key of an object, and says whether there is one. -/
def nextKey (first : Bool) : Reader Bool := do
  skipBlanks
  match ← peek with
  | none => failAhead (.endOfInput .object)
  | some '\x7d' => pure false
  | some c =>
    if first then
      if c = '"' then pure true else failAhead .keyNotString
    else if c = ',' then do
      advance
      skipBlanks
      match ← peek with
      | none => failAhead (.endOfInput .value)
      | some '"' => pure true
      | some '\x7d' => failAhead .trailingComma
      | some _ => failAhead .keyNotString
    else failAhead .expectedMapSeparator

def closeList : Reader Unit := do
  skipBlanks
  match ← peek with
  | none => failAhead (.endOfInput .list)
  | some ']' => advance
  | some ',' => do
    advance
    skipBlanks
    match ← peek with
    | some ']' => failAhead .trailingComma
    | _ => failAhead .trailingCharacters
  | some _ => failAhead .trailingCharacters

def closeObject : Reader Unit := do
  skipBlanks
  match ← peek with
  | none => failAhead (.endOfInput .object)
  | some '\x7d' => advance
  | some ',' => failAhead .trailingComma
  | some _ => failAhead .trailingCharacters

def colon : Reader Unit := do
  skipBlanks
  match ← peek with
  | none => failAhead (.endOfInput .object)
  | some ':' => advance
  | some _ => failAhead .expectedColon

/-! ## Loops -/

/-- The elements of a list up to its end, each read by `item`. The first argument bounds their
number by the characters that are left. -/
def elements {α : Type} (item : Reader α) : (bound : Nat) → (first : Bool) → Reader (List α)
  | 0, _ => failAhead (.endOfInput .list)
  | bound + 1, first => do
    if ← nextElement first then
      let value ← item
      let values ← elements item bound false
      pure (value :: values)
    else pure []

/-- The list whose opening bracket has been taken. -/
def listOf {α : Type} (item : Reader α) : Reader (List α) := do
  enclosed (elements item (← remaining) true) closeList

/-- The whole document that `reader` reads, which only blanks may follow. -/
def document {α : Type} (reader : Reader α) : Reader α := do
  let value ← reader
  skipBlanks
  match ← peek with
  | none => pure value
  | some _ => failAhead .trailingCharacters

def readDocument {α : Type} (reader : Reader α) (source : String) : Except Failure α :=
  ((document reader).on (.start source)).1.mapError (Fault.toFailure source)

end Json

end SyntaxTree
