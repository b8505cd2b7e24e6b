import SyntaxTree.Toml.DateTime
import SyntaxTree.Toml.Quoted

/-! # Values and statements

A document is a sequence of statements, each on lines of its own: a header that opens a table, or a
key with a value. -/

namespace SyntaxTree

namespace Toml

inductive Statement where
  /-- The header of a table, or of one more element of an array of tables. -/
  | header (isElement : Bool) (span : Span) (path : List Key) (key : Key)
  | entry (path : List Key) (key : Key) (value : Value)

namespace Scan

/-- An array, whose elements are read by `inner`. A comma may stand after the last one. -/
def array (inner : Scan Value) : Scan (List Value) := do
  char '['
  let elements ← separated (do gap; let value ← inner; gap; pure value) (char ',')
  if !elements.isEmpty then optional (char ',')
  gap
  char ']'
  pure elements

/-- A key and its value, with blanks around them. -/
def keyValue (inner : Scan Value) : Scan (List Key × Key × Value) := do
  let (path, key) ← key
  char '='
  blanks
  let value ← inner
  pure (path, key, value)

/-- The entries between braces, as a table that nothing may be added to. -/
def inlineTable (inner : Scan Value) : Scan (List (Key × Value)) := do
  char '\x7b'
  let entries ← separated (do let entry ← keyValue inner; blanks; pure entry) (char ',')
  blanks
  char '\x7d'
  let table : Table := .mk none .inline []
  let table ← entries.foldlM (fun (table : Table) (path, key, value) => table.insert path key value)
    table
  pure table.entries

/-- A value that is no array and no table. -/
def scalar : Scan Scalar := do
  match ← peek with
  | some 't' => do chars ['t', 'r', 'u', 'e']; pure (.boolean true)
  | some 'f' => do chars ['f', 'a', 'l', 's', 'e']; pure (.boolean false)
  | some '"' => .string <$> string
  | some '\x27' => .string <$> string
  | _ => (do dateTime; pure .dateTime) <|> (.float <$> float) <|> (.integer <$> integer)

/-- A scalar with the place where it stands. -/
def scalarValue : Scan Value := do
  let (value, span) ← spanned scalar
  pure (.scalar span value)

/-- A value in which brackets are nested at most `depth` deep. -/
def valueWithin : (depth : Nat) → Scan Value
  | 0 => scalarValue
  | depth + 1 => do
    match ← peek with
    | some '[' => do
      let (elements, span) ← spanned (array (valueWithin depth))
      pure (.array span elements)
    | some '\x7b' => do
      let (entries, span) ← spanned (inlineTable (valueWithin depth))
      pure (.table (.mk (some span) .inline entries))
    | _ => scalarValue

def value : Scan Value := valueWithin (depthLimit - 1)

/-- A key in single or doubled brackets. -/
def header : Scan Statement :=
  (do
    let ((path, key), span) ← spanned do
      chars ['[', '[']
      let parts ← key
      chars [']', ']']
      pure parts
    pure (.header true span path key)) <|>
  (do
    let ((path, key), span) ← spanned do
      char '['
      let parts ← key
      char ']'
      pure parts
    pure (.header false span path key))

def entry : Scan Statement := do
  let (path, key, value) ← keyValue value
  pure (.entry path key value)

/-- The statements up to the end of the text. -/
def statementsWithin : (bound : Nat) → Scan (List Statement)
  | 0 => do
    atEnd
    pure []
  | bound + 1 => do
    blanks
    match ← peek with
    | none => pure []
    | some '\n' => do newline; statementsWithin bound
    | some '\r' => do newline; statementsWithin bound
    | some '#' => do lineEnd; statementsWithin bound
    | some c => do
      let statement ← if c == '[' then header else entry
      lineEnd
      let statements ← statementsWithin bound
      pure (statement :: statements)

/-- A document, which may begin with a byte order mark. -/
def document : Scan (List Statement) := do
  optional (char '\ufeff')
  statementsWithin (← remaining)

end Scan

/-- The statements of a text, if it has the form of a document. -/
def statements? (source : String) : Option (List Statement) :=
  ((Scan.document).run (.start source)).map (·.1)

end Toml

end SyntaxTree
