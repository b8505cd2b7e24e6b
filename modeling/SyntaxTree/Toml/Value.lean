import SyntaxTree.Binary64

/-! # TOML values

A document is a table of keys and values in the order in which they entered it. Keys and values
remember where they were written, and a table remembers how it came about, which decides what may
still be added to it. -/

namespace SyntaxTree

namespace Toml

/-- A range of byte offsets. -/
structure Span where
  start : Nat
  stop : Nat
  deriving DecidableEq, Repr

/-- A key with the bytes it was written in. -/
structure Key where
  name : String
  span : Span
  deriving DecidableEq, Repr

/-- How a table came about. -/
inductive Origin where
  /-- A header names the table itself, or it is the root. -/
  | header
  /-- The table lies on the way to a table that a header names. -/
  | implicit
  /-- The table lies on the way to a value that a dotted key names. -/
  | dotted
  /-- The table is written between braces. -/
  | inline
  deriving DecidableEq, Repr

/-- A value without parts. Of a date and time only the presence matters. -/
inductive Scalar where
  | string (value : String)
  | integer (value : Int)
  | float (value : Binary64)
  | boolean (value : Bool)
  /-- A date, a time or both, of which nothing else is kept. -/
  | dateTime
  deriving DecidableEq, Repr

mutual

/-- A value with the bytes it was written in. -/
inductive Value where
  | scalar (span : Span) (value : Scalar)
  | array (span : Span) (elements : List Value)
  | table (table : Table)
  /-- The tables that headers with doubled brackets name, in order. -/
  | tables (elements : List Table)

/-- A table that was not written in one place has no span. -/
inductive Table where
  | mk (span : Option Span) (origin : Origin) (entries : List (Key × Value))

end

namespace Table

def span : Table → Option Span
  | mk span _ _ => span

def origin : Table → Origin
  | mk _ origin _ => origin

def entries : Table → List (Key × Value)
  | mk _ _ entries => entries

/-- The value under a key. -/
def find? (table : Table) (name : String) : Option Value :=
  (table.entries.find? (·.1.name == name)).map (·.2)

/-- Puts a new entry behind all others. -/
def push (table : Table) (key : Key) (value : Value) : Table :=
  mk table.span table.origin (table.entries ++ [(key, value)])

/-- Gives the key another value, in its place. -/
def set (table : Table) (name : String) (value : Value) : Table :=
  mk table.span table.origin
    (table.entries.map fun entry => if entry.1.name == name then (entry.1, value) else entry)

/-- The table without a key. -/
def erase (table : Table) (name : String) : Table :=
  mk table.span table.origin (table.entries.filter (·.1.name != name))

end Table

/-- The span from the start of the first table to the end of the last. -/
def spanOfTables (tables : List Table) : Option Span := do
  let first ← tables.head?
  let last ← tables.getLast?
  pure ⟨(← first.span).start, (← last.span).stop⟩

/-- The bytes a value was written in, where it was written in one piece. -/
def Value.span : Value → Option Span
  | .scalar span _ => some span
  | .array span _ => some span
  | .table t => t.span
  | .tables ts => spanOfTables ts

namespace Table

/-- Whether a path may pass through a table. A dotted key never enters a table that a header has
defined, and nothing enters a table between braces. -/
def mayEnter (purpose : Origin) (table : Table) : Bool :=
  match purpose, table.origin with
  | _, .inline => false
  | .dotted, .header => false
  | _, _ => true

/-- Changes the table at the end of a path. Tables that are missing on the way are made, with the
given origin; an array of tables is entered at its last element. -/
def changeAt {α : Type} (purpose : Origin) (change : Table → Option (α × Table)) :
    List Key → Table → Option (α × Table)
  | [], table => change table
  | key :: path, table =>
    match table.find? key.name with
    | none => do
      let (result, child) ← changeAt purpose change path (mk none purpose [])
      pure (result, table.push key (.table child))
    | some (.table child) =>
      if child.mayEnter purpose then do
        let (result, child) ← changeAt purpose change path child
        pure (result, table.set key.name (.table child))
      else none
    | some (.tables elements) => do
      let last ← elements.getLast?
      let (result, last) ← changeAt purpose change path last
      pure (result, table.set key.name (.tables (elements.dropLast ++ [last])))
    | some _ => none

/-- Adds an entry under a possibly dotted key. A dotted key has to end in a table that dotted keys
have made, and the last part of the key has to be new there. -/
def insert (table : Table) (path : List Key) (key : Key) (value : Value) : Option Table :=
  let change (target : Table) : Option (Unit × Table) :=
    if (target.origin == .dotted) == path.isEmpty then none
    else if (target.find? key.name).isSome then none
    else some ((), target.push key value)
  (changeAt .dotted change path table).map (·.2)

end Table

end Toml

end SyntaxTree
