import SyntaxTree.Json.Value

/-! # Records and variants

Readers for composite values, built from readers of their parts. A record is an array of its
fields in order or an object of them in any order; a variant is an object with the variant's name
as its only key, or the bare name of a variant without contents. -/

namespace SyntaxTree

namespace Json

/-! ## Scalars -/

/-- Fails with a shape fault for the value that comes next, which is read as far as its sort needs:
a bracket stays unopened. -/
def wrongType {α : Type} (expected : String) : Reader α := located do
  match ← peek with
  | some 'n' => do advance; word ['u', 'l', 'l']; refuse .null
  | some 't' => do advance; word ['r', 'u', 'e']; refuse (.boolean true)
  | some 'f' => do advance; word ['a', 'l', 's', 'e']; refuse (.boolean false)
  | some '"' => do refuse (.string (← string))
  | some '[' => refuse .sequence
  | some '\x7b' => refuse .map
  | some c =>
    if c = '-' ∨ isDigit c then do refuse (← number).found else failAhead .expectedValue
  | none => failAhead .expectedValue
where
  refuse {α : Type} (found : Shape.Found) : Reader α := failShape (.invalidType found expected)

/-- Skips blanks to the first character of a value. -/
def valueStart : Reader Char := do
  skipBlanks
  match ← peek with
  | none => failAhead (.endOfInput .value)
  | some c => pure c

def text : Reader String := do
  if (← valueStart) = '"' then string else wrongType "a string"

def null : Reader Unit := do
  if (← valueStart) = 'n' then do advance; word ['u', 'l', 'l'] else wrongType "unit"

/-- A natural number of 64 bits. The expected type is named in shape faults. -/
def natural (expected : String) : Reader Nat := do
  let c ← valueStart
  if c = '-' ∨ isDigit c then located do
    match ← number with
    | .natural n => pure n
    | .negative n => failShape (.invalidValue (.integer (-(n : Int))) expected)
    | .float x => failShape (.invalidType (.float x) expected)
  else wrongType expected

/-- The number or the name of a number that is not finite. Its shape faults are not located here. -/
def float : Reader Binary64 := do
  match ← loose with
  | .number n => pure n.toBinary64
  | .text "nan" => pure .nan
  | .text "inf" => pure (.infinity false)
  | .text "-inf" => pure (.infinity true)
  | .text other =>
    failShape (.invalidValue (.string other) "a number, \"nan\", \"inf\" or \"-inf\"")
  | .other => failShape (.noAlternative "Repr")

/-- A list of values. -/
def list {α : Type} (item : Reader α) : Reader (List α) := do
  if (← valueStart) = '[' then do advance; listOf item else wrongType "a sequence"

/-! ## Records -/

/-- One value of each type. -/
def Values : List Type → Type
  | [] => Unit
  | α :: types => α × Values types

/-- At most one value of each type. -/
def Slots : List Type → Type
  | [] => Unit
  | α :: types => Option α × Slots types

/-- The fields of a record in order: a name, what stands for the field when it is absent if
anything does, and a reader. -/
inductive Fields : List Type → Type 1 where
  | nil : Fields []
  | cons {α : Type} {types : List Type} (name : String) (absent : Option α) (read : Reader α)
      (rest : Fields types) : Fields (α :: types)

/-- What becomes of a key that names no field. -/
inductive UnknownKeys where
  | skipped
  | refused
  deriving DecidableEq, Repr

namespace Fields

def field {α : Type} {types : List Type} (name : String) (read : Reader α)
    (rest : Fields types) : Fields (α :: types) := .cons name none read rest

def names : {types : List Type} → Fields types → List String
  | _, .nil => []
  | _, .cons name _ _ rest => name :: rest.names

def noSlots : {types : List Type} → Fields types → Slots types
  | _, .nil => ()
  | _, .cons _ _ _ rest => (none, rest.noSlots)

/-- The fields as the elements of a list, from number `index` on. `expected` describes the whole. -/
def inOrder (expected : String) : {types : List Type} → Fields types → (index : Nat) →
    Reader (Values types)
  | _, .nil, _ => pure ()
  | _, .cons _ absent read rest, index => do
    if ← nextElement (index == 0) then
      let value ← read
      let values ← rest.inOrder expected (index + 1)
      pure (value, values)
    else match absent with
      | some value => do
        let values ← rest.inOrder expected (index + 1)
        pure (value, values)
      | none => failShape (.invalidLength index expected)

/-- Reads the value of the field named `key` into its slot. There is no such reader if no field has
that name. -/
def store? : {types : List Type} → Fields types → Slots types → (key : String) →
    Option (Reader (Slots types))
  | _, .nil, _, _ => none
  | _, .cons name _ read rest, (slot, slots), key =>
    if key = name then
      some <| match slot with
        | some _ => failShape (.duplicateField name)
        | none => do
          colon
          let value ← read
          pure (some value, slots)
    else (rest.store? slots key).map fun reader => do
      let slots ← reader
      pure (slot, slots)

/-- Reads what follows a key. -/
def entry {types : List Type} (fields : Fields types) (unknown : UnknownKeys)
    (slots : Slots types) (key : String) : Reader (Slots types) :=
  match fields.store? slots key, unknown with
  | some reader, _ => reader
  | none, .skipped => do
    colon
    skipValue
    pure slots
  | none, .refused => failShape (.unknownField key fields.names)

/-- The values of all fields, or a fault for the first one that is absent. -/
def complete : {types : List Type} → Fields types → Slots types → Reader (Values types)
  | _, .nil, _ => pure ()
  | _, .cons name absent _ rest, (slot, slots) =>
    match slot.or absent with
    | some value => do
      let values ← rest.complete slots
      pure (value, values)
    | none => failShape (.missingField name)

end Fields

/-- A record, as a list of its fields in order or as an object of them. -/
def record {types : List Type} (typeName lengthName : String) (fields : Fields types)
    (unknown : UnknownKeys) : Reader (Values types) := do
  match ← valueStart with
  | '[' => do
    advance
    enclosed (fields.inOrder lengthName 0) closeList
  | '\x7b' => do
    advance
    objectOf (fields.entry unknown) fields.complete fields.noSlots
  | _ => wrongType typeName

/-! ## Variants -/

/-- What stands beside the name of a variant. -/
inductive Contents (α : Type) where
  /-- Nothing, or `null` where something has to stand. -/
  | none (value : α)
  | value (read : Reader α)
  | record (read : Reader α)

structure Variant (α : Type) where
  name : String
  contents : Contents α

/-- The name of a variant, whose opening quote comes next. -/
def variantName {α : Type} (variants : List (Variant α)) : Reader (Contents α) := located do
  let name ← string
  match variants.find? (·.name == name) with
  | some variant => pure variant.contents
  | none => failShape (.unknownVariant name (variants.map (·.name)))

def Contents.reader {α : Type} : Contents α → Reader α
  | .none a => do null; pure a
  | .value read => read
  | .record read => read

/-- The end of the object around a variant, which has no second key. -/
def closeVariant : Reader Unit := do
  skipBlanks
  match ← peek with
  | some '\x7d' => advance
  | some _ => failHere .expectedValue
  | none => failHere (.endOfInput .object)

/-- One of the variants. -/
def oneOf {α : Type} (variants : List (Variant α)) : Reader α := do
  match ← valueStart with
  | '\x7b' => do
    advance
    skipBlanks
    match ← peek with
    | some '"' => do
      let contents ← variantName variants
      colon
      let value ← contents.reader
      closeVariant
      pure value
    | some '\x7d' => failAhead .expectedValue
    | some _ => failAhead .keyNotString
    | none => failAhead (.endOfInput .object)
  | '"' => do
    match ← variantName variants with
    | .none value => pure value
    | .value _ => failShape (.invalidType .unitVariant "newtype variant")
    | .record _ => failShape (.invalidType .unitVariant "struct variant")
  | _ => failAhead .expectedValue

end Json

end SyntaxTree
