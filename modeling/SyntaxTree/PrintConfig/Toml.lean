import SyntaxTree.PrintConfig.Json
import SyntaxTree.Toml.Document
import SyntaxTree.Toml.Diagnostic

/-! # Printer configuration as TOML

The root table of a configuration file may hold the key `printer` only. Its value is a table with
the key `float-precision` only, or an array whose first element is the precision. The first entry
that does not fit gives the fault. -/

namespace SyntaxTree

namespace PrintConfig

open Toml (Key Value Table Misfit)

/-- How a fault describes a value. -/
def describe : Value → Shape.Found
  | .scalar _ (.string s) => .string s
  | .scalar _ (.integer n) => .integer n
  | .scalar _ (.float x) => .float x
  | .scalar _ (.boolean b) => .boolean b
  | .scalar _ .dateTime => .map
  | .array _ _ => .sequence
  | .table _ => .map
  | .tables _ => .sequence

/-- A precision is a natural number; the cap comes later. -/
def precisionOfValue (value : Value) : Except Misfit Nat :=
  match value with
  | .scalar span (.integer n) =>
    if n < 0 then .error ⟨.invalidValue (.integer n) "usize", some span⟩ else .ok n.toNat
  | _ => .error ⟨.invalidType (describe value) "usize", value.span⟩

/-- The value of the only key that a table may hold, if it holds that. -/
def onlyEntry {α : Type} (known : String) (read : Value → Except Misfit α)
    (entries : List (Key × Value)) : Except Misfit (Option α) :=
  entries.foldlM (fun _ (key, value) =>
    if key.name = known then
      match read value with
      | .ok a => .ok (some a)
      | .error misfit => .error ((misfit.orAt value.span).orAt (some key.span))
    else .error ⟨.unknownField key.name [known], some key.span⟩) none

/-- The configuration of an array, which only its first element describes; without one the default
applies. -/
def ofElement? (first : Option Value) : Except Misfit PrintConfig :=
  match first with
  | some value => PrintConfig.mk <$> precisionOfValue value
  | none => .ok default

/-- The configuration that the value of `printer` describes. A date and time is read as a table with
a key of its own, which is an unknown one here. -/
def ofValue (value : Value) : Except Misfit PrintConfig :=
  match value with
  | .table table => do
    let precision ← onlyEntry precisionKey precisionOfValue table.entries
    pure ((precision.map PrintConfig.mk).getD default)
  | .array _ elements => ofElement? elements.head?
  | .tables elements => ofElement? (elements.head?.map .table)
  | .scalar span .dateTime =>
    .error ⟨.unknownField "$__toml_private_datetime" [precisionKey], some span⟩
  | .scalar span _ => .error ⟨.invalidType (describe value) typeName, some span⟩

/-- The configuration that a document's root table describes. The cap on the precision is not
checked here. -/
def ofRoot (root : Table) : Except Misfit PrintConfig := do
  let config ← onlyEntry "printer" ofValue root.entries
  pure (config.getD default)

end PrintConfig

end SyntaxTree
