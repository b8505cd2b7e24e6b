import SyntaxTree.Decimal.Layout
import SyntaxTree.Text.Quoted

/-! # Shape mismatches

What is wrong with a well-formed value that does not have the shape asked for. The wording is the
same for every format, except that each format has a layout of its own for the numbers it quotes. -/

namespace SyntaxTree

namespace Shape

/-- What stood where something else was expected. -/
inductive Found where
  | null
  | boolean (value : Bool)
  | integer (value : Int)
  | float (value : Binary64)
  | string (value : String)
  | sequence
  | map
  | unitVariant
  deriving DecidableEq, Repr

/-- A value of the wrong shape, with what would have been right. -/
inductive Mismatch where
  | invalidType (found : Found) (expected : String)
  | invalidValue (found : Found) (expected : String)
  | invalidLength (length : Nat) (expected : String)
  | unknownVariant (name : String) (known : List String)
  | unknownField (name : String) (known : List String)
  | missingField (name : String)
  | duplicateField (name : String)
  /-- The value has none of the shapes of the union. -/
  | noAlternative (union : String)
  deriving DecidableEq, Repr

/-- The text of a number in a message. -/
def floatText (layout : Decimal.Layout) (x : Binary64) : String :=
  if x.isNaN then "NaN"
  else if x.isInfinite then (if x.isNegative then "-inf" else "inf")
  else x.toShortest layout

/-- How a message describes the value found. Numbers are written in the layout of the format at
hand. -/
def Found.text (layout : Decimal.Layout) : Found → String
  | .null => "null"
  | .boolean value => "boolean `" ++ (if value then "true" else "false") ++ "`"
  | .integer value =>
    "integer `" ++ (if value < 0 then "-" else "") ++ value.natAbs.repr ++ "`"
  | .float value => "floating point `" ++ floatText layout value ++ "`"
  | .string value => "string " ++ Text.quoted value
  | .sequence => "sequence"
  | .map => "map"
  | .unitVariant => "unit variant"

/-- The names that would have been understood. -/
def alternatives : List String → String
  | [a] => "`" ++ a ++ "`"
  | [a, b] => "`" ++ a ++ "` or `" ++ b ++ "`"
  | names => "one of " ++ ", ".intercalate (names.map fun name => "`" ++ name ++ "`")

/-- The message of a mismatch. -/
def Mismatch.text (layout : Decimal.Layout) : Mismatch → String
  | .invalidType found expected =>
    "invalid type: " ++ found.text layout ++ ", expected " ++ expected
  | .invalidValue found expected =>
    "invalid value: " ++ found.text layout ++ ", expected " ++ expected
  | .invalidLength length expected =>
    "invalid length " ++ length.repr ++ ", expected " ++ expected
  | .unknownVariant name known =>
    "unknown variant `" ++ name ++ "`, expected " ++ alternatives known
  | .unknownField name known =>
    "unknown field `" ++ name ++ "`, expected " ++ alternatives known
  | .missingField name => "missing field `" ++ name ++ "`"
  | .duplicateField name => "duplicate field `" ++ name ++ "`"
  | .noAlternative union => "data did not match any variant of untagged enum " ++ union

end Shape

end SyntaxTree
