import SyntaxTree.Json.Node
import SyntaxTree.PrintConfig

/-! # Printer configuration as JSON

An object with the one key `float-precision`, or a list of its value; without it the default
applies. The cap on the precision is not checked here. -/

namespace SyntaxTree

namespace PrintConfig

/-- The name of the option in every format. -/
def precisionKey : String := "float-precision"

/-- How shape faults name the configuration. -/
def typeName : String := "struct PrintConfig"

/-- The reader of a configuration. A key that it does not know is refused, unlike an unknown field
of a tree. -/
def json : Json.Reader PrintConfig :=
  (fun (precision, ()) => ⟨precision⟩) <$> Json.record typeName typeName
    (.cons precisionKey (some defaultPrecision) (Json.natural "usize") .nil) .refused

/-- The configuration that a document describes, whatever its precision. -/
def ofJson (source : String) : Except Json.Failure PrintConfig := Json.readDocument json source

/-- The document that describes a configuration. -/
def toJson (config : PrintConfig) : String :=
  Json.object [(precisionKey, config.floatPrecision.repr)]

end PrintConfig

end SyntaxTree
