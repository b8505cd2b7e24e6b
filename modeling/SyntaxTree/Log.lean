import SyntaxTree.Node

/-! # Log records

What printing to a byte sink and loading a configuration leave in the log. -/

namespace SyntaxTree

/-- What one line of the log says. -/
inductive LogRecord where
  /-- Printing of a node of the given kind begins. -/
  | printing (sort : NodeSort) (kind : String)
  /-- The whole text of a node has been delivered. -/
  | printed (sort : NodeSort) (bytes : Nat)
  /-- A configuration has been read and accepted. -/
  | loaded (floatPrecision : Nat)
  deriving DecidableEq, Repr

/-- The level, the sort of record and its fields, as a subscriber sees them. -/
def LogRecord.text : LogRecord → String
  | .printing .expr kind => "INFO span print_expr kind=" ++ kind
  | .printing .typeSpec kind => "INFO span print_typespec kind=" ++ kind
  | .printed .expr bytes => "TRACE event printed expression bytes=" ++ bytes.repr
  | .printed .typeSpec bytes => "TRACE event printed typespec bytes=" ++ bytes.repr
  | .loaded precision =>
    "DEBUG event loaded printer config float_precision=" ++ precision.repr

end SyntaxTree
