import SyntaxTree.Json.Node
import SyntaxTree.PrintConfig.Load
import SyntaxTree.Print.Delivery

/-! # Errors

Building and printing trees cannot fail. Errors arise where data enters or leaves: operator codes
and symbols, kind tags, serialized trees, byte sinks and configurations. -/

namespace SyntaxTree

/-- Whatever can go wrong at the boundary, with what was found there. -/
inductive Error where
  | unknownOperatorCode (code : Char)
  | unknownOperator (symbol : String)
  | unknownKindTag (sort : NodeSort) (tag : Nat)
  | malformed (failure : Json.Failure)
  | delivery (cause : DeliveryError)
  | config (cause : PrintConfig.LoadError)
  deriving DecidableEq, Repr

namespace Error

/-- The text that a caller sees. A configuration error speaks for itself; the two that wrap a fault
say first what was going on. -/
def message : Error → String
  | .unknownOperatorCode code => "token code '" ++ String.singleton code ++ "' is not an operator"
  | .unknownOperator symbol => "unknown operator '" ++ symbol ++ "'"
  | .unknownKindTag sort tag => "unknown " ++ sort.label ++ " kind tag " ++ tag.repr
  | .malformed failure => "malformed syntax tree: " ++ failure.message
  | .delivery cause => "failed to write to output sink: " ++ cause.message
  | .config cause => cause.message

end Error

/-! ## Lookups that fail with an error -/

/-- The unary operator with a one-character code; the error names the code. -/
def UnaryOp.ofCode (code : Char) : Except Error UnaryOp :=
  match ofCode? code with
  | some op => .ok op
  | none => .error (.unknownOperatorCode code)

/-- The unary operator with a spelling; the error repeats the spelling. -/
def UnaryOp.ofSymbol (symbol : String) : Except Error UnaryOp :=
  match ofSymbol? symbol with
  | some op => .ok op
  | none => .error (.unknownOperator symbol)

/-- The binary operator with a one-character code; the error is that of a unary one. -/
def BinaryOp.ofCode (code : Char) : Except Error BinaryOp :=
  match ofCode? code with
  | some op => .ok op
  | none => .error (.unknownOperatorCode code)

/-- The binary operator with a spelling; the error is that of a unary one. -/
def BinaryOp.ofSymbol (symbol : String) : Except Error BinaryOp :=
  match ofSymbol? symbol with
  | some op => .ok op
  | none => .error (.unknownOperator symbol)

/-- The kind of expression with a tag; the error names the sort and the tag. -/
def Expr.Kind.ofTag (tag : Nat) : Except Error Expr.Kind :=
  match ofTag? tag with
  | some kind => .ok kind
  | none => .error (.unknownKindTag .expr tag)

/-- The kind of type expression with a tag; the error names the sort and the tag. -/
def TypeSpec.Kind.ofTag (tag : Nat) : Except Error TypeSpec.Kind :=
  match ofTag? tag with
  | some kind => .ok kind
  | none => .error (.unknownKindTag .typeSpec tag)

end SyntaxTree
