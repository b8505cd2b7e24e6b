import SyntaxTree.Decimal.Fixed
import SyntaxTree.Node
import SyntaxTree.PrintConfig

/-! # Canonical text

Every tree has one text under a configuration: composite nodes are parenthesized forms with the
operator or a keyword in front, leaves stand bare, and items are separated by one space. Strings
are quoted but not escaped. -/

namespace SyntaxTree

/-- The text of a float literal. Only finite numbers are subject to the precision. -/
def PrintConfig.floatText (config : PrintConfig) (x : Binary64) : String :=
  if x.isNaN then "nan"
  else if x.isInfinite then (if x.isNegative then "-inf" else "inf")
  else x.toFixed config.floatPrecision

mutual

/-- The text of an expression. Every composite one is bracketed, with one space between its parts;
names and the contents of strings stand as they are, without escapes. -/
def Expr.text (config : PrintConfig) : Expr → String
  | .int value => value.toNat.repr
  | .float value => config.floatText value
  | .str value => "\"" ++ value ++ "\""
  | .name name => name
  | .cast ty expr => "(cast " ++ ty.text config ++ " " ++ expr.text config ++ ")"
  | .call callee args =>
    "(" ++ " ".intercalate (callee.text config :: Expr.texts config args) ++ ")"
  | .index expr index => "(index " ++ expr.text config ++ " " ++ index.text config ++ ")"
  | .field expr name => "(field " ++ expr.text config ++ " " ++ name ++ ")"
  | .unary op expr => "(" ++ op.symbol ++ " " ++ expr.text config ++ ")"
  | .binary op left right =>
    "(" ++ op.symbol ++ " " ++ left.text config ++ " " ++ right.text config ++ ")"
  | .ternary cond thenExpr elseExpr =>
    "(if " ++ cond.text config ++ " " ++ thenExpr.text config ++ " " ++ elseExpr.text config ++ ")"
  | .compound => "(compound ...)"

def Expr.texts (config : PrintConfig) : List Expr → List String
  | [] => []
  | expr :: rest => expr.text config :: Expr.texts config rest

/-- The text of a type expression, bracketed in the same way; the argument types of a function have
brackets of their own. -/
def TypeSpec.text (config : PrintConfig) : TypeSpec → String
  | .name name => name
  | .pointer elem => "(ptr " ++ elem.text config ++ ")"
  | .array elem size => "(arr " ++ elem.text config ++ " " ++ size.text config ++ ")"
  | .function args ret =>
    "(func (" ++ " ".intercalate (TypeSpec.texts config args) ++ ") " ++ ret.text config ++ ")"

def TypeSpec.texts (config : PrintConfig) : List TypeSpec → List String
  | [] => []
  | ty :: rest => ty.text config :: TypeSpec.texts config rest

end

/-- The text of a tree of either sort. -/
def Node.text (config : PrintConfig) : Node → String
  | .expr e => e.text config
  | .typeSpec t => t.text config

/-- The texts of a list are those of its items, so that facts on `List.map` apply. -/
@[simp] theorem Expr.texts_eq_map (config : PrintConfig) (exprs : List Expr) :
    Expr.texts config exprs = exprs.map (Expr.text config) := by
  induction exprs with
  | nil => rfl
  | cons e rest ih => simp [Expr.texts, ih]

@[simp] theorem TypeSpec.texts_eq_map (config : PrintConfig) (types : List TypeSpec) :
    TypeSpec.texts config types = types.map (TypeSpec.text config) := by
  induction types with
  | nil => rfl
  | cons t rest ih => simp [TypeSpec.texts, ih]

end SyntaxTree
