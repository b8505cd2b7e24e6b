import SyntaxTree.Json.Record
import SyntaxTree.Node

/-! # Trees as JSON

Every node is a variant named for its kind. The reader accepts a tree of any depth; the writer puts
the fields in a fixed order and no blanks anywhere. -/

namespace SyntaxTree

namespace Json

/-! ## Writing -/

/-- A finite number is written as such, and the others by name. -/
def floatValue (x : Binary64) : String :=
  if x.isNaN then "\"nan\""
  else if x.isInfinite then (if x.isNegative then "\"-inf\"" else "\"inf\"")
  else x.toShortest numberLayout

/-- An object with one key. -/
def single (key value : String) : String := "\x7b\"" ++ key ++ "\":" ++ value ++ "\x7d"

/-- An object, given the text of each value. -/
def object (entries : List (String × String)) : String :=
  "\x7b" ++ ",".intercalate (entries.map fun (key, value) => "\"" ++ key ++ "\":" ++ value) ++
    "\x7d"

/-- An array, given the text of each item. -/
def array (values : List String) : String := "[" ++ ",".intercalate values ++ "]"

end Json

open Json (single object array quote)

mutual

/-- The document of an expression, without blanks and with the fields in the order of the
constructor's arguments. -/
def Expr.toJson : Expr → String
  | .int value => single "Int" value.toNat.repr
  | .float value => single "Float" (Json.floatValue value)
  | .str value => single "Str" (quote value)
  | .name name => single "Name" (quote name)
  | .cast ty expr => single "Cast" (object [("ty", ty.toJson), ("expr", expr.toJson)])
  | .call callee args =>
    single "Call" (object [("callee", callee.toJson), ("args", array (Expr.toJsons args))])
  | .index expr index => single "Index" (object [("expr", expr.toJson), ("index", index.toJson)])
  | .field expr name => single "Field" (object [("expr", expr.toJson), ("name", quote name)])
  | .unary op expr => single "Unary" (object [("op", quote op.name), ("expr", expr.toJson)])
  | .binary op left right =>
    single "Binary"
      (object [("op", quote op.name), ("left", left.toJson), ("right", right.toJson)])
  | .ternary cond thenExpr elseExpr =>
    single "Ternary" (object
      [("cond", cond.toJson), ("then_expr", thenExpr.toJson), ("else_expr", elseExpr.toJson)])
  | .compound => quote "Compound"

def Expr.toJsons : List Expr → List String
  | [] => []
  | expr :: rest => expr.toJson :: Expr.toJsons rest

/-- The document of a type expression, written in the same way. -/
def TypeSpec.toJson : TypeSpec → String
  | .name name => single "Name" (quote name)
  | .pointer elem => single "Pointer" (object [("elem", elem.toJson)])
  | .array elem size => single "Array" (object [("elem", elem.toJson), ("size", size.toJson)])
  | .function args ret =>
    single "Function" (object [("args", array (TypeSpec.toJsons args)), ("ret", ret.toJson)])

def TypeSpec.toJsons : List TypeSpec → List String
  | [] => []
  | ty :: rest => ty.toJson :: TypeSpec.toJsons rest

end

/-- The document of a tree; the sort is not written down. -/
def Node.toJson : Node → String
  | .expr e => e.toJson
  | .typeSpec t => t.toJson

/-! ## Reading -/

namespace Json

open Fields (field)

/-- An operator is a variant without a payload, named by its word. -/
def operator {α : Type} (all : List α) (name : α → String) : Reader α :=
  oneOf (all.map fun op => ⟨name op, .none op⟩)

/-- The reader of a unary operator. -/
def unaryOp : Reader UnaryOp := operator UnaryOp.all UnaryOp.name

/-- The reader of a binary operator. -/
def binaryOp : Reader BinaryOp := operator BinaryOp.all BinaryOp.name

/-- A variant with named fields, which `build` makes a node of. -/
def fielded {α : Type} {types : List Type} (typeName name : String) (fields : Fields types)
    (build : Values types → α) : Variant α :=
  let described := "struct variant " ++ typeName ++ "::" ++ name
  let count := fields.names.length
  let counted :=
    described ++ " with " ++ count.repr ++ (if count = 1 then " element" else " elements")
  ⟨name, .record (build <$> record described counted fields .skipped)⟩

/-- The readers of the parts of a node. -/
structure NodeReaders where
  expr : Reader Expr
  typeSpec : Reader TypeSpec

/-- The variants of an expression, given the readers of its parts. The order is that in which a
fault lists the names. -/
def exprVariants (parts : NodeReaders) : List (Variant Expr) :=
  let fielded {types : List Type} := @fielded Expr types "Expr"
  [⟨"Int", .value ((fun n => .int (.ofNat n)) <$> natural "u64")⟩,
    ⟨"Float", .value (.float <$> float)⟩,
    ⟨"Str", .value (.str <$> text)⟩,
    ⟨"Name", .value (.name <$> text)⟩,
    fielded "Cast" (field "ty" parts.typeSpec <| field "expr" parts.expr .nil)
      fun (ty, expr, ()) => .cast ty expr,
    fielded "Call" (field "callee" parts.expr <| field "args" (list parts.expr) .nil)
      fun (callee, args, ()) => .call callee args,
    fielded "Index" (field "expr" parts.expr <| field "index" parts.expr .nil)
      fun (expr, index, ()) => .index expr index,
    fielded "Field" (field "expr" parts.expr <| field "name" text .nil)
      fun (expr, name, ()) => .field expr name,
    fielded "Unary" (field "op" unaryOp <| field "expr" parts.expr .nil)
      fun (op, expr, ()) => .unary op expr,
    fielded "Binary"
      (field "op" binaryOp <| field "left" parts.expr <| field "right" parts.expr .nil)
      fun (op, left, right, ()) => .binary op left right,
    fielded "Ternary"
      (field "cond" parts.expr <| field "then_expr" parts.expr <|
        field "else_expr" parts.expr .nil)
      fun (cond, thenExpr, elseExpr, ()) => .ternary cond thenExpr elseExpr,
    ⟨"Compound", .none .compound⟩]

/-- The variants of a type expression, given the readers of its parts. -/
def typeSpecVariants (parts : NodeReaders) : List (Variant TypeSpec) :=
  let fielded {types : List Type} := @fielded TypeSpec types "Typespec"
  [⟨"Name", .value (.name <$> text)⟩,
    fielded "Pointer" (field "elem" parts.typeSpec .nil) fun (elem, ()) => .pointer elem,
    fielded "Array" (field "elem" parts.typeSpec <| field "size" parts.expr .nil)
      fun (elem, size, ()) => .array elem size,
    fielded "Function" (field "args" (list parts.typeSpec) <| field "ret" parts.typeSpec .nil)
      fun (args, ret, ()) => .function args ret]

mutual

/-- An expression of at most the given depth. A deeper one would need more characters than the
bound, so the text has ended where the bound is reached. -/
def exprWithin : (bound : Nat) → Reader Expr
  | 0 => failAhead (.endOfInput .value)
  | bound + 1 => fun cursor =>
    oneOf (exprVariants ⟨exprWithin bound, typeSpecWithin bound⟩) cursor

/-- A type expression of at most the given depth; the bound goes down with either sort. -/
def typeSpecWithin : (bound : Nat) → Reader TypeSpec
  | 0 => failAhead (.endOfInput .value)
  | bound + 1 => fun cursor =>
    oneOf (typeSpecVariants ⟨exprWithin bound, typeSpecWithin bound⟩) cursor

end

/-- The reader of an expression of any depth: the text left is long enough for a bound. -/
def expr : Reader Expr := do exprWithin (← remaining)

/-- The reader of a type expression of any depth. -/
def typeSpec : Reader TypeSpec := do typeSpecWithin (← remaining)

end Json

/-- The expression that a whole document holds. -/
def Expr.ofJson (source : String) : Except Json.Failure Expr := Json.readDocument Json.expr source

/-- The type expression that a whole document holds. -/
def TypeSpec.ofJson (source : String) : Except Json.Failure TypeSpec :=
  Json.readDocument Json.typeSpec source

def UnaryOp.ofJson (source : String) : Except Json.Failure UnaryOp :=
  Json.readDocument Json.unaryOp source

def BinaryOp.ofJson (source : String) : Except Json.Failure BinaryOp :=
  Json.readDocument Json.binaryOp source

/-- The tree of a sort that a whole document holds. The sort is asked for and not guessed. -/
def Node.ofJson (sort : NodeSort) (source : String) : Except Json.Failure Node :=
  match sort with
  | .expr => (Expr.ofJson source).map .expr
  | .typeSpec => (TypeSpec.ofJson source).map .typeSpec

end SyntaxTree
