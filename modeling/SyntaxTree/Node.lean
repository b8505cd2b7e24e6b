import SyntaxTree.Binary64
import SyntaxTree.Operator

/-! # Syntax trees

Expressions and type expressions, as a parser builds them. Names and string contents are kept as
written, and any combination of well-typed parts is a tree; nothing is checked here. -/

namespace SyntaxTree

mutual

/-- An expression. Operands come in the order in which they are printed. -/
inductive Expr where
  | int (value : UInt64)
  | float (value : Binary64)
  | str (value : String)
  | name (name : String)
  | cast (ty : TypeSpec) (expr : Expr)
  | call (callee : Expr) (args : List Expr)
  | index (expr : Expr) (index : Expr)
  | field (expr : Expr) (name : String)
  | unary (op : UnaryOp) (expr : Expr)
  | binary (op : BinaryOp) (left : Expr) (right : Expr)
  | ternary (cond : Expr) (thenExpr : Expr) (elseExpr : Expr)
  /-- A compound literal, without its elements. -/
  | compound

/-- A type expression. The size of an array is an expression, so each sort may hold the other. -/
inductive TypeSpec where
  | name (name : String)
  | pointer (elem : TypeSpec)
  | array (elem : TypeSpec) (size : Expr)
  | function (args : List TypeSpec) (ret : TypeSpec)

end

instance : Inhabited Expr := ⟨.compound⟩
instance : Inhabited TypeSpec := ⟨.name ""⟩

/-- The two sorts of tree. -/
inductive NodeSort where
  | expr
  | typeSpec
  deriving DecidableEq, Repr

/-- How log records and errors call a sort. -/
def NodeSort.label : NodeSort → String
  | .expr => "expr"
  | .typeSpec => "typespec"

/-- A tree of either sort. -/
inductive Node where
  | expr (expr : Expr)
  | typeSpec (ty : TypeSpec)

namespace Expr

/-- The kinds of expression, one for each constructor. -/
inductive Kind where
  | int
  | float
  | str
  | name
  | cast
  | call
  | index
  | field
  | unary
  | binary
  | ternary
  | compound
  deriving DecidableEq, Repr

/-- The constructor that an expression is made with. -/
def kind : Expr → Kind
  | .int _ => .int
  | .float _ => .float
  | .str _ => .str
  | .name _ => .name
  | .cast _ _ => .cast
  | .call _ _ => .call
  | .index _ _ => .index
  | .field _ _ => .field
  | .unary _ _ => .unary
  | .binary _ _ _ => .binary
  | .ternary _ _ _ => .ternary
  | .compound => .compound

namespace Kind

/-- Every kind, in the order of the tags. -/
def all : List Kind :=
  [.int, .float, .str, .name, .cast, .call, .index, .field, .unary, .binary, .ternary, .compound]

/-- The number that stands for a kind outside the library. -/
def tag : Kind → Nat
  | .int => 0
  | .float => 1
  | .str => 2
  | .name => 3
  | .cast => 4
  | .call => 5
  | .index => 6
  | .field => 7
  | .unary => 8
  | .binary => 9
  | .ternary => 10
  | .compound => 11

/-- The kind with a number, if the number is below the count of kinds. -/
def ofTag? (tag : Nat) : Option Kind := all[tag]?

/-- How log records call a kind. -/
def label : Kind → String
  | .int => "int"
  | .float => "float"
  | .str => "str"
  | .name => "name"
  | .cast => "cast"
  | .call => "call"
  | .index => "index"
  | .field => "field"
  | .unary => "unary"
  | .binary => "binary"
  | .ternary => "ternary"
  | .compound => "compound"

/-- A number leads to a kind exactly if it is the tag of that kind. -/
theorem ofTag?_eq_some_iff {tag : Nat} {kind : Kind} : ofTag? tag = some kind ↔ kind.tag = tag := by
  constructor
  · intro h
    obtain ⟨ht, rfl⟩ := List.getElem?_eq_some_iff.1 h
    have tags : ∀ t : Fin 12, (all[t.val]?).map Kind.tag = some t.val := by decide
    simpa [List.getElem?_eq_getElem ht] using tags ⟨tag, ht⟩
  · rintro rfl
    cases kind <;> rfl

end Kind

end Expr

namespace TypeSpec

/-- The kinds of type expression, one for each constructor. -/
inductive Kind where
  | name
  | pointer
  | array
  | function
  deriving DecidableEq, Repr

/-- The constructor that a type expression is made with. -/
def kind : TypeSpec → Kind
  | .name _ => .name
  | .pointer _ => .pointer
  | .array _ _ => .array
  | .function _ _ => .function

namespace Kind

/-- Every kind, in the order of the tags. -/
def all : List Kind := [.name, .pointer, .array, .function]

/-- The number that stands for a kind; the two sorts are numbered apart. -/
def tag : Kind → Nat
  | .name => 0
  | .pointer => 1
  | .array => 2
  | .function => 3

def ofTag? (tag : Nat) : Option Kind := all[tag]?

def label : Kind → String
  | .name => "name"
  | .pointer => "pointer"
  | .array => "array"
  | .function => "function"

/-- A number leads to a kind exactly if it is the tag of that kind. -/
theorem ofTag?_eq_some_iff {tag : Nat} {kind : Kind} : ofTag? tag = some kind ↔ kind.tag = tag := by
  constructor
  · intro h
    obtain ⟨ht, rfl⟩ := List.getElem?_eq_some_iff.1 h
    have tags : ∀ t : Fin 4, (all[t.val]?).map Kind.tag = some t.val := by decide
    simpa [List.getElem?_eq_getElem ht] using tags ⟨tag, ht⟩
  · rintro rfl
    cases kind <;> rfl

end Kind

end TypeSpec

namespace Node

/-- The sort of a tree. -/
def sort : Node → NodeSort
  | .expr _ => .expr
  | .typeSpec _ => .typeSpec

def kindLabel : Node → String
  | .expr e => e.kind.label
  | .typeSpec t => t.kind.label

def kindTag : Node → Nat
  | .expr e => e.kind.tag
  | .typeSpec t => t.kind.tag

end Node

end SyntaxTree
