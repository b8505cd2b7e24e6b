import SyntaxTree.Print.Text

/-! # Sample trees

A few trees of every kind with their canonical texts, and a chain of negations of any depth. -/

namespace SyntaxTree

namespace Sample

/-- The number 3.14. -/
def threePointOneFour : Binary64 := ⟨0x40091EB851EB851F⟩

def exprs : List Expr :=
  [.binary .add (.int 1) (.int 2),
    .unary .neg (.float threePointOneFour),
    .ternary (.name "flag") (.str "true") (.str "false"),
    .field (.name "person") "name",
    .call (.name "fact") [.int 42],
    .index (.field (.name "person") "siblings") (.int 3),
    .cast (.pointer (.name "int")) (.name "void_ptr")]

/-- The texts of the sample expressions under the default configuration. -/
def exprTexts : List String :=
  ["(+ 1 2)",
    "(- 3.140000)",
    "(if flag \"true\" \"false\")",
    "(field person name)",
    "(fact 42)",
    "(index (field person siblings) 3)",
    "(cast (ptr int) void_ptr)"]

def typeSpecs : List TypeSpec :=
  [.name "int",
    .pointer (.pointer (.name "char")),
    .array (.name "float") (.binary .mul (.name "N") (.int 4)),
    .function [.name "int", .pointer (.name "void")] (.name "bool")]

/-- The texts of the sample type expressions. -/
def typeSpecTexts : List String :=
  ["int",
    "(ptr (ptr char))",
    "(arr float (* N 4))",
    "(func (int (ptr void)) bool)"]

/-- The expression under a number of negations. -/
def nestedNegation (leaf : Expr) : (depth : Nat) → Expr
  | 0 => leaf
  | depth + 1 => .unary .neg (nestedNegation leaf depth)

/-- The text of a chain of negations around a leaf with the given text. -/
def nestedNegationText (leaf : String) (depth : Nat) : String :=
  String.join (List.replicate depth "(- ") ++ leaf ++ String.join (List.replicate depth ")")

end Sample

end SyntaxTree
