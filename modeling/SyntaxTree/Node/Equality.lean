import SyntaxTree.Node

/-! # Equality of trees

Two trees are equal when they have the same shape and equal leaves, where float literals are
compared as numbers: the two zeros are equal, and a tree that holds a not-a-number differs even
from itself. An expression never equals a type expression. -/

namespace SyntaxTree

mutual

/-- Expressions are compared constructor by constructor, and floats by value: a not-a-number makes a
tree unequal to itself, and the two zeros are equal. -/
def Expr.eq : Expr → Expr → Bool
  | .int a, .int b => a == b
  | .float a, .float b => a.eq b
  | .str a, .str b => a == b
  | .name a, .name b => a == b
  | .cast t a, .cast u b => t.eq u && a.eq b
  | .call f as, .call g bs => f.eq g && Expr.eqList as bs
  | .index a i, .index b j => a.eq b && i.eq j
  | .field a n, .field b m => a.eq b && n == m
  | .unary o a, .unary p b => o == p && a.eq b
  | .binary o a a', .binary p b b' => o == p && a.eq b && a'.eq b'
  | .ternary c a a', .ternary d b b' => c.eq d && a.eq b && a'.eq b'
  | .compound, .compound => true
  | _, _ => false

/-- Argument lists are equal when they are as long and equal item by item. -/
def Expr.eqList : List Expr → List Expr → Bool
  | [], [] => true
  | a :: as, b :: bs => a.eq b && Expr.eqList as bs
  | _, _ => false

/-- Type expressions are compared in the same way, the sizes of arrays as expressions. -/
def TypeSpec.eq : TypeSpec → TypeSpec → Bool
  | .name a, .name b => a == b
  | .pointer t, .pointer u => t.eq u
  | .array t a, .array u b => t.eq u && a.eq b
  | .function ts t, .function us u => TypeSpec.eqList ts us && t.eq u
  | _, _ => false

def TypeSpec.eqList : List TypeSpec → List TypeSpec → Bool
  | [], [] => true
  | t :: ts, u :: us => t.eq u && TypeSpec.eqList ts us
  | _, _ => false

end

/-- Trees of different sorts are never equal. -/
def Node.eq : Node → Node → Bool
  | .expr a, .expr b => a.eq b
  | .typeSpec t, .typeSpec u => t.eq u
  | _, _ => false

end SyntaxTree
