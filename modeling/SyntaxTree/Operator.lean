/-! # Operators

Unary and binary operators, their spellings and their binding strength. A lexer hands an operator
over either as a single-character code or as its whole spelling. -/

namespace SyntaxTree

/-- The six prefix operators. -/
inductive UnaryOp where
  | neg
  | pos
  | not
  | bitNot
  | deref
  | addrOf
  deriving DecidableEq, Repr

/-- The eighteen infix operators. -/
inductive BinaryOp where
  | mul
  | div
  | mod
  | bitAnd
  | shl
  | shr
  | add
  | sub
  | bitOr
  | bitXor
  | eq
  | notEq
  | lt
  | ltEq
  | gt
  | gtEq
  | and
  | or
  deriving DecidableEq, Repr

namespace UnaryOp

/-- Every unary operator, in the order of the declaration. -/
def all : List UnaryOp := [.neg, .pos, .not, .bitNot, .deref, .addrOf]

/-- The word that stands for the operator in serialized trees. -/
def name : UnaryOp → String
  | .neg => "Neg"
  | .pos => "Pos"
  | .not => "Not"
  | .bitNot => "BitNot"
  | .deref => "Deref"
  | .addrOf => "AddrOf"

/-- The spelling in source text, which is also how the printer writes the operator. -/
def symbol : UnaryOp → String
  | .neg => "-"
  | .pos => "+"
  | .not => "!"
  | .bitNot => "~"
  | .deref => "*"
  | .addrOf => "&"

/-- The operator that a lexer codes as one character. The codes are listed apart from the spellings;
that they agree is `ofCode?_eq_some_iff`. -/
def ofCode? : Char → Option UnaryOp
  | '-' => some .neg
  | '+' => some .pos
  | '!' => some .not
  | '~' => some .bitNot
  | '*' => some .deref
  | '&' => some .addrOf
  | _ => none

/-- The operator with the given spelling, found by going through all of them. -/
def ofSymbol? (symbol : String) : Option UnaryOp :=
  all.find? (·.symbol == symbol)

theorem mem_all (op : UnaryOp) : op ∈ all := by
  cases op <;> decide

/-- The spelling of an operator leads back to it. -/
theorem ofSymbol?_symbol (op : UnaryOp) : ofSymbol? op.symbol = some op := by
  cases op <;> decide

/-- No two unary operators are spelled alike. -/
theorem symbol_inj {op op' : UnaryOp} (h : op.symbol = op'.symbol) : op = op' :=
  Option.some.inj <| by rw [← ofSymbol?_symbol, h, ofSymbol?_symbol]

/-- Every unary operator has a spelling of one character, which is also its code. -/
theorem ofCode?_eq_some_iff {code : Char} {op : UnaryOp} :
    ofCode? code = some op ↔ op.symbol = String.ofList [code] := by
  constructor
  · intro h
    unfold ofCode? at h
    split at h <;> cases h <;> decide
  · intro h
    have hc : op.symbol.toList = [code] := by rw [h, String.toList_ofList]
    cases op <;> simp only [symbol] at hc <;>
      (obtain rfl := (List.cons.inj hc).1; rfl)

end UnaryOp

namespace BinaryOp

/-- Every binary operator, in the order of the declaration. -/
def all : List BinaryOp :=
  [.mul, .div, .mod, .bitAnd, .shl, .shr, .add, .sub, .bitOr, .bitXor,
    .eq, .notEq, .lt, .ltEq, .gt, .gtEq, .and, .or]

/-- The word that stands for the operator in serialized trees. -/
def name : BinaryOp → String
  | .mul => "Mul"
  | .div => "Div"
  | .mod => "Mod"
  | .bitAnd => "BitAnd"
  | .shl => "Shl"
  | .shr => "Shr"
  | .add => "Add"
  | .sub => "Sub"
  | .bitOr => "BitOr"
  | .bitXor => "BitXor"
  | .eq => "Eq"
  | .notEq => "NotEq"
  | .lt => "Lt"
  | .ltEq => "LtEq"
  | .gt => "Gt"
  | .gtEq => "GtEq"
  | .and => "And"
  | .or => "Or"

/-- The spelling in source text, of one or two characters. -/
def symbol : BinaryOp → String
  | .mul => "*"
  | .div => "/"
  | .mod => "%"
  | .bitAnd => "&"
  | .shl => "<<"
  | .shr => ">>"
  | .add => "+"
  | .sub => "-"
  | .bitOr => "|"
  | .bitXor => "^"
  | .eq => "=="
  | .notEq => "!="
  | .lt => "<"
  | .ltEq => "<="
  | .gt => ">"
  | .gtEq => ">="
  | .and => "&&"
  | .or => "||"

/-- Binding strength, from 4 for the multiplicative operators down to 0 for the disjunction. -/
def precedence : BinaryOp → Nat
  | .mul | .div | .mod | .bitAnd | .shl | .shr => 4
  | .add | .sub | .bitOr | .bitXor => 3
  | .eq | .notEq | .lt | .ltEq | .gt | .gtEq => 2
  | .and => 1
  | .or => 0

/-- The operator that a lexer codes as one character; an operator spelled with two has no code. -/
def ofCode? : Char → Option BinaryOp
  | '*' => some .mul
  | '/' => some .div
  | '%' => some .mod
  | '&' => some .bitAnd
  | '+' => some .add
  | '-' => some .sub
  | '|' => some .bitOr
  | '^' => some .bitXor
  | '<' => some .lt
  | '>' => some .gt
  | _ => none

def ofSymbol? (symbol : String) : Option BinaryOp :=
  all.find? (·.symbol == symbol)

theorem mem_all (op : BinaryOp) : op ∈ all := by
  cases op <;> decide

theorem ofSymbol?_symbol (op : BinaryOp) : ofSymbol? op.symbol = some op := by
  cases op <;> decide

/-- No two binary operators are spelled alike, though a unary one may share a spelling. -/
theorem symbol_inj {op op' : BinaryOp} (h : op.symbol = op'.symbol) : op = op' :=
  Option.some.inj <| by rw [← ofSymbol?_symbol, h, ofSymbol?_symbol]

/-- The operators that a lexer codes as one character are those spelled with one. -/
theorem ofCode?_eq_some_iff {code : Char} {op : BinaryOp} :
    ofCode? code = some op ↔ op.symbol = String.ofList [code] := by
  constructor
  · intro h
    unfold ofCode? at h
    split at h <;> cases h <;> decide
  · intro h
    have hc : op.symbol.toList = [code] := by rw [h, String.toList_ofList]
    cases op <;> simp only [symbol] at hc <;> first
      | (obtain rfl := (List.cons.inj hc).1; rfl)
      | exact absurd (show _ = 1 from congrArg List.length hc) (by decide)

end BinaryOp

end SyntaxTree
