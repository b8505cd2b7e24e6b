import Mathlib.Data.List.Forall2
import SyntaxTree.Json.Node

/-! # The grammar of trees in JSON

Which texts stand for which trees, said without a reader: blanks, digits, escapes and surrogates are
listed here, and the reader is proved to agree. Only the number that a float literal gives is left to
its conversion. A text is a sequence of tokens with any blanks between them. A value of an unknown
field may be any JSON value, and only there an escape may be a lone surrogate. -/

namespace SyntaxTree

namespace Json

namespace Grammar

/-! ## Tokens -/

/-- Spaces, line feeds, tabs and carriage returns. -/
def Blank (text : List Char) : Prop := ∀ c ∈ text, c ∈ [' ', '\n', '\t', '\r']

/-- The pieces in order, each after any blanks. -/
inductive Spaced : List (List Char) → List Char → Prop
  | nil : Spaced [] []
  | cons {blanks piece text : List Char} {pieces : List (List Char)} :
      Blank blanks → Spaced pieces text → Spaced (piece :: pieces) (blanks ++ piece ++ text)

/-- The pieces of several items with a comma between any two items. -/
def separated : List (List (List Char)) → List (List Char)
  | [] => []
  | first :: rest => first ++ rest.flatMap ([','] :: ·)

/-! ## Strings -/

/-- The letter of a short escape, and the character that it stands for. -/
inductive ShortEscape : Char → Char → Prop
  | quote : ShortEscape '"' '"'
  | backslash : ShortEscape '\\' '\\'
  | slash : ShortEscape '/' '/'
  | backspace : ShortEscape 'b' '\x08'
  | formFeed : ShortEscape 'f' '\x0c'
  | lineFeed : ShortEscape 'n' '\n'
  | carriageReturn : ShortEscape 'r' '\r'
  | tab : ShortEscape 't' '\t'

/-- A hexadecimal digit of either case, and its value. -/
inductive HexDigit : Char → Nat → Prop
  | lower {n : Nat} : n < 16 → HexDigit (Nat.digitChar n) n
  | upper {n : Nat} : n < 16 → HexDigit (Nat.digitChar n).toUpper n

/-- Four hexadecimal digits, and the number of 16 bits that they write. -/
inductive CodeText : List Char → Nat → Prop
  | digits {a b c d : Char} {i j k l : Nat} :
      HexDigit a i → HexDigit b j → HexDigit c k → HexDigit d l →
      CodeText [a, b, c, d] (i * 0x1000 + j * 0x100 + k * 0x10 + l)

/-- The first number of a pair of surrogates. -/
def HighSurrogate (n : Nat) : Prop := 0xD800 ≤ n ∧ n ≤ 0xDBFF

/-- The second number of a pair of surrogates. -/
def LowSurrogate (n : Nat) : Prop := 0xDC00 ≤ n ∧ n ≤ 0xDFFF

/-- The characters between two quotes, and what they stand for. An escaped number is that of a
character; surrogates are the numbers of none, and give one only as a pair. -/
inductive Letters : List Char → List Char → Prop
  | nil : Letters [] []
  | plain {c : Char} {text value : List Char} :
      c ≠ '"' → c ≠ '\\' → 0x20 ≤ c.toNat → Letters text value → Letters (c :: text) (c :: value)
  | short {e c : Char} {text value : List Char} :
      ShortEscape e c → Letters text value → Letters ('\\' :: e :: text) (c :: value)
  | code {a b c d x : Char} {text value : List Char} :
      CodeText [a, b, c, d] x.toNat → Letters text value →
      Letters ('\\' :: 'u' :: a :: b :: c :: d :: text) (x :: value)
  | pair {a b c d a' b' c' d' x : Char} {high low : Nat} {text value : List Char} :
      CodeText [a, b, c, d] high → HighSurrogate high →
      CodeText [a', b', c', d'] low → LowSurrogate low →
      x.toNat = 0x10000 + (high - 0xD800) * 0x400 + (low - 0xDC00) → Letters text value →
      Letters ('\\' :: 'u' :: a :: b :: c :: d :: '\\' :: 'u' :: a' :: b' :: c' :: d' :: text)
        (x :: value)

/-- A text between quotes, and the string that it spells. -/
def StringText (text : List Char) (value : String) : Prop :=
  ∃ body, text = '"' :: (body ++ ['"']) ∧ Letters body value.toList

/-- The characters between two quotes where an escape may be any code. -/
inductive LooseLetters : List Char → Prop
  | nil : LooseLetters []
  | plain {c : Char} {text : List Char} :
      c ≠ '"' → c ≠ '\\' → 0x20 ≤ c.toNat → LooseLetters text → LooseLetters (c :: text)
  | short {e c : Char} {text : List Char} :
      ShortEscape e c → LooseLetters text → LooseLetters ('\\' :: e :: text)
  | code {a b c d : Char} {n : Nat} {text : List Char} :
      CodeText [a, b, c, d] n → LooseLetters text →
      LooseLetters ('\\' :: 'u' :: a :: b :: c :: d :: text)

/-- A text between quotes that need not spell a string. -/
def LooseStringText (text : List Char) : Prop :=
  ∃ body, text = '"' :: (body ++ ['"']) ∧ LooseLetters body

/-! ## Numbers -/

/-- One decimal digit or more. -/
def Digits (text : List Char) : Prop := text ≠ [] ∧ ∀ c ∈ text, c.isDigit = true

/-- The digits before the point: no zero stands in front of another digit. -/
def WholeText (text : List Char) : Prop := Digits text ∧ (text.head? = some '0' → text = ['0'])

/-- The point and the digits after it, or neither. -/
inductive FractionText : List Char → List Char → Prop
  | absent : FractionText [] []
  | present {digits : List Char} : Digits digits → FractionText ('.' :: digits) digits

/-- The sign of an exponent, which may be absent, and whether it is a minus. -/
inductive SignText : List Char → Bool → Prop
  | absent : SignText [] false
  | plus : SignText ['+'] false
  | minus : SignText ['-'] true

/-- The exponent with its mark, or nothing. -/
inductive ExponentText : List Char → Option (Bool × List Char) → Prop
  | absent : ExponentText [] none
  | present {mark : Char} {sign digits : List Char} {negative : Bool} :
      mark = 'e' ∨ mark = 'E' → SignText sign negative → Digits digits →
      ExponentText (mark :: (sign ++ digits)) (some (negative, digits))

/-- A number of the format, taken apart. -/
def LiteralText (text : List Char) (literal : Literal) : Prop :=
  ∃ fraction exponent,
    text = (if literal.negative then ['-'] else []) ++ (literal.whole ++ (fraction ++ exponent)) ∧
      WholeText literal.whole ∧ FractionText fraction literal.fraction ∧
        ExponentText exponent literal.exponent

/-- The number that decimal digits write. -/
def decimalValue (digits : List Char) : Nat := Nat.ofDigitChars 10 digits 0

/-- A natural number below `2 ^ 64`, as bare digits. -/
def NaturalText (text : List Char) (n : Nat) : Prop :=
  WholeText text ∧ decimalValue text = n ∧ n < Nat.pow 2 64

/-- A number that the conversion takes to `x`, or the name of an `x` that is not finite. -/
inductive FloatText : List Char → Binary64 → Prop
  | number {text : List Char} {literal : Literal} {n : Number} :
      LiteralText text literal → literal.value = .ok n → FloatText text n.toBinary64
  | nan {text : List Char} : StringText text "nan" → FloatText text .nan
  | infinity {text : List Char} : StringText text "inf" → FloatText text (.infinity false)
  | negInfinity {text : List Char} : StringText text "-inf" → FloatText text (.infinity true)

/-! ## Brackets -/

/-- The items between brackets, with commas between them. -/
def ArrayText (items : List (List Char)) (text : List Char) : Prop :=
  ∃ inner, text = '[' :: inner ∧ Spaced (separated (items.map fun item => [item]) ++ [[']']]) inner

/-- A key and the value beside it, as they are written. -/
structure Member where
  key : List Char
  value : List Char

def Member.pieces (member : Member) : List (List Char) := [member.key, [':'], member.value]

/-- The members between braces, with commas between them. -/
def ObjectText (members : List Member) (text : List Char) : Prop :=
  ∃ inner, text = '\x7b' :: inner ∧
    Spaced (separated (members.map Member.pieces) ++ [['\x7d']]) inner

/-- Any JSON value, of which only the form counts. -/
inductive AnyText : List Char → Prop
  | null : AnyText ['n', 'u', 'l', 'l']
  | true : AnyText ['t', 'r', 'u', 'e']
  | false : AnyText ['f', 'a', 'l', 's', 'e']
  | string {text : List Char} : LooseStringText text → AnyText text
  | number {text : List Char} {literal : Literal} : LiteralText text literal → AnyText text
  | array {text : List Char} {items : List (List Char)} :
      ArrayText items text → (∀ item ∈ items, AnyText item) → AnyText text
  | object {text : List Char} {members : List Member} :
      ObjectText members text → (∀ m ∈ members, LooseStringText m.key) →
      (∀ m ∈ members, AnyText m.value) → AnyText text

/-! ## Records and variants -/

/-- A member of an object together with the name that its key spells. -/
structure Entry extends Member where
  name : String

/-- Each field once in any order, among any other entries. -/
structure Covers (entries : List Entry) (fields : List (String × List Char)) : Prop where
  spelled : ∀ e ∈ entries, StringText e.key e.name
  once : ∀ f ∈ fields, (entries.filter (·.name == f.1)).map (·.value) = [f.2]
  other : ∀ e ∈ entries, e.name ∉ fields.map Prod.fst → AnyText e.value

/-- The fields as an array in their order, or as an object. -/
inductive RecordText (fields : List (String × List Char)) : List Char → Prop
  | array {text : List Char} : ArrayText (fields.map Prod.snd) text → RecordText fields text
  | object {text : List Char} {entries : List Entry} :
      ObjectText (entries.map Entry.toMember) text → Covers entries fields →
      RecordText fields text

/-- An object whose only key spells `name`. -/
def TaggedText (name : String) (payload text : List Char) : Prop :=
  ∃ key, StringText key name ∧ ObjectText [⟨key, payload⟩] text

/-- A variant without contents: its bare name, or its name with a null. -/
def UnitText (name : String) (text : List Char) : Prop :=
  StringText text name ∨ TaggedText name ['n', 'u', 'l', 'l'] text

/-! ## Trees -/

mutual

/-- A text of an expression, which is an object with the name of its variant as the only key, or for
the variant without contents also the bare name. -/
inductive ExprText : List Char → Expr → Prop
  | int {text p : List Char} {n : Nat} :
      TaggedText "Int" p text → NaturalText p n → ExprText text (.int (.ofNat n))
  | float {text p : List Char} {x : Binary64} :
      TaggedText "Float" p text → FloatText p x → ExprText text (.float x)
  | str {text p : List Char} {value : String} :
      TaggedText "Str" p text → StringText p value → ExprText text (.str value)
  | name {text p : List Char} {name : String} :
      TaggedText "Name" p text → StringText p name → ExprText text (.name name)
  | cast {text p a b : List Char} {ty : TypeSpec} {expr : Expr} :
      TaggedText "Cast" p text → RecordText [("ty", a), ("expr", b)] p →
      TypeSpecText a ty → ExprText b expr → ExprText text (.cast ty expr)
  | call {text p a b : List Char} {items : List (List Char)} {callee : Expr} {args : List Expr} :
      TaggedText "Call" p text → RecordText [("callee", a), ("args", b)] p →
      ExprText a callee → ArrayText items b → List.Forall₂ ExprText items args →
      ExprText text (.call callee args)
  | index {text p a b : List Char} {expr index : Expr} :
      TaggedText "Index" p text → RecordText [("expr", a), ("index", b)] p →
      ExprText a expr → ExprText b index → ExprText text (.index expr index)
  | field {text p a b : List Char} {expr : Expr} {name : String} :
      TaggedText "Field" p text → RecordText [("expr", a), ("name", b)] p →
      ExprText a expr → StringText b name → ExprText text (.field expr name)
  | unary {text p a b : List Char} {op : UnaryOp} {expr : Expr} :
      TaggedText "Unary" p text → RecordText [("op", a), ("expr", b)] p →
      UnitText op.name a → ExprText b expr → ExprText text (.unary op expr)
  | binary {text p a b c : List Char} {op : BinaryOp} {left right : Expr} :
      TaggedText "Binary" p text → RecordText [("op", a), ("left", b), ("right", c)] p →
      UnitText op.name a → ExprText b left → ExprText c right →
      ExprText text (.binary op left right)
  | ternary {text p a b c : List Char} {cond thenExpr elseExpr : Expr} :
      TaggedText "Ternary" p text →
      RecordText [("cond", a), ("then_expr", b), ("else_expr", c)] p →
      ExprText a cond → ExprText b thenExpr → ExprText c elseExpr →
      ExprText text (.ternary cond thenExpr elseExpr)
  | compound {text : List Char} : UnitText "Compound" text → ExprText text .compound

/-- A text of a type expression. -/
inductive TypeSpecText : List Char → TypeSpec → Prop
  | name {text p : List Char} {name : String} :
      TaggedText "Name" p text → StringText p name → TypeSpecText text (.name name)
  | pointer {text p a : List Char} {elem : TypeSpec} :
      TaggedText "Pointer" p text → RecordText [("elem", a)] p → TypeSpecText a elem →
      TypeSpecText text (.pointer elem)
  | array {text p a b : List Char} {elem : TypeSpec} {size : Expr} :
      TaggedText "Array" p text → RecordText [("elem", a), ("size", b)] p →
      TypeSpecText a elem → ExprText b size → TypeSpecText text (.array elem size)
  | function {text p a b : List Char} {items : List (List Char)} {args : List TypeSpec}
      {ret : TypeSpec} :
      TaggedText "Function" p text → RecordText [("args", a), ("ret", b)] p →
      ArrayText items a → List.Forall₂ TypeSpecText items args → TypeSpecText b ret →
      TypeSpecText text (.function args ret)

end

/-- A whole document: one node between any blanks. -/
def Document {α : Type} (NodeText : List Char → α → Prop) (source : String) (tree : α) : Prop :=
  ∃ before node after, source.toList = before ++ node ++ after ∧ Blank before ∧ Blank after ∧
    NodeText node tree

end Grammar

end Json

end SyntaxTree
