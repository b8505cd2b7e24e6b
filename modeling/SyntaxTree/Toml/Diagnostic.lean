import SyntaxTree.Shape.Mismatch
import SyntaxTree.Toml.Value

/-! # Diagnostics

The message for a document that is well formed and does not have the shape asked for. It shows the
line of the offending place with carets below it. -/

namespace SyntaxTree

namespace Toml

/-- Numbers are written without an exponent. -/
def numberLayout : Decimal.Layout := ⟨fun _ => true, .up⟩

/-- A shape fault and the place that it is about, if there is one. -/
structure Misfit where
  mismatch : Shape.Mismatch
  span : Option Span
  deriving DecidableEq, Repr

/-- Gives the fault a place, unless it has one. -/
def Misfit.orAt (misfit : Misfit) (span : Option Span) : Misfit :=
  { misfit with span := misfit.span.or span }

namespace Diagnostic

/-- A line of a text, with what the marker below it needs. -/
structure Excerpt where
  /-- The number of line feeds before the line. -/
  line : Nat
  /-- The number of characters before the place on the line. -/
  column : Nat
  content : List Char
  deriving DecidableEq, Repr

/-- Follows the text from the byte `offset` to the byte `target`; `before` holds the characters of
the current line so far in reverse. -/
def excerptFrom (target : Nat) (line offset : Nat) (before : List Char) : List Char → Excerpt
  | [] => ⟨line, before.length, before.reverse⟩
  | c :: rest =>
    if target ≤ offset then
      ⟨line, before.length, before.reverse ++ (c :: rest).takeWhile (· != '\n')⟩
    else if c = '\n' then excerptFrom target (line + 1) (offset + 1) [] rest
    else excerptFrom target line (offset + c.utf8Size) (c :: before) rest

/-- The number of carets: one at least, and none beyond the end of the line. -/
def caretCount (span : Span) (excerpt : Excerpt) : Nat :=
  let room := (String.ofList excerpt.content).utf8ByteSize - excerpt.column
  max 1 (min (span.stop - span.start) room)

def spaces (n : Nat) : String := String.ofList (List.replicate n ' ')

def picture (source : String) (span : Span) : String :=
  let excerpt := excerptFrom span.start 0 0 [] source.toList
  let number := (excerpt.line + 1).repr
  let gutter := spaces (number.length + 1) ++ "|"
  "TOML parse error at line " ++ number ++ ", column " ++ (excerpt.column + 1).repr ++ "\n" ++
    gutter ++ "\n" ++
    number ++ " | " ++ String.ofList excerpt.content ++ "\n" ++
    gutter ++ spaces (excerpt.column + 1) ++
    String.ofList (List.replicate (caretCount span excerpt) '^') ++ "\n"

end Diagnostic

/-- The whole message, which ends with a line feed. -/
def Misfit.message (source : String) (misfit : Misfit) : String :=
  (match misfit.span with
    | some span => Diagnostic.picture source span
    | none => "") ++ misfit.mismatch.text numberLayout ++ "\n"

end Toml

end SyntaxTree
