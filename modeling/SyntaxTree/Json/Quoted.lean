import SyntaxTree.Json.Reader
import SyntaxTree.Text.Hex

/-! # Quoted strings

The writer escapes what must be escaped: quotes, backslashes and control characters. The reader
takes every escape of the format; an escaped surrogate has to be one half of a pair in order.
A skipped string is checked for the form of its escapes only. -/

namespace SyntaxTree

namespace Json

open Text (Cursor byteLength hexNumber?)

/-! ## Writing -/

def escapeChar (c : Char) : List Char :=
  match c with
  | '"' => ['\\', '"']
  | '\\' => ['\\', '\\']
  | '\x08' => ['\\', 'b']
  | '\t' => ['\\', 't']
  | '\n' => ['\\', 'n']
  | '\x0c' => ['\\', 'f']
  | '\r' => ['\\', 'r']
  | c =>
    if c.toNat < 0x20 then
      ['\\', 'u', '0', '0', Nat.digitChar (c.toNat / 16), Nat.digitChar (c.toNat % 16)]
    else [c]

def quote (text : String) : String :=
  String.ofList ('"' :: (text.toList.flatMap escapeChar ++ ['"']))

/-! ## Reading -/

/-- The character that stands after the backslash of a short escape. -/
def shortEscape? : Char → Option Char
  | '"' => some '"'
  | '\\' => some '\\'
  | '/' => some '/'
  | 'b' => some '\x08'
  | 'f' => some '\x0c'
  | 'n' => some '\n'
  | 'r' => some '\r'
  | 't' => some '\t'
  | _ => none

/-- The fault of four hexadecimal digits that are expected at `offset` and are not there: the text
ends within four bytes, or something else stands in them. -/
def hexFault (offset : Nat) (rest : List Char) : Fault :=
  if byteLength (rest.take 4) < 4 then ⟨.endOfInput .string, some (offset + byteLength rest)⟩
  else ⟨.invalidEscape, some (offset + 4)⟩

def isHighSurrogate (n : Nat) : Bool := 0xD800 ≤ n && n < 0xDC00

def isLowSurrogate (n : Nat) : Bool := 0xDC00 ≤ n && n < 0xE000

/-- The character that a pair of surrogates stands for. -/
def joinSurrogates (high low : Nat) : Char :=
  Char.ofNat (0x10000 + (high - 0xD800) * 0x400 + (low - 0xDC00))

/-- Reads the contents of a string up to its closing quote, which is taken. The characters read so
far stand in reverse in `seen`. -/
def scanString (seen : List Char) (offset : Nat) : List Char → Except Fault String × Cursor
  | [] => (.error ⟨.endOfInput .string, some offset⟩, ⟨[], offset⟩)
  | '"' :: rest => (.ok (String.ofList seen.reverse), ⟨rest, offset + 1⟩)
  | '\\' :: rest =>
    match rest with
    | [] => (.error ⟨.endOfInput .string, some (offset + 1)⟩, ⟨[], offset + 1⟩)
    | 'u' :: rest =>
      match rest with
      | a :: b :: c :: d :: rest' =>
        match hexNumber? [a, b, c, d] with
        | none => (.error (hexFault (offset + 2) rest), ⟨rest, offset + 2⟩)
        | some n =>
          if isLowSurrogate n then
            (.error ⟨.loneSurrogate, some (offset + 6)⟩, ⟨rest', offset + 6⟩)
          else if isHighSurrogate n then
            match rest' with
            | '\\' :: 'u' :: rest =>
              match rest with
              | a :: b :: c :: d :: rest' =>
                match hexNumber? [a, b, c, d] with
                | none => (.error (hexFault (offset + 8) rest), ⟨rest, offset + 8⟩)
                | some m =>
                  if isLowSurrogate m then
                    scanString (joinSurrogates n m :: seen) (offset + 12) rest'
                  else (.error ⟨.loneSurrogate, some (offset + 12)⟩, ⟨rest', offset + 12⟩)
              | rest => (.error (hexFault (offset + 8) rest), ⟨rest, offset + 8⟩)
            | ['\\'] => (.error ⟨.endOfInput .string, some (offset + 7)⟩, ⟨[], offset + 7⟩)
            | '\\' :: rest =>
              (.error ⟨.unfinishedSurrogatePair, some (offset + 8)⟩, ⟨rest, offset + 7⟩)
            | [] => (.error ⟨.endOfInput .string, some (offset + 6)⟩, ⟨[], offset + 6⟩)
            | rest => (.error ⟨.unfinishedSurrogatePair, some (offset + 7)⟩, ⟨rest, offset + 6⟩)
          else scanString (Char.ofNat n :: seen) (offset + 6) rest'
      | rest => (.error (hexFault (offset + 2) rest), ⟨rest, offset + 2⟩)
    | e :: rest =>
      match shortEscape? e with
      | some c => scanString (c :: seen) (offset + 2) rest
      | none => (.error ⟨.invalidEscape, some (offset + 2)⟩, ⟨e :: rest, offset + 1⟩)
  | c :: rest =>
    if c.toNat < 0x20 then (.error ⟨.controlCharacter, some (offset + 1)⟩, ⟨rest, offset + 1⟩)
    else scanString (c :: seen) (offset + c.utf8Size) rest

/-- Reads a string whose opening quote comes next. -/
def string : Reader String := do
  advance
  Reader.ofStep fun cursor => scanString [] cursor.offset cursor.rest

/-- Passes over the contents of a string and its closing quote. -/
def scanSkipped (offset : Nat) : List Char → Except Fault Unit × Cursor
  | [] => (.error ⟨.endOfInput .string, some offset⟩, ⟨[], offset⟩)
  | '"' :: rest => (.ok (), ⟨rest, offset + 1⟩)
  | '\\' :: rest =>
    match rest with
    | [] => (.error ⟨.endOfInput .string, some (offset + 1)⟩, ⟨[], offset + 1⟩)
    | 'u' :: rest =>
      match rest with
      | a :: b :: c :: d :: rest' =>
        match hexNumber? [a, b, c, d] with
        | none => (.error (hexFault (offset + 2) rest), ⟨rest, offset + 2⟩)
        | some _ => scanSkipped (offset + 6) rest'
      | rest => (.error (hexFault (offset + 2) rest), ⟨rest, offset + 2⟩)
    | e :: rest =>
      match shortEscape? e with
      | some _ => scanSkipped (offset + 2) rest
      | none => (.error ⟨.invalidEscape, some (offset + 2)⟩, ⟨e :: rest, offset + 1⟩)
  | c :: rest =>
    if c.toNat < 0x20 then (.error ⟨.controlCharacter, some offset⟩, ⟨c :: rest, offset⟩)
    else scanSkipped (offset + c.utf8Size) rest

/-- Passes over a string whose opening quote comes next. -/
def skipString : Reader Unit := do
  advance
  Reader.ofStep fun cursor => scanSkipped cursor.offset cursor.rest

end Json

end SyntaxTree
