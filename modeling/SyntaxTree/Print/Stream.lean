import SyntaxTree.Print.Text

/-! # Streaming the text

The text of a tree can be handed chunk by chunk to a sink that may refuse one. A sink is a state
machine: each chunk moves its state and is taken or refused, and the first refusal ends the
traversal. -/

namespace SyntaxTree

/-- One run of a sink: it ends in a state, and `none` says that a chunk was refused. -/
abbrev Streaming (σ α : Type) := OptionT (StateM σ) α

/-- What a sink does with a chunk. -/
abbrev Sink (σ : Type) := String → Streaming σ Unit

/-- Hands over the chunks in order, up to the first that is refused. -/
def feed {σ : Type} (sink : Sink σ) : List String → Streaming σ Unit
  | [] => pure ()
  | chunk :: rest => do
    sink chunk
    feed sink rest

/-- The chunks in which the literals of numbers are handed over. How a literal is cut is left open;
only what its chunks add up to is fixed. -/
structure NumberChunks (config : PrintConfig) where
  natural : UInt64 → List String
  float : Binary64 → List String
  join_natural : ∀ value, String.join (natural value) = value.toNat.repr
  join_float : ∀ value, String.join (float value) = config.floatText value

/-- Every literal in one chunk. -/
def NumberChunks.whole (config : PrintConfig) : NumberChunks config where
  natural value := [value.toNat.repr]
  float value := [config.floatText value]
  join_natural _ := by simp
  join_float _ := by simp

section

variable {σ : Type} {config : PrintConfig}

mutual

def Expr.write (numbers : NumberChunks config) (sink : Sink σ) : Expr → Streaming σ Unit
  | .int value => feed sink (numbers.natural value)
  | .float value => feed sink (numbers.float value)
  | .str value => do
    sink "\""
    sink value
    sink "\""
  | .name name => sink name
  | .cast ty expr => do
    sink "(cast "
    ty.write numbers sink
    sink " "
    expr.write numbers sink
    sink ")"
  | .call callee args => do
    sink "("
    callee.write numbers sink
    Expr.writeArgs numbers sink args
    sink ")"
  | .index expr index => do
    sink "(index "
    expr.write numbers sink
    sink " "
    index.write numbers sink
    sink ")"
  | .field expr name => do
    sink "(field "
    expr.write numbers sink
    sink " "
    sink name
    sink ")"
  | .unary op expr => do
    sink "("
    sink op.symbol
    sink " "
    expr.write numbers sink
    sink ")"
  | .binary op left right => do
    sink "("
    sink op.symbol
    sink " "
    left.write numbers sink
    sink " "
    right.write numbers sink
    sink ")"
  | .ternary cond thenExpr elseExpr => do
    sink "(if "
    cond.write numbers sink
    sink " "
    thenExpr.write numbers sink
    sink " "
    elseExpr.write numbers sink
    sink ")"
  | .compound => sink "(compound ...)"

/-- The arguments of a call, each after a space. -/
def Expr.writeArgs (numbers : NumberChunks config) (sink : Sink σ) : List Expr → Streaming σ Unit
  | [] => pure ()
  | arg :: rest => do
    sink " "
    arg.write numbers sink
    Expr.writeArgs numbers sink rest

def TypeSpec.write (numbers : NumberChunks config) (sink : Sink σ) : TypeSpec → Streaming σ Unit
  | .name name => sink name
  | .pointer elem => do
    sink "(ptr "
    elem.write numbers sink
    sink ")"
  | .array elem size => do
    sink "(arr "
    elem.write numbers sink
    sink " "
    size.write numbers sink
    sink ")"
  | .function args ret => do
    sink "(func ("
    TypeSpec.writeParams numbers sink args
    sink ") "
    ret.write numbers sink
    sink ")"

/-- The parameters of a function type, with a space between two. -/
def TypeSpec.writeParams (numbers : NumberChunks config) (sink : Sink σ) :
    List TypeSpec → Streaming σ Unit
  | [] => pure ()
  | [param] => param.write numbers sink
  | param :: rest => do
    param.write numbers sink
    sink " "
    TypeSpec.writeParams numbers sink rest

end

def Node.write (numbers : NumberChunks config) (sink : Sink σ) : Node → Streaming σ Unit
  | .expr e => e.write numbers sink
  | .typeSpec t => t.write numbers sink

end

/-- A sink with room for a number of characters. Of a chunk that does not fit it takes what fits
and refuses the rest. -/
structure Bounded where
  room : Nat
  accepted : String
  deriving DecidableEq, Repr

namespace Bounded

def sink : Sink Bounded := fun chunk => do
  let state ← get
  let fitting := chunk.toList.take state.room
  set (Bounded.mk (state.room - fitting.length) (state.accepted ++ String.ofList fitting))
  guard (chunk.length ≤ state.room)

/-- Writes the tree into `room` characters: whether all of it went in, and what did. -/
def write (config : PrintConfig) (room : Nat) (node : Node) : Bool × String :=
  let (outcome, final) := (node.write (.whole config) sink).run.run ⟨room, ""⟩
  (outcome.isSome, final.accepted)

end Bounded

end SyntaxTree
