import SyntaxTree.Error
import SyntaxTree.Node.Equality

/-! # Scripts

A script is a list of steps of a stack machine over trees. The machine holds a stack, the current
configuration and the text printed so far, and it answers every step. What a step has taken from the
stack before it fails stays taken. -/

namespace SyntaxTree

namespace Script

/-- An operator as a lexer hands it over. -/
inductive OperatorRef where
  | symbol (symbol : String)
  | code (code : Char)
  deriving DecidableEq, Repr

/-- One call of a client that builds a tree. -/
inductive Step where
  | int (value : UInt64)
  | float (value : Binary64)
  | str (value : String)
  | name (name : String)
  | compound
  | typeName (name : String)
  | cast
  /-- A call with this many arguments. -/
  | call (args : Nat)
  | index
  | field (name : String)
  | unary (op : OperatorRef)
  | binary (op : OperatorRef)
  | ternary
  | pointer
  | array
  /-- A function type with this many parameters. -/
  | function (args : Nat)
  | dup
  | swap
  | drop
  | eq
  | display
  | toJson
  | fromJson (sort : NodeSort) (source : String)
  | precision (value : Nat)
  | toml (source : String)
  | emit
  deriving DecidableEq, Repr

/-- Why a step was not carried out. -/
inductive Refusal where
  | error (error : Error)
  /-- The stack does not hold what the step needs. -/
  | misused
  deriving DecidableEq, Repr

/-- What a call answers. -/
inductive Answer where
  /-- A node was pushed: its sort, the name and the tag of its kind, and its text. -/
  | pushed (sort : NodeSort) (kind : String) (tag : Nat) (text : String)
  | depth (size : Nat)
  | equal (value : Bool)
  /-- The text under the current configuration and under the default one. -/
  | shown (text plain : String)
  | json (text : String)
  | precision (value : Nat)
  /-- Everything printed so far. -/
  | emitted (buffer : String)
  | refused (refusal : Refusal)
  deriving DecidableEq, Repr

/-- What a client has built so far, its configuration and what it has printed. -/
structure State where
  /-- The top comes first. -/
  stack : List Node
  config : PrintConfig
  buffer : String

/-- The state before the first call. -/
def State.initial : State := ⟨[], .default, ""⟩

/-- The unary operator that a reference means. -/
def OperatorRef.unary : OperatorRef → Except Error UnaryOp
  | .symbol s => UnaryOp.ofSymbol s
  | .code c => UnaryOp.ofCode c

/-- The binary operator that a reference means. -/
def OperatorRef.binary : OperatorRef → Except Error BinaryOp
  | .symbol s => BinaryOp.ofSymbol s
  | .code c => BinaryOp.ofCode c

/-! ## Taking nodes from the stack -/

/-- A computation that takes nodes from the stack, whether it succeeds or not. -/
abbrev Pop (α : Type) := ExceptT Refusal (StateM (List Node)) α

/-- Takes the expression on top of the stack. -/
def popExpr : Pop Expr := do
  match ← get with
  | .expr e :: rest => do
    set rest
    pure e
  | _ => throw .misused

/-- Takes the type expression on top of the stack. -/
def popType : Pop TypeSpec := do
  match ← get with
  | .typeSpec t :: rest => do
    set rest
    pure t
  | _ => throw .misused

/-- Takes `count` items, of which the last is on top, and puts them before those already taken. -/
def popMany {α : Type} (pop : Pop α) : (count : Nat) → (taken : List α) → Pop (List α)
  | 0, taken => pure taken
  | count + 1, taken => do
    let item ← pop
    popMany pop count (item :: taken)

/-- The value of an operation that may fail with an error of the library. -/
def checked {α : Type} (result : Except Error α) : Pop α :=
  match result with
  | .ok value => pure value
  | .error error => throw (.error error)

/-- The node that a step pushes, from what it takes from the stack. An operator is looked up before
anything is taken. -/
def build : Step → Pop Node
  | .int value => pure (.expr (.int value))
  | .float value => pure (.expr (.float value))
  | .str value => pure (.expr (.str value))
  | .name name => pure (.expr (.name name))
  | .compound => pure (.expr .compound)
  | .typeName name => pure (.typeSpec (.name name))
  | .cast => do
    let expr ← popExpr
    let ty ← popType
    pure (.expr (.cast ty expr))
  | .call args => do
    let args ← popMany popExpr args []
    let callee ← popExpr
    pure (.expr (.call callee args))
  | .index => do
    let index ← popExpr
    let expr ← popExpr
    pure (.expr (.index expr index))
  | .field name => do
    let expr ← popExpr
    pure (.expr (.field expr name))
  | .unary op => do
    let op ← checked op.unary
    let expr ← popExpr
    pure (.expr (.unary op expr))
  | .binary op => do
    let op ← checked op.binary
    let right ← popExpr
    let left ← popExpr
    pure (.expr (.binary op left right))
  | .ternary => do
    let elseExpr ← popExpr
    let thenExpr ← popExpr
    let cond ← popExpr
    pure (.expr (.ternary cond thenExpr elseExpr))
  | .pointer => do
    let elem ← popType
    pure (.typeSpec (.pointer elem))
  | .array => do
    let size ← popExpr
    let elem ← popType
    pure (.typeSpec (.array elem size))
  | .function args => do
    let ret ← popType
    let args ← popMany popType args []
    pure (.typeSpec (.function args ret))
  | .fromJson sort source => checked ((Node.ofJson sort source).mapError .malformed)
  | _ => throw .misused

/-! ## Running -/

/-- Pushes a node. -/
def State.push (state : State) (node : Node) (below : List Node) : Answer × State :=
  (.pushed node.sort node.kindLabel node.kindTag (node.text state.config),
    { state with stack := node :: below })

/-- Makes a configuration the current one, unless it failed to load. -/
def State.configure (state : State) (loaded : Except PrintConfig.LoadError PrintConfig) :
    Answer × State :=
  match loaded with
  | .error cause => (.refused (.error (.config cause)), state)
  | .ok config => (.precision config.floatPrecision, { state with config := config })

/-- Pushes the node that a step builds from what it takes from the stack. -/
def State.construct (state : State) (step : Step) : Answer × State :=
  match (build step).run.run state.stack with
  | (.ok node, below) => state.push node below
  | (.error refusal, below) => (.refused refusal, { state with stack := below })

/-- The answer to a step, and the state after it. -/
def State.step (state : State) (step : Step) : Answer × State :=
  match step, state.stack with
  | .dup, top :: below => state.push top (top :: below)
  | .swap, a :: b :: rest => (.depth state.stack.length, { state with stack := b :: a :: rest })
  | .drop, _ :: rest => (.depth rest.length, { state with stack := rest })
  | .eq, a :: b :: _ => (.equal (b.eq a), state)
  | .display, top :: _ => (.shown (top.text state.config) (top.text .default), state)
  | .toJson, top :: _ => (.json top.toJson, state)
  | .emit, top :: _ =>
    let buffer := state.buffer ++ top.text state.config
    (.emitted buffer, { state with buffer := buffer })
  | .precision value, _ => state.configure (state.config.withFloatPrecision value)
  | .toml source, _ => state.configure (PrintConfig.ofToml source)
  | step, _ => state.construct step

/-- Runs a script: the answers in order, and the state at the end. -/
def run (state : State) : List Step → List Answer × State
  | [] => ([], state)
  | step :: rest =>
    let (answer, next) := state.step step
    let (answers, final) := run next rest
    (answer :: answers, final)

end Script

end SyntaxTree
