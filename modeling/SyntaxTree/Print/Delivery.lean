import SyntaxTree.Log
import SyntaxTree.Print.Text

/-! # Delivery to a byte sink

A byte sink answers each write call on its own terms: it takes some of the offered bytes, asks to
be called again, or fails. Delivery offers what is left of the text until nothing is left or the
sink gives up. -/

namespace SyntaxTree

/-- How a byte sink answers one write call. -/
inductive Response where
  /-- Takes at most `count` of the offered bytes. -/
  | accept (count : Nat)
  /-- Takes nothing, and the call may be repeated. -/
  | interrupted
  | failure (reason : String)
  deriving DecidableEq, Repr

/-- Why a delivery ended before the whole text was taken. -/
inductive DeliveryError where
  /-- The sink took nothing of a nonempty offer. -/
  | writeZero
  | failure (reason : String)
  deriving DecidableEq, Repr

def DeliveryError.message : DeliveryError → String
  | .writeZero => "failed to write whole buffer"
  | .failure reason => reason

/-- What a delivery leaves behind. -/
structure Delivery where
  outcome : Except DeliveryError Unit
  accepted : List UInt8
  /-- The number of write calls, failed ones included. -/
  calls : Nat

namespace Delivery

/-- An answer that took `bytes` came before `rest`. -/
def after (bytes : List UInt8) (rest : Delivery) : Delivery :=
  { rest with accepted := bytes ++ rest.accepted, calls := rest.calls + 1 }

/-- Delivers the bytes to a sink with the given answers, which takes everything after them. -/
def run : List Response → List UInt8 → Delivery
  | _, [] => ⟨.ok (), [], 0⟩
  | [], bytes => ⟨.ok (), bytes, 1⟩
  | .accept 0 :: _, _ :: _ => ⟨.error .writeZero, [], 1⟩
  | .accept count :: rest, bytes => after (bytes.take count) (run rest (bytes.drop count))
  | .interrupted :: rest, bytes => after [] (run rest bytes)
  | .failure reason :: _, _ :: _ => ⟨.error (.failure reason), [], 1⟩

end Delivery

/-- A delivery and the log of it. -/
structure Printing where
  delivery : Delivery
  log : List LogRecord

/-- Prints the node to a byte sink with the given answers. The log opens with the node's kind, and
records the size of the text once all of it is delivered. -/
def Node.print (config : PrintConfig) (responses : List Response) (node : Node) : Printing :=
  let bytes := (node.text config).toUTF8.toList
  let delivery := Delivery.run responses bytes
  let opening := LogRecord.printing node.sort node.kindLabel
  match delivery.outcome with
  | .ok () => ⟨delivery, [opening, .printed node.sort bytes.length]⟩
  | .error _ => ⟨delivery, [opening]⟩

end SyntaxTree
