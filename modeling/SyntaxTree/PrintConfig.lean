/-! # Printer configuration

The one option of the printer is the number of digits after the point of a float literal. -/

namespace SyntaxTree

/-- What the printer can be told. -/
structure PrintConfig where
  floatPrecision : Nat
  deriving DecidableEq, Repr

namespace PrintConfig

/-- The precision where none is given. -/
def defaultPrecision : Nat := 6

/-- The largest precision that a configuration file or the builder accepts. -/
def maxPrecision : Nat := 17

/-- The configuration where none is given. -/
def default : PrintConfig := ⟨defaultPrecision⟩

instance : Inhabited PrintConfig := ⟨default⟩

/-- Whether the precision is within the cap. -/
def Valid (config : PrintConfig) : Prop := config.floatPrecision ≤ maxPrecision

instance (config : PrintConfig) : Decidable config.Valid :=
  inferInstanceAs (Decidable (_ ≤ _))

/-- The default passes its own check. -/
theorem default_valid : default.Valid := by decide

end PrintConfig

end SyntaxTree
