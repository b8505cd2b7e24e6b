import SyntaxTree.Log
import SyntaxTree.PrintConfig.Toml

/-! # Loading a configuration

A configuration comes from the text or the bytes of a file, or from the builder. Whichever way it
comes, its precision is checked last. -/

namespace SyntaxTree

namespace PrintConfig

/-- Why no configuration could be loaded. -/
inductive LoadError where
  | missingFile
  | notUtf8
  /-- The text is no TOML document. -/
  | notToml
  /-- The document does not describe a configuration. -/
  | misfit (source : String) (what : Toml.Misfit)
  | precisionOutOfRange (precision : Nat)
  deriving DecidableEq, Repr

namespace LoadError

def message : LoadError → String
  | .missingFile => "failed to read config file: No such file or directory (os error 2)"
  | .notUtf8 => "failed to read config file: stream did not contain valid UTF-8"
  | .notToml => "failed to parse config: not a TOML document\n"
  | .misfit source what => "failed to parse config: " ++ what.message source
  | .precisionOutOfRange precision =>
    "float precision " ++ precision.repr ++ " exceeds the maximum of " ++ maxPrecision.repr

end LoadError

/-- Refuses a configuration whose precision is above the cap. -/
def validated (config : PrintConfig) : Except LoadError PrintConfig :=
  if config.Valid then .ok config else .error (.precisionOutOfRange config.floatPrecision)

/-- The configuration with another precision. -/
def withFloatPrecision (config : PrintConfig) (precision : Nat) : Except LoadError PrintConfig :=
  validated { config with floatPrecision := precision }

/-- The result of a load and the log of it. -/
structure Loading where
  result : Except LoadError PrintConfig
  log : List LogRecord

/-- A load that ends before anything is recorded. -/
def Loading.failed (error : LoadError) : Loading := ⟨.error error, []⟩

/-- Loads a configuration from a text. The precision is recorded last, once it has been checked. -/
def loadToml (source : String) : Loading :=
  match Toml.parse? source with
  | none => .failed .notToml
  | some root =>
    match ofRoot root with
    | .error misfit => .failed (.misfit source misfit)
    | .ok config =>
      match config.validated with
      | .error error => .failed error
      | .ok config => ⟨.ok config, [.loaded config.floatPrecision]⟩

/-- Loads a configuration from a file with the given bytes, if there is such a file. -/
def loadFile (contents : Option ByteArray) : Loading :=
  match contents with
  | none => .failed .missingFile
  | some bytes =>
    match String.fromUTF8? bytes with
    | none => .failed .notUtf8
    | some source => loadToml source

def ofToml (source : String) : Except LoadError PrintConfig := (loadToml source).result

def ofFile (contents : Option ByteArray) : Except LoadError PrintConfig :=
  (loadFile contents).result

/-- The log that belongs to a result: a record of the precision, if there is one. -/
def loadLog (loaded : Except LoadError PrintConfig) : List LogRecord :=
  match loaded with
  | .ok config => [.loaded config.floatPrecision]
  | .error _ => []

/-- Without the log, a load goes through the parser, the reader of the root table and the check. -/
theorem ofToml_eq (source : String) : ofToml source =
    match Toml.parse? source with
    | none => .error .notToml
    | some root =>
      match ofRoot root with
      | .ok config => config.validated
      | .error misfit => .error (.misfit source misfit) := by
  unfold ofToml loadToml
  cases Toml.parse? source with
  | none => rfl
  | some root =>
    cases hroot : ofRoot root with
    | error misfit => simp only [hroot, Loading.failed]
    | ok config => cases hconfig : config.validated <;> simp only [hroot, hconfig, Loading.failed]

/-- A load from a text leaves the log that belongs to its result. -/
theorem log_loadToml (source : String) : (loadToml source).log = loadLog (ofToml source) := by
  unfold ofToml loadToml
  split
  · rfl
  · split
    · rfl
    · split <;> rfl

/-- A load from a file leaves the log that belongs to its result. -/
theorem log_loadFile (contents : Option ByteArray) :
    (loadFile contents).log = loadLog (ofFile contents) := by
  unfold ofFile loadFile
  split
  · rfl
  · split
    · rfl
    · exact log_loadToml _

theorem validated_eq_ok_iff {config result : PrintConfig} :
    config.validated = .ok result ↔ result = config ∧ config.Valid := by
  unfold validated
  split
  · next h => simp [h, eq_comm]
  · next h => simp [h]

end PrintConfig

end SyntaxTree
