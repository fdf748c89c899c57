/-
Gimbal/CompileError.lean

Why a circuit was not compiled.
-/
import Gimbal.Files
import Gimbal.Occurrence
import Gimbal.Template

namespace Gimbal

/-- Why a circuit was not compiled. -/
inductive CompileError (R : Type)
  /-- No decomposition was found for a gate. -/
  | synthesis (gate : SourceGate R) (cause : SynthesisError)
  /-- No gate has this name. -/
  | unknownGate (name : String)
  /-- The gate of this name does not act on so many, or on such, qubits. -/
  | arityMismatch (name : String) (occurrence : Occurrence R)
  /-- A file could not be read or written. -/
  | file (cause : FileError)
  /-- A text is not what was expected. -/
  | json

namespace CompileError

variable {R : Type} [Numeral R]

/-- The wording of an error. -/
def message : CompileError R → String
  | .synthesis gate cause =>
    "synthesis failed for " ++ gate.label ++ ": " ++ cause.message
  | .unknownGate name => "unknown gate `" ++ name ++ "`"
  | .arityMismatch name o => "`" ++ name ++ "` cannot be applied as " ++ o.text
  | .file cause => "I/O error: " ++ cause.message
  | .json => "JSON error"

/-- The fault behind an error, if there is one. -/
def fault? : CompileError R → Option Fault
  | .synthesis _ (.fault f) => some f
  | _ => none

end CompileError

end Gimbal
