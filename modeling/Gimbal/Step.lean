/-
Gimbal/Step.lean

Decompositions: sequences of steps that are not yet bound to qubits.  A rotation
in a two-qubit decomposition acts on the target.
-/
import Gimbal.Circuit

namespace Gimbal

/-- A gate of a decomposition. -/
inductive Step (R : Type)
  | rotation (axis : Axis) (angle : R)
  | cz
deriving Repr

/-- Steps in the order in which they act. -/
abbrev Decomposition (R : Type) := List (Step R)

namespace Step

variable {R : Type}

/-- A rotation about the first axis. -/
def rx (angle : R) : Step R := .rotation .x angle

/-- A rotation about the third axis. -/
def rz (angle : R) : Step R := .rotation .z angle

/-- The step on one qubit; a phase flip needs two. -/
def bindSingle? (qubit : Nat) : Step R → Option (Entry R)
  | .rotation axis angle => some (.rotation axis angle qubit)
  | .cz => none

/-- The step on a control and a target: rotations act on the target. -/
def bindControlled (control target : Nat) : Step R → Entry R
  | .rotation axis angle => .rotation axis angle target
  | .cz => .cz control target

/-- Whether a step joins two qubits. -/
def entangles : Step R → Bool
  | .rotation _ _ => false
  | .cz => true

/-- The text of a step. -/
def text [Numeral R] : Step R → String
  | .rotation axis angle => axis.direction.labelWithAngle angle
  | .cz => "CZ"

/-- Equality of steps, with the angles compared as numbers. -/
protected def beq [BEq R] : Step R → Step R → Bool
  | .rotation a x, .rotation b y => a = b && x == y
  | .cz, .cz => true
  | _, _ => false

instance [BEq R] : BEq (Step R) := ⟨Step.beq⟩

end Step

namespace Decomposition

variable {R : Type}

/-- The steps, separated by blanks. -/
def text [Numeral R] (d : Decomposition R) : String :=
  " ".intercalate (d.map Step.text)

end Decomposition

end Gimbal
