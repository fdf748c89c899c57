/-
Gimbal/Gate.lean

Gates and their matrices.

There are two vocabularies.  Input circuits name *source gates*: the fixed gates
of `FixedGate` and rotations about any `Direction`.  Output circuits use
rotations about the two directions of `Axis` and the controlled phase flip,
whose matrix is `Mat.controlledZ`.

`Rotations A K` says how rotations by angles of type `A` act on amplitudes of
type `K`.  The usual instance has half-angle sines and cosines; facts about
circuits that do not depend on them are stated for every instance.
-/
import Gimbal.Mat
import Gimbal.Decimal

namespace Gimbal

/-! ### Rotations -/

/-- The directions that a rotation can turn about. -/
inductive Direction
  | x
  | y
  | z
deriving DecidableEq, Repr

/-- The directions that output circuits turn about. -/
inductive Axis
  | x
  | z
deriving DecidableEq, Repr

namespace Direction

/-- The name of the rotations about a direction. -/
def label : Direction → String
  | .x => "Rx"
  | .y => "Ry"
  | .z => "Rz"

/-- The direction whose rotations have the given name. -/
def ofLabel? (name : String) : Option Direction :=
  [x, y, z].find? fun d => d.label == name

variable {R : Type}

/-- The matrix of a rotation. -/
def rotation [Scalar R] (d : Direction) (angle : R) : Mat (Amplitude R) :=
  let c := Scalar.cos (angle / 2.0)
  let s := Scalar.sin (angle / 2.0)
  match d with
  | .x => .square ⟨c, 0⟩ ⟨0, -s⟩ ⟨0, -s⟩ ⟨c, 0⟩
  | .y => .square ⟨c, 0⟩ ⟨-s, 0⟩ ⟨s, 0⟩ ⟨c, 0⟩
  | .z => .square (.cis (-angle / 2.0)) 0 0 (.cis (angle / 2.0))

/-- The name of a rotation with its angle. -/
def labelWithAngle [Numeral R] (d : Direction) (angle : R) : String :=
  d.label ++ "(" ++ Numeral.fixed 2 angle ++ ")"

end Direction

/-- The direction of an axis. -/
def Axis.direction : Axis → Direction
  | .x => .x
  | .z => .z

/-- The matrices of the rotations in output circuits. -/
class Rotations (A K : Type) where
  rotation : Axis → A → Mat K

instance {R : Type} [Scalar R] : Rotations R (Amplitude R) :=
  ⟨fun axis angle => axis.direction.rotation angle⟩

/-! ### Fixed gates -/

/-- The matrix that flips the phase where both qubits are set. -/
def Mat.controlledZ {K : Type} [Zero K] [One K] [Neg K] : Mat K :=
  .ofFn 4 4 fun i j => if i = j then if i = 3 then -1 else 1 else 0

/-- The matrix that flips the second qubit where the first one is set. -/
def Mat.controlledX {K : Type} [Zero K] [One K] : Mat K :=
  .ofFn 4 4 fun i j => if j = [0, 1, 3, 2].getD i 0 then 1 else 0

/-- The gates with a name and no angle. -/
inductive FixedGate
  | i
  | x
  | y
  | z
  | h
  | cnot
  | cz
deriving DecidableEq, Repr

namespace FixedGate

/-- The name in input circuits. -/
def name : FixedGate → String
  | .i => "I"
  | .x => "X"
  | .y => "Y"
  | .z => "Z"
  | .h => "H"
  | .cnot => "CNOT"
  | .cz => "CZ"

/-- Every fixed gate. -/
def all : List FixedGate := [.i, .h, .x, .y, .z, .cnot, .cz]

/-- The fixed gates on one qubit. -/
def singleQubit : List FixedGate := [.i, .h, .x, .y, .z]

/-- The gate of the given name. -/
def ofName? (name : String) : Option FixedGate :=
  all.find? fun g => g.name == name

/-- The number of qubits that a gate acts on. -/
def arity : FixedGate → Nat
  | .cnot => 2
  | .cz => 2
  | _ => 1

/-- The matrix of a gate. -/
def matrix {R : Type} [Scalar R] : FixedGate → Mat (Amplitude R)
  | .i => .identity 1
  | .x => .square 0 1 1 0
  | .y => .square 0 (-Amplitude.i) Amplitude.i 0
  | .z => .square 1 0 0 (-1)
  | .h =>
    let f : Amplitude R := .ofReal Scalar.invSqrtTwo
    .square f f f (-f)
  | .cnot => .controlledX
  | .cz => .controlledZ

end FixedGate

/-- The gates that decompositions are searched for. -/
inductive SourceGate (R : Type)
  | fixed (gate : FixedGate)
  | rotation (direction : Direction) (angle : R)

namespace SourceGate

variable {R : Type}

/-- The name of a gate, with its angle. -/
def label [Numeral R] : SourceGate R → String
  | .fixed g => g.name
  | .rotation d angle => d.labelWithAngle angle

/-- The number of qubits that a gate acts on. -/
def arity : SourceGate R → Nat
  | .fixed g => g.arity
  | .rotation _ _ => 1

/-- The matrix of a gate. -/
def matrix [Scalar R] : SourceGate R → Mat (Amplitude R)
  | .fixed g => g.matrix
  | .rotation d angle => d.rotation angle

end SourceGate

end Gimbal
