/-
Gimbal/Circuit.lean

Output circuits: lists of rotations and controlled phase flips on numbered
qubits, the first entry acting first, so that the unitary of a circuit is the
product of its entries in reverse:

    unitary (c ++ d) n = unitary d n * unitary c n        where both exist.

A circuit has a unitary on every register that holds its qubits.
-/
import Gimbal.Gate
import Gimbal.Mat.Embed
import Gimbal.Fault

namespace Gimbal

/-- A gate of an output circuit, on its qubits. -/
inductive Entry (R : Type)
  | rotation (axis : Axis) (angle : R) (qubit : Nat)
  | cz (control target : Nat)
deriving Repr

namespace Entry

variable {R : Type}

/-- A rotation about the first axis. -/
def rx (angle : R) (qubit : Nat) : Entry R := .rotation .x angle qubit

/-- A rotation about the third axis. -/
def rz (angle : R) (qubit : Nat) : Entry R := .rotation .z angle qubit

/-- The qubits of an entry, in the order of its gate's factors. -/
def qubits : Entry R → List Nat
  | .rotation _ _ q => [q]
  | .cz c t => [c, t]

/-- The matrix of an entry on its own qubits. -/
def matrix {K : Type} [Zero K] [One K] [Neg K] [Rotations R K] : Entry R → Mat K
  | .rotation axis angle _ => Rotations.rotation axis angle
  | .cz _ _ => .controlledZ

/-- The text of an entry. -/
def text [Numeral R] : Entry R → String
  | .rotation axis angle q =>
    axis.direction.labelWithAngle angle ++ " q" ++ toString q
  | .cz c t => "CZ q" ++ toString c ++ " q" ++ toString t

/-- Renames the qubits of an entry. -/
def rename (p : Nat → Nat) : Entry R → Entry R
  | .rotation axis angle q => .rotation axis angle (p q)
  | .cz c t => .cz (p c) (p t)

end Entry

/-- A list of entries, the first one acting first. -/
abbrev Circuit (R : Type) := List (Entry R)

/-- One more than the highest of some qubits; zero where there are none. -/
def width (qubits : List Nat) : Nat := qubits.foldl (fun w q => max w (q + 1)) 0

namespace Circuit

variable {R : Type}

/-- The qubits of all entries. -/
def qubits (c : Circuit R) : List Nat := c.flatMap Entry.qubits

/-- The size of the smallest register that holds the circuit. -/
def width (c : Circuit R) : Nat := Gimbal.width c.qubits

/-- The unitary of a circuit on an `n`-qubit register; `none` where a qubit lies
outside. -/
def unitary {K : Type} [Zero K] [One K] [Neg K] [MulAdd K] [Rotations R K]
    (c : Circuit R) (n : Nat) : Option (Mat K) :=
  c.foldlM (fun u e => (e.matrix.embed n e.qubits).map fun g => g.mul u)
    (Mat.identity n)

/-- The entries, a line each. -/
def text [Numeral R] (c : Circuit R) : String :=
  String.join (c.map fun e => e.text ++ "\n")

end Circuit

end Gimbal
