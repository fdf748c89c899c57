/-
Gimbal/Mat/Embed.lean

A gate on a few qubits of a larger register.

Qubit 0 is the most significant bit of a row or column index, so qubit `q` of an
`n`-qubit register is bit `n - 1 - q`.  The order of the chosen qubits is the
order of the gate's own factors: a controlled gate on `[1, 0]` has qubit 1 as
its control.

`Mat.embed g n qs` reads, for each pair of indices that agree on the other
qubits, the entry of `g` at the bits of the chosen ones, and has zeros
elsewhere.  It fails when such a reading fails: a chosen qubit is not in the
register, or `g` has no such entry.
-/
import Gimbal.Mat

namespace Gimbal

/-- The bit of qubit `q` in an index of an `n`-qubit register, if the register
has that qubit. -/
def qubitBit? (n q index : Nat) : Option Bool :=
  if q < n then some (index.testBit (n - 1 - q)) else none

/-- The bits of the chosen qubits, read as a number with the first qubit in
front. -/
def subIndex? (n : Nat) (qubits : List Nat) (index : Nat) : Option Nat :=
  qubits.foldlM
    (fun acc q => (qubitBit? n q index).map fun b => 2 * acc + b.toNat) 0

/-- Whether two indices agree on every qubit that was not chosen. -/
def agreeOff (n : Nat) (qubits : List Nat) (i j : Nat) : Bool :=
  (List.range n).all fun q =>
    qubits.contains q || i.testBit (n - 1 - q) == j.testBit (n - 1 - q)

namespace Mat

variable {K : Type} [Zero K]

/-- One entry of an embedded gate, if it can be read. -/
def embedAt? (g : Mat K) (n : Nat) (qubits : List Nat) (i j : Nat) : Option K :=
  if agreeOff n qubits i j then do
    let row ← subIndex? n qubits i
    let col ← subIndex? n qubits j
    g.entryAt? row col
  else
    some 0

/-- The gate `g` on the given qubits of an `n`-qubit register. -/
def embed (g : Mat K) (n : Nat) (qubits : List Nat) : Option (Mat K) :=
  let cells := ofFn (Nat.pow 2 n) (Nat.pow 2 n) (g.embedAt? n qubits)
  if cells.entries.all Option.isSome then some (cells.map (·.getD 0)) else none

end Mat

end Gimbal
