/-
Gimbal/Register.lean

Registers that fit the machine.  The matrices of an `n`-qubit register have
`4 ^ n` entries of two words each; from thirty qubits on they cannot be
described, and asking for one is a fault.  The functions here check the size
first and then do what the unbounded ones do.
-/
import Gimbal.Circuit

namespace Gimbal

namespace Register

/-- Matrices on this many qubits take more than half the words of the machine's
address space. -/
def limit : Nat := 30

/-- Accepts a register whose matrices can be described. -/
def check (n : Nat) : Except Fault Unit :=
  if n < limit then .ok () else .error .registerTooLarge

variable {K : Type} [Zero K]

/-- The identity on a register. -/
def identity [One K] (n : Nat) : Except Fault (Mat K) := do
  check n
  return Mat.identity n

/-- A gate on some qubits of a register. -/
def embed (g : Mat K) (n : Nat) (qubits : List Nat) : Except Fault (Mat K) := do
  check n
  match g.embed n qubits with
  | some m => return m
  | none => throw .noEmbedding

/-- The unitary of an output circuit on a register. -/
def unitary {R : Type} [One K] [Neg K] [MulAdd K] [Rotations R K]
    (c : Circuit R) (n : Nat) :
    Except Fault (Option (Mat K)) := do
  check n
  return c.unitary n

/-- The size of the smallest register that holds some qubits. -/
def widthOf (qubits : List Nat) : Except Fault Nat := checkCount (width qubits)

end Register

end Gimbal
