/-
Gimbal/Fault.lean

Faults: requests that no representation on the machine can meet, or that ask a
search to go on where nothing is left to do.  They are kept apart from the
errors of synthesis and compilation, which are ordinary answers.
-/
namespace Gimbal

/-- Why a computation stops without an answer. -/
inductive Fault
  /-- A register has too many qubits for its matrices to be described. -/
  | registerTooLarge
  /-- A count does not fit a machine word. -/
  | countTooLarge
  /-- A gate has no embedding: a qubit outside the register, or too small a
  matrix. -/
  | noEmbedding
  /-- An interval whose lower end is not at most its upper end. -/
  | improperInterval
  /-- A coordinate of the start has no interval. -/
  | missingInterval
  /-- More curvature pairs are to be kept than can be stored. -/
  | historyTooLarge
  /-- A simplex of one vertex has no second one to compare with. -/
  | noSecondVertex
deriving DecidableEq, Repr

/-- Counts are below this bound. -/
def wordBound : Nat := 0x10000000000000000

/-- Accepts a count that fits a machine word. -/
def checkCount (n : Nat) : Except Fault Nat :=
  if n < wordBound then .ok n else .error .countTooLarge

end Gimbal
