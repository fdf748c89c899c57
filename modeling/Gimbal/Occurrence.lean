/-
Gimbal/Occurrence.lean

Input circuits: lists of named gates on numbered qubits.

A name means nothing by itself: an occurrence may name a gate that only a
decomposition table knows.  `Occurrence.matrix?` is the meaning of those that
the library knows on its own, and `sourceUnitary` the reference that a compiled
circuit is measured against.
-/
import Gimbal.Register

namespace Gimbal

/-- A named gate and the qubits it acts on. -/
inductive Occurrence (R : Type)
  /-- A gate on one qubit. -/
  | single (name : String) (qubit : Nat)
  /-- A gate on a control and a target. -/
  | controlled (name : String) (control target : Nat)
  /-- A gate on one qubit with an angle. -/
  | parametrized (name : String) (angle : R) (qubit : Nat)
deriving Repr

namespace Occurrence

variable {R : Type}

/-- The name of the gate. -/
def name : Occurrence R → String
  | .single n _ => n
  | .controlled n _ _ => n
  | .parametrized n _ _ => n

/-- The qubits, in the order of the gate's factors. -/
def qubits : Occurrence R → List Nat
  | .single _ q => [q]
  | .controlled _ c t => [c, t]
  | .parametrized _ _ q => [q]

/-- The matrix of the gate, where the library knows one of this name and
shape. -/
def matrix? [Scalar R] : Occurrence R → Option (Mat (Amplitude R))
  | .single n _ =>
    ((FixedGate.ofName? n).filter fun g => g.arity == 1).map FixedGate.matrix
  | .controlled n _ _ =>
    ((FixedGate.ofName? n).filter fun g => g.arity == 2).map FixedGate.matrix
  | .parametrized n angle _ =>
    (Direction.ofLabel? n).map fun d => d.rotation angle

/-- The text of an occurrence. -/
def text [Numeral R] : Occurrence R → String
  | .single n q => n ++ " q" ++ toString q
  | .controlled n c t => n ++ " q" ++ toString c ++ " q" ++ toString t
  | .parametrized n angle q =>
    n ++ "(" ++ Numeral.fixed 2 angle ++ ") q" ++ toString q

/-- Renames the qubits of an occurrence. -/
def rename (p : Nat → Nat) : Occurrence R → Occurrence R
  | .single n q => .single n (p q)
  | .controlled n c t => .controlled n (p c) (p t)
  | .parametrized n angle q => .parametrized n angle (p q)

/-! ### The occurrences of known gates -/

/-- A fixed gate on one qubit. -/
def ofFixed (g : FixedGate) (qubit : Nat) : Occurrence R := .single g.name qubit

/-- A fixed gate on a control and a target. -/
def ofControlled (g : FixedGate) (control target : Nat) : Occurrence R :=
  .controlled g.name control target

/-- A rotation. -/
def ofRotation (d : Direction) (angle : R) (qubit : Nat) : Occurrence R :=
  .parametrized d.label angle qubit

end Occurrence

/-- The unitary of an input circuit on an `n`-qubit register; `none` where a
gate is not known or a qubit lies outside. -/
def sourceUnitary {R : Type} [Scalar R] (input : List (Occurrence R))
    (n : Nat) :
    Option (Mat (Amplitude R)) :=
  input.foldlM (fun u o => do
    let g ← o.matrix?
    let full ← g.embed n o.qubits
    return full.mul u) (Mat.identity n)

/-- The unitary of an input circuit, on a register that can be described. -/
def Register.sourceUnitary {R : Type} [Scalar R] (input : List (Occurrence R))
    (n : Nat) :
    Except Fault (Option (Mat (Amplitude R))) := do
  check n
  return Gimbal.sourceUnitary input n

/-- A circuit that uses every kind of gate: the one that is compiled when no
other is given. -/
def demoCircuit {R : Type} [Scalar R] : List (Occurrence R) :=
  [.ofFixed .i 0, .ofFixed .h 0, .ofFixed .x 0, .ofFixed .y 1, .ofFixed .z 1,
    .ofRotation .x 3.14 0, .ofRotation .z 0.79 0, .ofControlled .cz 0 1,
    .ofControlled .cnot 1 0,
    .ofRotation .y 1.57 0]

end Gimbal
