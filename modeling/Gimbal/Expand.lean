/-
Gimbal/Expand.lean

Replacing the gates of an input circuit by their decompositions.

A name that the table knows is looked up there.  Of the others, rotations about
the two axes of output circuits and the phase flip stand for themselves, and
rotations about the second axis are synthesized, once for each angle: the
decomposition is remembered under the representation of the angle.
-/
import Gimbal.Populate

namespace Gimbal

variable {G R : Type}

/-- Binds a decomposition to the qubits of an occurrence.  Two qubits must
differ and need a decomposition that joins them; one qubit needs one that does
not. -/
def bindSteps (d : Decomposition R) (o : Occurrence R) :
    Except (CompileError R) (Circuit R) :=
  match o with
  | .controlled name c t =>
    if c = t ∨ !d.any Step.entangles then .error (.arityMismatch name o)
    else .ok (d.map (Step.bindControlled c t))
  | .single name q | .parametrized name _ q =>
    match d.mapM (Step.bindSingle? q) with
    | some entries => .ok entries
    | none => .error (.arityMismatch name o)

/-- Expands occurrences one by one; the decompositions of angles met before are
remembered. -/
structure Expander (G R : Type) where
  table : Table R
  searcher : Synthesizer G R
  remembered : List (R × Decomposition R)

namespace Expander

/-- An expander that has met no angle yet. -/
def ofTable (table : Table R) (searcher : Synthesizer G R) : Expander G R :=
  ⟨table, searcher, []⟩

variable [Scalar R]

/-- The decomposition remembered for an angle. -/
def known? (e : Expander G R) (angle : R) : Option (Decomposition R) :=
  (e.remembered.find? fun p => Scalar.same p.1 angle).map (·.2)

variable [AngleSource G R]

/-- The decomposition of a rotation about the second axis. -/
def decomposeTurn (e : Expander G R) (angle : R) :
    Except (CompileError R) (Decomposition R) × Expander G R × List (Event R) :=
  match e.known? angle with
  | some d => (.ok d, e, [])
  | none =>
    let gate : SourceGate R := .rotation .y angle
    let (found, searcher, events) := e.searcher.synthesize gate.matrix
    let e := { e with searcher := searcher }
    match found.bind Synthesis.steps with
    | .error cause => (.error (.synthesis gate cause), e, events)
    | .ok d =>
      (.ok d, { e with remembered := (angle, d) :: e.remembered },
        events ++ [.decomposed angle d])

/-- The entries of an occurrence that the table does not know. -/
def expandUnlisted (e : Expander G R) (o : Occurrence R) :
    Except (CompileError R) (Circuit R) × Expander G R × List (Event R) :=
  match o with
  | .parametrized name angle q =>
    match Direction.ofLabel? name with
    | some .x => (.ok [.rx angle q], e, [])
    | some .z => (.ok [.rz angle q], e, [])
    | some .y =>
      let (d, e, events) := e.decomposeTurn angle
      (d.bind fun d => bindSteps d o, e, events)
    | none => (.error (.unknownGate name), e, [])
  | .controlled name c t =>
    if name = FixedGate.cz.name then
      (if c = t then .error (.arityMismatch name o) else .ok [.cz c t], e, [])
    else (.error (.unknownGate name), e, [])
  | .single name _ => (.error (.unknownGate name), e, [])

/-- The entries of an occurrence. -/
def expandOne (e : Expander G R) (o : Occurrence R) :
    Except (CompileError R) (Circuit R) × Expander G R × List (Event R) :=
  match e.table.find? o.name with
  | some d => (bindSteps d o, e, [])
  | none => e.expandUnlisted o

/-- The entries of an input circuit; the first occurrence that fails ends it. -/
def expand (e : Expander G R) :
    List (Occurrence R) →
      Except (CompileError R) (Circuit R) × Expander G R × List (Event R)
  | [] => (.ok [], e, [])
  | o :: rest =>
    match e.expandOne o with
    | (.error cause, e, events) => (.error cause, e, events)
    | (.ok entries, e, events) =>
      let (later, e, more) := expand e rest
      (later.map (entries ++ ·), e,
        events ++ .expanded o entries.length :: more)

end Expander

end Gimbal
