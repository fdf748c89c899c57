/-
Gimbal/Populate.lean

Filling a table by synthesis.

Each gate that has no entry yet is synthesized on its own, with the seed of the
settings plus its position in the list, so the outcome for a gate does not
depend on the others and the searches may be made side by side.  The table is
touched only when all of them are done: either every gate gets an entry or the
table stays as it was.
-/
import Gimbal.Table
import Gimbal.Synthesis
import Gimbal.CompileError

namespace Gimbal

variable {R : Type} [Scalar R]

/-- The decomposition of a fixed gate, searched with a seed of its own. -/
def decomposeFixed (config : Config R) (position : Nat) (g : FixedGate) :
    Except (CompileError R) (Decomposition R) :=
  let searcher :=
    Synthesizer.ofConfig (config.withSeed (config.seed + position.toUInt64))
  match (searcher.synthesize g.matrix).1 with
  | .error e => .error (.synthesis (.fixed g) e)
  | .ok s =>
    match s.steps with
    | .error e => .error (.synthesis (.fixed g) e)
    | .ok steps => .ok steps

/-- Brings the outcomes of searches that were made side by side together. -/
abbrev Gather (R : Type) :=
  List (Except (CompileError R) (String × Decomposition R)) →
    Except (CompileError R) (List (String × Decomposition R))

/-- All results in order; of several errors the first one. -/
def gatherInOrder : Gather R := List.mapM id

namespace Table

/-- The gates without an entry, with their positions in the list. -/
def missing (t : Table R) (gates : List FixedGate) : List (FixedGate × Nat) :=
  gates.zipIdx.filter fun p => !t.contains p.1.name

/-- The outcomes of the searches for the gates without an entry. -/
def searches (t : Table R) (gates : List FixedGate) (config : Config R) :
    List (Except (CompileError R) (String × Decomposition R)) :=
  (t.missing gates).map fun p =>
    (decomposeFixed config p.2 p.1).map fun steps => (p.1.name, steps)

/-- Gives the table an entry for every one of the gates: the outcome, and the
table afterwards. -/
def fill (t : Table R) (gather : Gather R) (gates : List FixedGate)
    (config : Config R) :
    Except (CompileError R) Unit × Table R :=
  match gather (t.searches gates config) with
  | .error e => (.error e, t)
  | .ok found => (.ok (), t.insertAll found)

/-- The table with an entry for every one of the gates. -/
def populate (t : Table R) (gates : List FixedGate) (config : Config R) :
    Except (CompileError R) (Table R) :=
  match t.fill gatherInOrder gates config with
  | (.error e, _) => .error e
  | (.ok (), filled) => .ok filled

end Table

end Gimbal
