/-
Gimbal/Compile.lean

Compilation: expand an input circuit, then reduce the result with all rules.
-/
import Gimbal.Expand
import Gimbal.Reduce

namespace Gimbal

variable {G R : Type} [Scalar R]

/-- The rules of a compilation. -/
def allRules : List Rule := [.all]

/-- The events of a reduction: its passes, numbered from 1. -/
def reductionEvents (rules : List Rule) (c : Circuit R) : List (Event R) :=
  (passLengths rules c).zipIdx.map fun p => .reductionPass (p.2 + 1) p.1.1 p.1.2

/-- Compiles an input circuit; the searcher keeps what is left of its source. -/
def compile [AngleSource G R] (input : List (Occurrence R)) (table : Table R)
    (searcher : Synthesizer G R) :
    Except (CompileError R) (Circuit R) × Synthesizer G R × List (Event R) :=
  match (Expander.ofTable table searcher).expand input with
  | (.error cause, e, events) => (.error cause, e.searcher, events)
  | (.ok expanded, e, events) =>
    let reduced := reduce allRules expanded
    (.ok reduced, e.searcher,
      events ++ reductionEvents allRules expanded ++
        [.compiled input.length expanded.length reduced.length])

end Gimbal
