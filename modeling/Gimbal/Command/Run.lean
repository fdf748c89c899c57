/-
Gimbal/Command/Run.lean

What the command line does, with whatever files it is given.

The table is loaded or the usual one taken, completed for the one-qubit gates,
and saved if asked for; then the circuit is read, expanded and reduced, with
each stage printed as soon as it is done. Whatever was printed before an error
stays printed.
-/
import Gimbal.Command.Options
import Gimbal.Compile
import Gimbal.Codec.Table
import Gimbal.Files
import Gimbal.Mat.Phase

namespace Gimbal

/-- The name under which the program presents itself. -/
def programName : String := "rzxcz"

/-- The version of the program. -/
def programVersion : String := "0.1.0"

/-- How a run ends. -/
inductive Ending (R : Type)
  | success
  | failure (cause : CompileError R)
  | broken (cause : Fault)

/-- What a run says. -/
structure Report (R : Type) where
  output : String
  ending : Ending R
  events : List (Event R)

/-- The ending for an error: a fault behind it comes first. -/
def Ending.ofError {R : Type} (e : CompileError R) : Ending R :=
  match e.fault? with
  | some f => .broken f
  | none => .failure e

namespace Command

variable {R : Type} [Scalar R] [Numeral R]

/-- Entries of the two unitaries may differ by this much: angles are rounded to
two decimals. -/
def checkTolerance : R := 0.05

/-- The settings of a run. -/
def config (o : Options) : Config R := .ofSeed (o.seed.getD 1)

/-- The table of a run: the one that a text stands for, or the usual one, with
every one-qubit gate. -/
def prepareTable (o : Options) (source : Option String) :
    Except (CompileError R) (Table R) := do
  let t ← match source with
    | none => .ok .withDefaults
    | some text => Table.ofText text
  t.populate FixedGate.singleQubit (config o)

/-- The input circuit of a run: the one that a text stands for, or the one for
demonstration. -/
def inputCircuit (source : Option String) :
    Except (CompileError R) (List (Occurrence R)) :=
  match source with
  | none => .ok demoCircuit
  | some text =>
    match Occurrence.listOfText? text with
    | some input => .ok input
    | none => .error .json

/-- The heading of a stage. -/
def heading (stage : String) (gates : Nat) : String :=
  stage ++ " circuit (" ++ toString gates ++ " gates):\n"

/-- The input circuit as it is printed. -/
def inputText (input : List (Occurrence R)) : String :=
  heading "Input" input.length ++
    String.join (input.map fun o => "  " ++ o.text ++ "\n")

/-- An output circuit as it is printed. -/
def outputText (stage : String) (c : Circuit R) : String :=
  "\n" ++ heading stage c.length ++ c.text

/-- How the output compares with the input. -/
def verdict (source output : Option (Mat (Amplitude R))) : String :=
  match source, output with
  | some s, some u =>
    if s.sameUpToPhase u checkTolerance then "equivalent" else "NOT equivalent"
  | _, _ => "not checkable"

/-- The comparison of an output circuit with its input, as it is printed. -/
def checkText (input : List (Occurrence R)) (output : Circuit R) :
    Except Fault String := do
  let qubits := input.flatMap Occurrence.qubits
  let n ← if qubits.isEmpty then pure 1 else Register.widthOf qubits
  let source ← Register.sourceUnitary input n
  let u ← Register.unitary output n
  return "\nCheck: output is " ++ verdict source u ++
    " to the input up to global phase\n"

/-- The second half of a run, from the input circuit on. -/
def compileAndPrint (o : Options) (t : Table R) (input : List (Occurrence R)) :
    Report R :=
  let printed := inputText input
  match (Expander.ofTable t (Synthesizer.ofConfig (config o))).expand input with
  | (.error e, _, events) => ⟨printed, .ofError e, events⟩
  | (.ok expanded, _, events) =>
    let reduced := reduce allRules expanded
    let events := events ++ reductionEvents allRules expanded
    let printed :=
      printed ++ outputText "Expanded" expanded ++ outputText "Reduced" reduced
    if o.check then
      match checkText input reduced with
      | .error f => ⟨printed, .broken f, events⟩
      | .ok line => ⟨printed ++ line, .success, events⟩
    else
      ⟨printed, .success, events⟩

section Access

variable {m : Type → Type} [Monad m]

/-- The text of the file of an option, if the option is given. -/
def readNamed (files : Files m) :
    Option String → ExceptT (CompileError R) m (Option String)
  | none => return none
  | some path => do
    match ← (files.read path : m _) with
    | .ok text => return some text
    | .error e => throw (.file e)

/-- Saves the table if asked for. -/
def saveTable (files : Files m) (o : Options) (t : Table R) :
    ExceptT (CompileError R) m Unit :=
  match o.saveTable with
  | none => return ()
  | some path => do
    match ← (files.write path t.text : m _) with
    | .ok () => return ()
    | .error e => throw (.file e)

/-- The first half of a run, up to the input circuit. -/
def prepare (files : Files m) (o : Options) :
    ExceptT (CompileError R) m (Table R × List (Occurrence R)) := do
  let t ← ExceptT.mk (pure (prepareTable o (← readNamed files o.table)))
  saveTable files o t
  let input ← ExceptT.mk (pure (inputCircuit (← readNamed files o.circuit)))
  return (t, input)

/-- A run of the program. -/
def run (files : Files m) (o : Options) : m (Report R) := do
  match ← (prepare files o).run with
  | .error e => return ⟨"", .ofError e, []⟩
  | .ok (t, input) => return compileAndPrint o t input

end Access

end Command

namespace Report

variable {R : Type} [Numeral R]

/-- The exit code of a run. -/
def exitCode (r : Report R) : Nat :=
  match r.ending with
  | .success => 0
  | .failure _ => 1
  | .broken _ => 101

/-- What a run says about its error. -/
def errorLine? (r : Report R) : Option String :=
  match r.ending with
  | .failure e => some ("error: " ++ e.message)
  | _ => none

end Report

/-- The exit code for arguments that are not understood. -/
def usageExitCode : Nat := 2

end Gimbal
