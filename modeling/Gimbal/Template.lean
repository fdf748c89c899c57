/-
Gimbal/Template.lean

Templates: gates of a fixed form with free angles.

The first angle of every template is a global phase and never becomes a gate.
The others feed runs of rotations about the third, the first and the third axis,
as deep as the template.  A one-qubit template is one run; a two-qubit template
has a run on the target on both sides of a phase flip.

`templateUnitary` multiplies the matrices out and `stepsOfAngles` lists the
gates; the two read the angle vector independently.
-/
import Gimbal.Step
import Gimbal.Fault

namespace Gimbal

/-- Why a decomposition was not found. -/
inductive SynthesisError
  /-- No depth fitted within the cap on attempts. -/
  | exhausted (attempts : Nat)
  /-- The minimizer did not converge within the cap on restarts. -/
  | nonconvergence (depth restarts : Nat)
  /-- The target is neither two by two nor four by four. -/
  | invalidTarget (rows cols : Nat)
  /-- No template has this depth. -/
  | invalidDepth (depth : Nat)
  /-- The template of this depth has another number of angles. -/
  | parameterCount (expected actual : Nat)
  /-- No template of this shape has this number of angles. -/
  | unsupportedAngleCount (count : Nat)
  /-- The minimizer broke off. -/
  | fault (cause : Fault)
deriving DecidableEq, Repr

/-- The wording of an error. -/
def SynthesisError.message : SynthesisError → String
  | .exhausted n => "no decomposition found after " ++ toString n ++ " attempts"
  | .nonconvergence d n =>
    "optimizer did not converge at depth " ++ toString d ++ " after " ++
      toString n ++ " restarts"
  | .invalidTarget r c =>
    "target must be a 2x2 or 4x4 matrix, got " ++ toString r ++ "x" ++
      toString c
  | .invalidDepth d => "template depth " ++ toString d ++ " is outside 1..=3"
  | .parameterCount e a =>
    "expected " ++ toString e ++ " angles for this template, got " ++ toString a
  | .unsupportedAngleCount n => "no template takes " ++ toString n ++ " angles"
  | .fault _ => "minimizer broke off"

/-- The number of qubits of a template. -/
inductive Shape
  | oneQubit
  | twoQubit
deriving DecidableEq, Repr

/-- The greatest depth of a template. -/
def maxTemplateDepth : Nat := 3

/-- Whether there are templates of this depth. -/
def isTemplateDepth (depth : Nat) : Bool :=
  1 ≤ depth && depth ≤ maxTemplateDepth

namespace Shape

/-- The shape of templates for a target. -/
def ofMat {K : Type} (m : Mat K) : Except SynthesisError Shape :=
  if m.rows = 2 ∧ m.cols = 2 then .ok .oneQubit
  else if m.rows = 4 ∧ m.cols = 4 then .ok .twoQubit
  else .error (.invalidTarget m.rows m.cols)

/-- The number of angles of a template. -/
def angleCount : Shape → Nat → Nat
  | .oneQubit, depth => depth + 1
  | .twoQubit, depth => 2 * depth + 1

/-- The number of angles, where it fits a machine word. -/
def checkedAngleCount (s : Shape) (depth : Nat) : Except Fault Nat :=
  checkCount (s.angleCount depth)

/-- The depth of the template with the given number of angles. -/
def depthOfCount? : Shape → Nat → Option Nat
  | .oneQubit, 2 => some 1
  | .oneQubit, 3 => some 2
  | .oneQubit, 4 => some 3
  | .twoQubit, 3 => some 1
  | .twoQubit, 5 => some 2
  | .twoQubit, 7 => some 3
  | _, _ => none

end Shape

variable {R : Type}

/-- The axis of the `k`-th rotation of a run. -/
def runAxis (k : Nat) : Axis := if k % 2 = 0 then .z else .x

/-- The product of a run of rotations, the first one acting first; `k` have gone
before. -/
def runMatrixFrom [Scalar R] (k : Nat) (m : Mat (Amplitude R)) :
    List R → Mat (Amplitude R)
  | [] => m
  | angle :: rest =>
    runMatrixFrom (k + 1) ((Rotations.rotation (runAxis k) angle).mul m) rest

/-- The product of a run of rotations. -/
def runMatrix [Scalar R] (angles : List R) : Mat (Amplitude R) :=
  runMatrixFrom 0 (Mat.identity 1) angles

/-- Checks that a template of this depth takes this many angles. -/
def checkTemplate (s : Shape) (depth count : Nat) :
    Except SynthesisError Unit :=
  if !isTemplateDepth depth then .error (.invalidDepth depth)
  else if count ≠ s.angleCount depth then
    .error (.parameterCount (s.angleCount depth) count)
  else .ok ()

/-- The unitary of a template without its phase. -/
def templateProduct [Scalar R] (s : Shape) (depth : Nat) (angles : List R) :
    Mat (Amplitude R) :=
  match s with
  | .oneQubit => runMatrix angles
  | .twoQubit =>
    let before := (runMatrix (angles.take depth)).lift
    let after := (runMatrix (angles.drop depth)).lift
    (after.mul .controlledZ).mul before

/-- The unitary of a template with all its angles, the phase first. -/
def templateUnitary [Scalar R] (s : Shape) (depth : Nat) (x : List R) :
    Except SynthesisError (Mat (Amplitude R)) := do
  checkTemplate s depth x.length
  let phase := Amplitude.cis (x.headD 0)
  return (templateProduct s depth x.tail).map fun v => v * phase

/-- The steps of a run of rotations. -/
def runSteps (angles : List R) : Decomposition R :=
  angles.zipIdx.map fun p => .rotation (runAxis p.2) p.1

/-- The gates of a template with the given angles, without the phase; their
number selects the template. -/
def stepsOfAngles (s : Shape) (x : List R) :
    Except SynthesisError (Decomposition R) :=
  match s.depthOfCount? x.length with
  | none => .error (.unsupportedAngleCount x.length)
  | some depth =>
    match s with
    | .oneQubit => .ok (runSteps (x.drop 1))
    | .twoQubit =>
      .ok (runSteps ((x.drop 1).take depth) ++ .cz ::
        runSteps (x.drop (depth + 1)))

end Gimbal
