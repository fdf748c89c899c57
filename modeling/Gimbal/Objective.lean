/-
Gimbal/Objective.lean

How far a template is from a target: the sum of squared distances over the
entries where the target is not zero.  What the template holds elsewhere does
not count.
-/
import Gimbal.Template

namespace Gimbal

variable {R : Type} [Scalar R]

/-- Entries of a target up to this magnitude count as zero. -/
def structuralZero : R := 1e-12

/-- The fit of templates of one depth to a target. -/
structure Objective (R : Type) where
  target : Mat (Amplitude R)
  shape : Shape
  depth : Nat
  /-- Which entries of the target count, row by row. -/
  mask : List Bool

namespace Objective

/-- The objective for a target; it must have a shape, and there must be
templates of the depth. -/
def ofTarget (target : Mat (Amplitude R)) (depth : Nat) :
    Except SynthesisError (Objective R) := do
  let shape ← Shape.ofMat target
  if !isTemplateDepth depth then throw (.invalidDepth depth)
  return ⟨target, shape, depth,
    target.entries.toList.map fun v => decide (structuralZero < v.norm)⟩

/-- The number of angles of the template. -/
def dimension (o : Objective R) : Nat := o.shape.angleCount o.depth

/-- The masked squared distance of a matrix from the target, entry by entry
until one of them ends. -/
def residual (o : Objective R) (u : Mat (Amplitude R)) : R :=
  sum <|
    ((o.target.entries.toList.zip u.entries.toList).zip o.mask).filterMap
      fun p =>
    if p.2 then some (p.1.1 - p.1.2).normSq else none

/-- The residual of the template with the given angles. -/
def evaluate (o : Objective R) (x : List R) : Except SynthesisError R := do
  let u ← templateUnitary o.shape o.depth x
  return o.residual u

/-- The residual as a function to minimize; a vector of the wrong length has an
unbounded one. -/
def score (o : Objective R) (x : List R) : R :=
  match o.evaluate x with
  | .ok r => r
  | .error _ => Scalar.unbounded

end Objective

end Gimbal
