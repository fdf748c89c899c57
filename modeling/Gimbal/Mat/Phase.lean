/-
Gimbal/Mat/Phase.lean

Equality of matrices up to a global phase and a tolerance.

The phase is read off at the largest entry of the second matrix and then tested
at every entry. Where that matrix has no entry above the tolerance there is
nothing to read a phase from, and the first one must be within the tolerance of
zero.
-/
import Gimbal.Mat

namespace Gimbal

namespace Mat

variable {R : Type} [Scalar R]

/-- The gap between 1 and the next binary number of 53 digits: a ratio below it
has no direction. -/
def negligibleRatio : R := 1 / ((0x10000000000000 : Nat) : R)

/-- The phase that carries `b` to `a` at the largest entry of `b`: `none` where
every entry of `b` is within the tolerance, `some none` where the corresponding
entry of `a` vanishes. -/
def pivotPhase? (a b : Mat (Amplitude R)) (tolerance : R) :
    Option (Option (Amplitude R)) :=
  match lastGreatest (fun p => p.1.norm)
    (b.entries.toList.zip a.entries.toList) with
  | none => none
  | some (bv, av) =>
    if tolerance < bv.norm then
      let ratio := av / bv
      some (if ratio.norm < negligibleRatio then none else some ratio.direction)
    else
      none

/-- Whether `a` is `b` times a phase, entry by entry within `tolerance`. -/
def sameUpToPhase (a b : Mat (Amplitude R)) (tolerance : R) : Bool :=
  if a.rows = b.rows ∧ a.cols = b.cols then
    match pivotPhase? a b tolerance with
    | none => a.entries.toList.all fun av => av.norm ≤ tolerance
    | some none => false
    | some (some phase) =>
      (a.entries.toList.zip b.entries.toList).all fun p =>
        (p.1 - phase * p.2).norm ≤ tolerance
  else
    false

end Mat

end Gimbal
