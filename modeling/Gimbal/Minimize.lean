/-
Gimbal/Minimize.lean

Local minimization in a box: what the two searches share.

A box is a list of intervals, one for each coordinate.  A search is given an
objective, a start and a box, and reports the point where it stopped, the value
there, whether it converged, and why it stopped.
-/
import Gimbal.Scalar
import Gimbal.Fault

namespace Gimbal

/-- A closed interval. -/
structure Interval (R : Type) where
  lower : R
  upper : R

/-- Why a search stopped. -/
inductive StopReason
  | objectiveNotFinite
  | gradientBelowTolerance
  | lineSearchFailed
  | reductionBelowTolerance
  | simplexCollapsed
  | iterationLimit
  /-- A search with a reason of its own. -/
  | other (message : String)
deriving DecidableEq, Repr

/-- The wording of a reason. -/
def StopReason.message : StopReason → String
  | .objectiveNotFinite => "objective is not finite"
  | .gradientBelowTolerance => "projected gradient below tolerance"
  | .lineSearchFailed => "line search failed"
  | .reductionBelowTolerance => "relative reduction below tolerance"
  | .simplexCollapsed => "simplex collapsed below tolerance"
  | .iterationLimit => "iteration limit reached"
  | .other message => message

/-- Where a search stopped, over coordinates `R` and values `V`. -/
structure Minimum (R V : Type) where
  point : List R
  value : V
  converged : Bool
  iterations : Nat
  reason : StopReason

/-- What a step of a search leads to. -/
inductive Progress (S R V : Type)
  | stop (result : Minimum R V)
  | next (state : S)

/-- A local search in a box. -/
structure Minimizer (R : Type) where
  name : String
  minimize : (List R → R) → List R → List (Interval R) →
    Except Fault (Minimum R R)

section Box

variable {R : Type} [Scalar R]

namespace Interval

/-- Whether the ends are in order. -/
def isProper (b : Interval R) : Bool := b.lower ≤ b.upper

/-- The nearest point of a proper interval; what is not a number stays. -/
def clamp (b : Interval R) (x : R) : R :=
  if x < b.lower then b.lower else if b.upper < x then b.upper else x

/-- The nearest point of an interval that must be proper. -/
def checkedClamp (b : Interval R) (x : R) : Except Fault R :=
  if b.isProper then .ok (b.clamp x) else .error .improperInterval

end Interval

/-- Clamps each coordinate that has an interval. -/
def project : List (Interval R) → List R → List R
  | b :: bs, x :: xs => b.clamp x :: project bs xs
  | _, xs => xs

/-- Accepts a box whose first `n` intervals are proper. -/
def checkBox (n : Nat) (box : List (Interval R)) : Except Fault Unit :=
  if (box.take n).all Interval.isProper then .ok ()
  else .error .improperInterval

end Box

end Gimbal
