/-
Gimbal/Minimize/QuasiNewton.lean

A projected quasi-Newton search with limited memory.

The gradient comes from central differences.  Coordinates that sit at an end of
their interval with the gradient pushing outward are pinned.  The direction is
minus an approximate inverse Hessian times the free part of the gradient,
computed from the last curvature pairs by the two-loop recursion
`inverseHessianTimes`; where it is no direction of descent the pairs are
forgotten and the gradient itself is followed.  Steps are halved until the value
falls enough, and every trial point is clamped into the box.

One iteration is the function `QuasiNewton.advance` on an `Iterate`; all vectors
of an iterate are cut to the shorter of the start and the box.
-/
import Gimbal.Minimize

namespace Gimbal

/-- The parameters of the search. -/
structure QuasiNewton (R : Type) where
  /-- Stops where the projected gradient has no larger component. -/
  gradientTolerance : R
  /-- Stops where a step has no larger relative reduction. -/
  functionTolerance : R
  /-- The number of curvature pairs that are kept. -/
  memory : Nat
  maxIterations : Nat
  /-- The number of step lengths that are tried. -/
  maxLineSearch : Nat
  /-- Half the width of a difference quotient. -/
  differenceStep : R

/-- A step `s`, the change `y` of the gradient along it, and one over their
inner product. -/
structure Curvature (R : Type) where
  s : List R
  y : List R
  rho : R

/-- The state between two iterations; the history has the oldest pair in
front. -/
structure Iterate (R : Type) where
  point : List R
  value : R
  gradient : List R
  history : List (Curvature R)

variable {R : Type} [Scalar R]

/-! ### Derivatives -/

/-- The point moved along one coordinate. -/
def shift (x : List R) (i : Nat) (xi : R) : List R := x.set i xi

/-- The gradient by central differences. -/
def gradient (f : List R → R) (x : List R) (step : R) : List R :=
  x.zipIdx.map fun p =>
    (f (shift x p.2 (p.1 + step)) - f (shift x p.2 (p.1 - step))) / (2.0 * step)

/-- Whether a coordinate sits at an end of its interval with the gradient
pushing outward. -/
def isPinned (x g : R) (b : Interval R) : Bool :=
  (decide (x ≤ b.lower) && decide (0 < g)) ||
    (decide (b.upper ≤ x) && decide (g < 0))

/-- Which coordinates are pinned. -/
def pinned (x g : List R) (box : List (Interval R)) : List Bool :=
  List.zipWith (fun p b => isPinned p.1 p.2 b) (x.zip g) box

/-- Puts zeros at the pinned coordinates. -/
def release (g : List R) (pins : List Bool) : List R :=
  List.zipWith (fun gi pin => if pin then 0 else gi) g pins

/-- The largest absolute component. -/
def maxAbs (xs : List R) : R := xs.foldl (fun m v => larger m (Scalar.abs v)) 0

/-! ### The two-loop recursion -/

/-- The first loop, from the newest pair to the oldest: the vector that is left,
and the coefficients with the oldest pair's in front. -/
def peel (history : List (Curvature R)) (g : List R) : List R × List R :=
  history.reverse.foldl (fun acc c =>
    let a := c.rho * dot c.s acc.1
    (List.zipWith (fun q y => q - a * y) acc.1 c.y, a :: acc.2)) (g, [])

/-- The scale of the Hessian, from the newest pair. -/
def curvatureScale (history : List (Curvature R)) : R :=
  match history.getLast? with
  | some c => dot c.s c.y / dot c.y c.y
  | none => 1

/-- The second loop, from the oldest pair to the newest. -/
def rebuild (history : List (Curvature R)) (alphas q : List R) : List R :=
  (history.zip alphas).foldl (fun q p =>
    let b := p.1.rho * dot p.1.y q
    List.zipWith (fun qi si => qi + si * (p.2 - b)) q p.1.s) q

/-- The approximate inverse Hessian of the history times a vector. -/
def inverseHessianTimes (history : List (Curvature R)) (g : List R) : List R :=
  let (q, alphas) := peel history g
  rebuild history alphas (q.map fun qi => qi * curvatureScale history)

/-- Forgets the oldest pair where the memory is full. -/
def makeRoom (memory : Nat) (history : List (Curvature R)) :
    List (Curvature R) :=
  if history.length = memory then history.drop 1 else history

/-- A step must have more curvature than this to be remembered. -/
def leastCurvature : R := 1e-10

/-- Remembers a step, if it has enough curvature. -/
def remember (memory : Nat) (history : List (Curvature R)) (s y : List R) :
    List (Curvature R) :=
  let sy := dot s y
  if leastCurvature < sy then makeRoom memory history ++ [⟨s, y, 1 / sy⟩]
  else history

/-! ### The search -/

/-- The share of the predicted reduction that a step must keep. -/
def sufficientShare : R := 1e-4

/-- The trial point at a step length. -/
def trial (box : List (Interval R)) (x direction : List R) (step : R) :
    List R :=
  project box (List.zipWith (fun xi di => xi + step * di) x direction)

namespace QuasiNewton

/-- The usual parameters. -/
def default : QuasiNewton R where
  gradientTolerance := 1e-6
  functionTolerance := 2.2e-9
  memory := 10
  maxIterations := 2000
  maxLineSearch := 40
  differenceStep := 1e-6

/-- The direction of an iteration and the history it leaves: the quasi-Newton
direction, or minus the gradient and nothing remembered where that does not
descend. -/
def direction (it : Iterate R) (free : List R) (pins : List Bool) :
    List R × List (Curvature R) :=
  let d := List.zipWith (fun di pin => if pin then 0 else -di)
    (inverseHessianTimes it.history free) pins
  if 0 ≤ dot d free then (free.map fun v => -v, []) else (d, it.history)

/-- Halves the step until the value falls enough; `tries` are left. -/
def lineSearch (f : List R → R) (box : List (Interval R)) (it : Iterate R)
    (d : List R) :
    (tries : Nat) → R → Option (List R × R)
  | 0, _ => none
  | tries + 1, step =>
    let candidate := trial box it.point d step
    let value := f candidate
    let moved := List.zipWith (fun c xi => c - xi) candidate it.point
    if value ≤ it.value + sufficientShare * dot it.gradient moved then
      some (candidate, value)
    else lineSearch f box it d tries (step * 0.5)

/-- The iterate after an accepted step. -/
def accept (p : QuasiNewton R) (f : List R → R) (it : Iterate R)
    (history : List (Curvature R)) (point : List R) (value : R) : Iterate R :=
  let g := gradient f point p.differenceStep
  let s := List.zipWith (fun a b => a - b) point it.point
  let y := List.zipWith (fun a b => a - b) g it.gradient
  ⟨point, value, g, remember p.memory history s y⟩

/-- Whether the step between two values reduced too little to go on. -/
def stalls (p : QuasiNewton R) (before after : R) : Bool :=
  let scale := larger (larger (Scalar.abs before) (Scalar.abs after)) 1
  before - after ≤ p.functionTolerance * scale

/-- One iteration; `k` have gone before. -/
def advance (p : QuasiNewton R) (f : List R → R) (box : List (Interval R))
    (k : Nat) (it : Iterate R) : Progress (Iterate R) R R :=
  if !Scalar.isFinite it.value then
    .stop ⟨it.point, it.value, false, k, .objectiveNotFinite⟩
  else
    let pins := pinned it.point it.gradient box
    let free := release it.gradient pins
    if maxAbs free ≤ p.gradientTolerance then
      .stop ⟨it.point, it.value, true, k, .gradientBelowTolerance⟩
    else
      let (d, history) := direction it free pins
      match lineSearch f box it d p.maxLineSearch 1 with
      | none => .stop ⟨it.point, it.value, false, k, .lineSearchFailed⟩
      | some (point, value) =>
        if p.stalls it.value value then
          .stop ⟨point, value, true, k + 1, .reductionBelowTolerance⟩
        else
          .next (p.accept f it history point value)

/-- Iterates; `left` iterations are allowed and `k` have gone before. -/
def iterate (p : QuasiNewton R) (f : List R → R) (box : List (Interval R)) :
    (left k : Nat) → Iterate R → Minimum R R
  | 0, k, it => ⟨it.point, it.value, false, k, .iterationLimit⟩
  | left + 1, k, it =>
    match p.advance f box k it with
    | .stop result => result
    | .next it => iterate p f box left (k + 1) it

/-- The iterate at the start, brought into the box. -/
def start (p : QuasiNewton R) (f : List R → R) (x : List R)
    (box : List (Interval R)) : Iterate R :=
  let point := project box x
  ⟨point, f point, gradient f point p.differenceStep, []⟩

/-- Storage for the curvature pairs is reserved once the start has been
evaluated: a pair takes seven words, and less than half of the machine's bytes
can be reserved. -/
def memoryLimit : Nat := wordBound / 2 / 56

/-- Accepts a memory for which storage can be reserved. -/
def checkMemory (p : QuasiNewton R) : Except Fault Unit :=
  if p.memory ≤ memoryLimit then .ok () else .error .historyTooLarge

/-- Searches from a start; the intervals that meet a coordinate must be proper.
The start is brought into the box and evaluated before storage is reserved. -/
def minimize (p : QuasiNewton R) (f : List R → R) (x : List R)
    (box : List (Interval R)) : Except Fault (Minimum R R) := do
  checkBox x.length box
  let first := p.start f x box
  p.checkMemory
  return p.iterate f box p.maxIterations 0 first

/-- The search as a minimizer. -/
def minimizer (p : QuasiNewton R) : Minimizer R :=
  ⟨"projected-lbfgs", p.minimize⟩

end QuasiNewton

end Gimbal
