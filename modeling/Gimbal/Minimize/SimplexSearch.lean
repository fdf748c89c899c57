/-
Gimbal/Minimize/SimplexSearch.lean

A simplex search without derivatives.

The search holds one vertex more than there are coordinates.  In each round the
vertices are sorted by their values and the worst one is replaced: by its
reflection in the centroid of the others, by a point twice as far out where the
reflection is best of all, or by a point half way in where it is no better than
the second worst; where that fails too, all vertices move half way to the best
one.  Trial points are clamped into the box.

The values only have to be ranked (`Score V`); the coordinates are scalars.
-/
import Gimbal.Minimize

namespace Gimbal

/-- The parameters of the search. -/
structure SimplexSearch (R V : Type) where
  /-- Stops where the values differ by no more … -/
  functionTolerance : V
  /-- … and the coordinates by no more. -/
  pointTolerance : R
  /-- The distance of the first vertices from the start. -/
  initialStep : R
  maxIterations : Nat

/-- A point and its value. -/
structure Vertex (R V : Type) where
  point : List R
  value : V

variable {R V : Type} [Scalar R] [Score V]

/-- The point at `t` on the way from one point to another, brought into the
box. -/
def along (box : List (Interval R)) (base toward : List R) (t : R) : List R :=
  project box (List.zipWith (fun b w => b + t * (w - b)) base toward)

/-- The mean of the points of some vertices, in `n` dimensions. -/
def centroid (n : Nat) (vertices : List (Vertex R V)) : List R :=
  vertices.foldl (fun c v =>
    List.zipWith (fun ci vi => ci + vi / (vertices.length : R)) c v.point)
      (List.replicate n 0)

/-- The largest distance of a coordinate from that of a point. -/
def spread (best : List R) (others : List (Vertex R V)) : R :=
  (others.flatMap fun v =>
    List.zipWith (fun a b => Scalar.abs (a - b)) v.point best).foldl larger 0

/-- The vertex at a point. -/
def vertexAt (f : List R → V) (point : List R) : Vertex R V := ⟨point, f point⟩

/-- Sorts vertices by their values; equal ones keep their order. -/
def sortVertices (vertices : List (Vertex R V)) : List (Vertex R V) :=
  vertices.mergeSort fun a b => Score.totalLe a.value b.value

namespace SimplexSearch

/-- The usual parameters, over one type of numbers. -/
def default : SimplexSearch R R where
  functionTolerance := 1e-8
  pointTolerance := 1e-4
  initialStep := 0.5
  maxIterations := 2000

/-- The start moved along one coordinate: up, or down where up leaves the
interval. -/
def offset (p : SimplexSearch R V) (box : List (Interval R)) (start : List R)
    (i : Nat) (xi : R) (b : Interval R) : List R :=
  project box
    (start.set i
      (if xi + p.initialStep ≤ b.upper then xi + p.initialStep
        else xi - p.initialStep))

/-- The first vertices: the start, and the start moved along each coordinate. -/
def initial (p : SimplexSearch R V) (f : List R → V) (box : List (Interval R))
    (x : List R) :
    List (Vertex R V) :=
  let start := project box x
  vertexAt f start ::
    List.zipWith (fun q b => vertexAt f (p.offset box start q.2 q.1 b))
      start.zipIdx box

/-- What replaces the worst vertex; `none` where all vertices have to shrink.
`face` are the vertices without the worst, sorted, and `best` and `second` the
first and the last of them. -/
def replacement? (f : List R → V) (box : List (Interval R)) (n : Nat)
    (best second worst : Vertex R V) (face : List (Vertex R V)) :
    Option (Vertex R V) :=
  let centre := centroid n face
  let reflected := vertexAt f (along box centre worst.point (-1.0))
  if reflected.value < best.value then
    let expanded := vertexAt f (along box centre worst.point (-2.0))
    some (if expanded.value < reflected.value then expanded else reflected)
  else if reflected.value < second.value then
    some reflected
  else
    let nearer := if reflected.value < worst.value then reflected else worst
    let contracted := vertexAt f (along box centre nearer.point 0.5)
    if contracted.value ≤ nearer.value then some contracted else none

/-- Moves all vertices half way to the best one. -/
def shrink (f : List R → V) (box : List (Interval R)) (best : Vertex R V)
    (others : List (Vertex R V)) : List (Vertex R V) :=
  best :: others.map fun v => vertexAt f (along box best.point v.point 0.5)

/-- Whether a sorted simplex is small enough to stop. -/
def collapsed (p : SimplexSearch R V) (best worst : Vertex R V)
    (others : List (Vertex R V)) :
    Bool :=
  decide (worst.value - best.value ≤ p.functionTolerance) &&
    decide (spread best.point others ≤ p.pointTolerance)

/-- One round in `n` dimensions; `k` have gone before. -/
def advance (p : SimplexSearch R V) (f : List R → V) (box : List (Interval R))
    (n k : Nat) (vertices : List (Vertex R V)) :
    Except Fault (Progress (List (Vertex R V)) R V) :=
  match sortVertices vertices with
  | [] => .error .noSecondVertex
  | best :: others =>
    let worst := others.getLastD best
    if p.collapsed best worst others then
      .ok (.stop ⟨best.point, best.value, true, k, .simplexCollapsed⟩)
    else
      let face := (best :: others).dropLast
      match face.getLast? with
      | none => .error .noSecondVertex
      | some second =>
        match replacement? f box n best second worst face with
        | some v => .ok (.next (face ++ [v]))
        | none => .ok (.next (shrink f box best others))

/-- Goes through rounds; `left` are allowed and `k` have gone before. -/
def iterate (p : SimplexSearch R V) (f : List R → V) (box : List (Interval R))
    (n : Nat) :
    (left k : Nat) → List (Vertex R V) → Except Fault (Minimum R V)
  | 0, k, vertices =>
    match vertices with
    | [] => .error .noSecondVertex
    | v :: rest =>
      let best := firstLeast Vertex.value v rest
      .ok ⟨best.point, best.value, false, k, .iterationLimit⟩
  | left + 1, k, vertices => do
    match ← p.advance f box n k vertices with
    | .stop result => return result
    | .next vertices => iterate p f box n left (k + 1) vertices

/-- Searches from a start; every coordinate must have a proper interval. -/
def minimize (p : SimplexSearch R V) (f : List R → V) (x : List R)
    (box : List (Interval R)) :
    Except Fault (Minimum R V) := do
  checkBox x.length box
  if box.length < x.length then throw .missingInterval
  p.iterate f box x.length p.maxIterations 0 (p.initial f box x)

/-- The search as a minimizer. -/
def minimizer (p : SimplexSearch R R) : Minimizer R :=
  ⟨"bounded-nelder-mead", p.minimize⟩

end SimplexSearch

end Gimbal
