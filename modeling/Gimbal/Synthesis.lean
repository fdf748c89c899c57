/-
Gimbal/Synthesis.lean

Finding a decomposition by fitting templates.

A search makes several *attempts*.  In each it tries the depths from 1 upward,
and at each depth it minimizes from fresh random starts until the minimizer
converges.  A converged run whose residual has no full hundredth is accepted and
its angles are rounded to hundredths; otherwise the next depth is tried.  A
depth at which nothing converges is passed over.

The random source is threaded through all of it, and every run is recorded as an
event.
-/
import Gimbal.Event
import Gimbal.Keystream
import Gimbal.Objective
import Gimbal.Minimize.QuasiNewton
import Gimbal.Minimize.SimplexSearch

namespace Gimbal

/-- The settings of a search. -/
structure Config (R : Type) where
  seed : UInt64
  /-- The deepest template that is tried. -/
  maxDepth : Nat
  maxAttempts : Nat
  /-- The number of starts at one depth. -/
  maxRestarts : Nat
  /-- The tolerance of the quasi-Newton search. -/
  gradientTolerance : R
  /-- The tolerance of the simplex search. -/
  simplexTolerance : R
  maxIterations : Nat

namespace Config

variable {R : Type} [Scalar R]

/-- The usual settings. -/
def default : Config R where
  seed := 1
  maxDepth := 3
  maxAttempts := 10
  maxRestarts := 50
  gradientTolerance := 1e-6
  simplexTolerance := 1e-8
  maxIterations := 2000

/-- The settings with another seed. -/
def withSeed (c : Config R) (seed : UInt64) : Config R := { c with seed }

/-- The usual settings with a seed. -/
def ofSeed (seed : UInt64) : Config R := default.withSeed seed

end Config

/-- An accepted template. -/
structure Synthesis (R : Type) where
  shape : Shape
  depth : Nat
  /-- Angles in hundredths, the global phase first. -/
  angles : List R
  /-- The residual of these angles. -/
  residual : R

namespace Synthesis

variable {R : Type}

/-- The gates, without the phase. -/
def steps (s : Synthesis R) : Except SynthesisError (Decomposition R) :=
  stepsOfAngles s.shape s.angles

/-- The unitary of the template, with its phase. -/
def unitary [Scalar R] (s : Synthesis R) :
    Except SynthesisError (Mat (Amplitude R)) :=
  templateUnitary s.shape s.depth s.angles

end Synthesis

/-- A result together with what is left of a random source and what happened on
the way. -/
structure Traced (G R α : Type) where
  result : α
  source : G
  events : List (Event R)

/-- A search with its random source and a minimizer for each shape. -/
structure Synthesizer (G R : Type) where
  config : Config R
  source : G
  oneQubit : Minimizer R
  twoQubit : Minimizer R

namespace Synthesizer

variable {G R : Type} [Scalar R]

/-- The usual search: quasi-Newton for one qubit, a simplex for two. -/
def ofConfig (config : Config R) : Synthesizer Keystream R where
  config := config
  source := .ofSeed config.seed
  oneQubit := QuasiNewton.minimizer
    { QuasiNewton.default with
      gradientTolerance := config.gradientTolerance, maxIterations :=
        config.maxIterations }
  twoQubit := SimplexSearch.minimizer
    { SimplexSearch.default with
      functionTolerance := config.simplexTolerance, maxIterations :=
        config.maxIterations }

/-- A search with given minimizers. -/
def withMinimizers (config : Config R) (oneQubit twoQubit : Minimizer R) :
    Synthesizer Keystream R :=
  ⟨config, .ofSeed config.seed, oneQubit, twoQubit⟩

/-- The minimizer for a shape. -/
def minimizerFor (s : Synthesizer G R) : Shape → Minimizer R
  | .oneQubit => s.oneQubit
  | .twoQubit => s.twoQubit

variable [AngleSource G R]

/-- Minimizes from fresh random starts, at most so many, until a run
converges. -/
def convergedRun (m : Minimizer R) (o : Objective R) :
    (restarts : Nat) → G → Traced G R (Except Fault (Option (Minimum R R)))
  | 0, g => ⟨.ok none, g, []⟩
  | restarts + 1, g =>
    let (start, g) := drawMany o.dimension g
    match m.minimize o.score start (List.replicate o.dimension ⟨0, tau⟩) with
    | .error e => ⟨.error e, g, []⟩
    | .ok run =>
      if run.converged then ⟨.ok (some run), g, [.run o.depth run]⟩
      else
        let later := convergedRun m o restarts g
        ⟨later.result, later.source, .run o.depth run :: later.events⟩

/-- Whether a residual has no full hundredth. -/
def acceptable (residual : R) : Bool := Scalar.floor (residual * 100.0) == 0

/-- The synthesis of an accepted run. -/
def ofRun (o : Objective R) (run : Minimum R R) :
    Except SynthesisError (Synthesis R) := do
  let angles := run.point.map roundHundredth
  let residual ← o.evaluate angles
  return ⟨o.shape, o.depth, angles, residual⟩

/-- Searches at one depth; no result means that deeper templates are to be
tried. -/
def tryDepth (s : Synthesizer G R) (target : Mat (Amplitude R)) (depth : Nat)
    (g : G) :
    Traced G R (Except SynthesisError (Option (Synthesis R))) :=
  match Objective.ofTarget target depth with
  | .error e => ⟨.error e, g, []⟩
  | .ok o =>
    let tried := convergedRun (s.minimizerFor o.shape) o s.config.maxRestarts g
    match tried.result with
    | .error e => ⟨.error (.fault e), tried.source, tried.events⟩
    | .ok none =>
      ⟨.ok none, tried.source,
        tried.events ++ [.nonconvergence depth s.config.maxRestarts]⟩
    | .ok (some run) =>
      ⟨if acceptable run.value then (ofRun o run).map some else .ok none,
        tried.source, tried.events⟩

/-- Searches the given depths in order. -/
def searchDepths (s : Synthesizer G R) (target : Mat (Amplitude R)) :
    List Nat → G → Traced G R (Except SynthesisError (Option (Synthesis R)))
  | [], g => ⟨.ok none, g, []⟩
  | depth :: rest, g =>
    let tried := s.tryDepth target depth g
    match tried.result with
    | .ok none =>
      let later := searchDepths s target rest tried.source
      ⟨later.result, later.source, tried.events ++ later.events⟩
    | _ => tried

/-- The depths of an attempt. -/
def depths (s : Synthesizer G R) : List Nat :=
  List.range' 1 (min s.config.maxDepth maxTemplateDepth)

/-- Makes attempts: `left` are allowed and `done` have failed. -/
def attempt (s : Synthesizer G R) (target : Mat (Amplitude R)) :
    (left done : Nat) → G → Traced G R (Except SynthesisError (Synthesis R))
  | 0, done, g => ⟨.error (.exhausted done), g, []⟩
  | left + 1, done, g =>
    let tried := s.searchDepths target s.depths g
    match tried.result with
    | .error e => ⟨.error e, tried.source, tried.events⟩
    | .ok (some found) => ⟨.ok found, tried.source, tried.events⟩
    | .ok none =>
      let later := attempt s target left (done + 1) tried.source
      ⟨later.result, later.source,
        tried.events ++ .attemptFailed (done + 1) s.config.maxAttempts ::
          later.events⟩

/-- Searches from the state of a source. -/
def search (s : Synthesizer G R) (target : Mat (Amplitude R)) (g : G) :
    Traced G R (Except SynthesisError (Synthesis R)) :=
  match Shape.ofMat target with
  | .error e => ⟨.error e, g, []⟩
  | .ok _ => s.attempt target s.config.maxAttempts 0 g

/-- Finds the shallowest template that matches the target up to a global phase,
and the searcher with what is left of its source. -/
def synthesize (s : Synthesizer G R) (target : Mat (Amplitude R)) :
    Except SynthesisError (Synthesis R) × Synthesizer G R × List (Event R) :=
  let t := s.search target s.source
  (t.result, { s with source := t.source }, t.events)

end Synthesizer

end Gimbal
