/-
Gimbal/Event.lean

What a compilation reports while it runs.  Events are values in the order in
which they happen; the wording of a log line is made from them afterwards.  A
single run of a minimizer is an event without a line: it is kept to say what a
search did.
-/
import Gimbal.Minimize
import Gimbal.Occurrence
import Gimbal.Template

namespace Gimbal

/-- Something that happened during a compilation. -/
inductive Event (R : Type)
  /-- A minimizer was run at a depth. -/
  | run (depth : Nat) (result : Minimum R R)
  /-- No run at a depth converged. -/
  | nonconvergence (depth restarts : Nat)
  /-- An attempt ended without a fit. -/
  | attemptFailed (attempt attempts : Nat)
  /-- A rotation about the second axis was decomposed. -/
  | decomposed (angle : R) (steps : Decomposition R)
  /-- An occurrence was replaced by some entries. -/
  | expanded (occurrence : Occurrence R) (entries : Nat)
  /-- A pass of the reduction. -/
  | reductionPass (number before after : Nat)
  /-- A circuit was compiled. -/
  | compiled (occurrences expanded reduced : Nat)

/-- How much an event matters. -/
inductive Level
  | debug
  | info
  | warn
deriving DecidableEq, Repr

/-- The name of a level. -/
def Level.name : Level → String
  | .debug => "DEBUG"
  | .info => "INFO"
  | .warn => "WARN"

namespace Event

variable {R : Type}

/-- How much an event matters. -/
def level : Event R → Level
  | .nonconvergence _ _ => .warn
  | .attemptFailed _ _ => .warn
  | .compiled _ _ _ => .info
  | _ => .debug

/-- What a log says of an event. -/
def message? [Numeral R] : Event R → Option String
  | .run _ _ => none
  | .nonconvergence depth restarts =>
    some ((SynthesisError.nonconvergence depth restarts).message ++
      "; escalating")
  | .attemptFailed k n =>
    some ("attempt " ++ toString k ++ "/" ++ toString n ++
      ": no depth reached zero residual")
  | .decomposed angle steps =>
    some (Direction.y.labelWithAngle angle ++ " -> " ++ steps.text)
  | .expanded o n => some (o.text ++ " -> " ++ toString n ++ " entries")
  | .reductionPass k before after =>
    some ("reduction pass " ++ toString k ++ ": " ++ toString before ++
      " -> " ++ toString after
      ++ " gates")
  | .compiled o e r =>
    some ("compiled " ++ toString o ++ " occurrences: " ++ toString e ++
      " gates expanded, "
      ++ toString r ++ " after reduction")

/-- The log line of an event. -/
def line? [Numeral R] (e : Event R) : Option String :=
  e.message?.map fun m => e.level.name ++ " " ++ m

/-- Whether an event is a run of a minimizer. -/
def isRun : Event R → Bool
  | .run _ _ => true
  | _ => false

end Event

end Gimbal
