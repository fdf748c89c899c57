/-
Gimbal/Codec/Occurrence.lean

Input circuits as texts.  An occurrence is an array: a name and a qubit, a name
and two qubits, or a name, an angle and a qubit.  The two forms of three items
are told apart by the spelling of the second one: digits alone are a qubit, a
point, an exponent or a sign make an angle.
-/
import Gimbal.Occurrence
import Gimbal.Json.Parser

namespace Gimbal

variable {R : Type} [Numeral R]

/-- An angle as a JSON value; `null` where it is not finite. -/
def angleJson (angle : R) : Json := .decimal (Numeral.shortest angle)

namespace Occurrence

/-- The occurrence as a JSON value. -/
def toJson : Occurrence R → Json
  | .single name q => .array [.text name, .natural q]
  | .controlled name c t => .array [.text name, .natural c, .natural t]
  | .parametrized name angle q =>
    .array [.text name, angleJson angle, .natural q]

/-- The occurrence that a JSON value stands for. -/
def ofJson? : Json → Option (Occurrence R)
  | .array [name, q] => do
    return .single (← name.text?) (← q.count?)
  | .array [name, v, q] =>
    match v.count? with
    | some c => do return .controlled (← name.text?) c (← q.count?)
    | none => do return .parametrized (← name.text?) (← v.scalar?) (← q.count?)
  | _ => none

/-- An input circuit as a JSON value. -/
def listToJson (input : List (Occurrence R)) : Json := .array (input.map toJson)

/-- The input circuit that a JSON value stands for. -/
def listOfJson? (v : Json) : Option (List (Occurrence R)) := do
  (← v.items?).mapM ofJson?

/-- The text of an input circuit. -/
def listText (input : List (Occurrence R)) : String :=
  (listToJson input).compact

/-- The input circuit of a text. -/
def listOfText? (text : String) : Option (List (Occurrence R)) := do
  listOfJson? (← Json.parse? text)

/-- The occurrence of a text. -/
def ofText? (text : String) : Option (Occurrence R) := do
  ofJson? (← Json.parse? text)

end Occurrence

end Gimbal
