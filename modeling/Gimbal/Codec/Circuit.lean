/-
Gimbal/Codec/Circuit.lean

Output circuits as texts.  A circuit is a record with one field, its entries; an
entry is a record under the name of its kind.
-/
import Gimbal.Circuit
import Gimbal.Codec.Occurrence

namespace Gimbal

namespace Axis

/-- The name of an axis. -/
def name : Axis → String
  | .x => "X"
  | .z => "Z"

/-- The axis as a JSON value. -/
def toJson (a : Axis) : Json := .text a.name

/-- The axis that a JSON value stands for. -/
def ofJson? (v : Json) : Option Axis := do
  let name ← v.bareChoice?
  [x, z].find? fun a => a.name == name

end Axis

variable {R : Type} [Numeral R]

namespace Entry

/-- The entry as a JSON value. -/
def toJson : Entry R → Json
  | .rotation axis angle q =>
    .record [("Rotation",
      .record [("axis", axis.toJson), ("angle", angleJson angle),
        ("qubit", .natural q)])]
  | .cz c t =>
    .record [("Cz", .record [("control", .natural c), ("target", .natural t)])]

/-- The entry that a JSON value stands for. -/
def ofJson? (v : Json) : Option (Entry R) := do
  match ← v.choice? with
  | ("Rotation", some body) =>
    match ← body.fields? ["axis", "angle", "qubit"] with
    | [axis, angle, q] =>
      return .rotation (← Axis.ofJson? axis) (← angle.scalar?) (← q.count?)
    | _ => none
  | ("Cz", some body) =>
    match ← body.fields? ["control", "target"] with
    | [c, t] => return .cz (← c.count?) (← t.count?)
    | _ => none
  | _ => none

end Entry

namespace Circuit

/-- The circuit as a JSON value. -/
def toJson (c : Circuit R) : Json :=
  .record [("entries", .array (c.map Entry.toJson))]

/-- The circuit that a JSON value stands for. -/
def ofJson? (v : Json) : Option (Circuit R) := do
  match ← v.fields? ["entries"] with
  | [entries] => (← entries.items?).mapM Entry.ofJson?
  | _ => none

/-- A circuit as it is written into a text. -/
def jsonText (c : Circuit R) : String := c.toJson.compact

/-- The circuit of a text. -/
def ofText? (text : String) : Option (Circuit R) := do
  ofJson? (← Json.parse? text)

end Circuit

end Gimbal
