/-
Gimbal/Codec/Table.lean

Decomposition tables as texts.  A table is a record with one field, whose value
has a field for every name.  Tables are written with an item a line; of a name
that is given twice the last decomposition is read.
-/
import Gimbal.Table
import Gimbal.CompileError
import Gimbal.Codec.Circuit

namespace Gimbal

variable {R : Type} [Numeral R]

namespace Step

/-- The step as a JSON value. -/
def toJson : Step R → Json
  | .rotation axis angle =>
    .record
      [("Rotation",
        .record [("axis", axis.toJson), ("angle", angleJson angle)])]
  | .cz => .text "Cz"

/-- The step that a JSON value stands for. -/
def ofJson? (v : Json) : Option (Step R) := do
  match ← v.choice? with
  | ("Rotation", some body) =>
    match ← body.fields? ["axis", "angle"] with
    | [axis, angle] => return .rotation (← Axis.ofJson? axis) (← angle.scalar?)
    | _ => none
  | ("Cz", none) => return .cz
  | ("Cz", some .null) => return .cz
  | _ => none

end Step

namespace Table

/-- The table as a JSON value. -/
def toJson (t : Table R) : Json :=
  .record
    [("entries",
      .record (t.entries.map fun p => (p.1, .array (p.2.map Step.toJson))))]

/-- An entry of a table, by its name and its steps. -/
def entryOfJson? (p : Option String × Json) :
    Option (String × Decomposition R) := do
  let name ← p.1
  let steps ← (← p.2.items?).mapM Step.ofJson?
  return (name, steps)

/-- The table that a JSON value stands for. -/
def ofJson? (v : Json) : Option (Table R) := do
  match ← v.fields? ["entries"] with
  | [.object fields] => return empty.insertAll (← fields.mapM entryOfJson?)
  | _ => none

/-- The text of a table. -/
def text (t : Table R) : String := t.toJson.pretty

/-- The table of a text. -/
def ofText (text : String) : Except (CompileError R) (Table R) :=
  match (Json.parse? text).bind ofJson? with
  | some t => .ok t
  | none => .error .json

/-- The table of the contents of a file, which must be a text. -/
def ofBytes (bytes : ByteArray) : Except (CompileError R) (Table R) :=
  match String.fromUTF8? bytes with
  | some s => ofText s
  | none => .error (.file .notText)

end Table

end Gimbal
