/-
Gimbal/Json.lean

JSON values and their texts.

Numbers are kept as they are spelled: whether a numeral is a qubit index or an
angle is decided where it is used, by its spelling.  A string whose escapes name
half of a surrogate pair spells no text; it is `none` here and is refused only
by a reader that wants the text.

Two layouts are written: `compact` has no blanks, `pretty` puts each item on a
line of its own, indented by two blanks a level.
-/
import Gimbal.Decimal

namespace Gimbal

/-- A JSON value. -/
inductive Json
  | null
  | bool (value : Bool)
  | number (literal : String)
  | string (text : Option String)
  | array (items : List Json)
  | object (fields : List (Option String × Json))

namespace Json

/-! ### Building -/

/-- A natural number. -/
def natural (n : Nat) : Json := .number (String.ofList (digitText n))

/-- A string with a text. -/
def text (s : String) : Json := .string (some s)

/-- A decimal numeral; `null` stands for a number that has none. -/
def decimal : Option Decimal → Json
  | some d => .number (String.ofList d.plainText)
  | none => .null

/-- An object with the given names and values. -/
def record (fields : List (String × Json)) : Json :=
  .object (fields.map fun f => (some f.1, f.2))

/-! ### Strings -/

/-- A hexadecimal digit. -/
def hexDigit (n : Nat) : Char := (Nat.toDigits 16 n).headD '0'

/-- How a character is written inside a string. -/
def escape (c : Char) : List Char :=
  if c = '"' then ['\\', '"']
  else if c = '\\' then ['\\', '\\']
  else if c = '\n' then ['\\', 'n']
  else if c = '\r' then ['\\', 'r']
  else if c = '\t' then ['\\', 't']
  else if c.toNat = 8 then ['\\', 'b']
  else if c.toNat = 12 then ['\\', 'f']
  else if c.toNat < 32 then
    ['\\', 'u', '0', '0', hexDigit (c.toNat / 16), hexDigit (c.toNat % 16)]
  else [c]

/-- A string between quotes. -/
def quoted (s : String) : List Char := '"' :: (s.toList.flatMap escape ++ ['"'])

/-- The key of a field; a key without a text has none to write. -/
def keyText (key : Option String) : List Char := quoted (key.getD "")

/-! ### Layouts -/

/-- Values that are written in one piece. -/
def atomText : Json → List Char
  | .null => ['n', 'u', 'l', 'l']
  | .bool true => ['t', 'r', 'u', 'e']
  | .bool false => ['f', 'a', 'l', 's', 'e']
  | .number literal => literal.toList
  | .string s => keyText s
  | _ => []

mutual

/-- The text without blanks. -/
def compactChars : Json → List Char
  | .array items => '[' :: compactItems items
  | .object fields => '\x7b' :: compactFields fields
  | v => v.atomText

/-- Items up to the closing bracket. -/
def compactItems : List Json → List Char
  | [] => [']']
  | [v] => compactChars v ++ [']']
  | v :: rest => compactChars v ++ ',' :: compactItems rest

/-- Fields up to the closing brace. -/
def compactFields : List (Option String × Json) → List Char
  | [] => ['\x7d']
  | [(k, v)] => keyText k ++ ':' :: (compactChars v ++ ['\x7d'])
  | (k, v) :: rest =>
    keyText k ++ ':' :: (compactChars v ++ ',' :: compactFields rest)

end

/-- A new line at a depth of nesting. -/
def newLine (depth : Nat) : List Char := '\n' :: List.replicate (2 * depth) ' '

mutual

/-- The text with an item a line, inside `depth` open brackets. -/
def prettyChars (depth : Nat) : Json → List Char
  | .array [] => ['[', ']']
  | .array items => '[' :: prettyItems depth items
  | .object [] => ['\x7b', '\x7d']
  | .object fields => '\x7b' :: prettyFields depth fields
  | v => v.atomText

/-- Items up to the closing bracket. -/
def prettyItems (depth : Nat) : List Json → List Char
  | [] => newLine depth ++ [']']
  | [v] =>
    newLine (depth + 1) ++ prettyChars (depth + 1) v ++ newLine depth ++ [']']
  | v :: rest =>
    newLine (depth + 1) ++ prettyChars (depth + 1) v ++ ',' ::
      prettyItems depth rest

/-- Fields up to the closing brace. -/
def prettyFields (depth : Nat) : List (Option String × Json) → List Char
  | [] => newLine depth ++ ['\x7d']
  | [(k, v)] =>
    newLine (depth + 1) ++ keyText k ++ ':' :: ' ' ::
      (prettyChars (depth + 1) v ++ newLine depth ++ ['\x7d'])
  | (k, v) :: rest =>
    newLine (depth + 1) ++ keyText k ++ ':' :: ' ' ::
      (prettyChars (depth + 1) v ++ ',' :: prettyFields depth rest)

end

/-- The text without blanks. -/
def compact (v : Json) : String := String.ofList v.compactChars

/-- The text with an item a line. -/
def pretty (v : Json) : String := String.ofList (v.prettyChars 0)

end Json

end Gimbal
