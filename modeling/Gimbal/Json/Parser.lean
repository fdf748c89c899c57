/-
Gimbal/Json/Parser.lean

From tokens to values.

The parser is a machine as well: it holds the containers that are still open,
the innermost in front, and what may come next.  `Json.parse?` accepts a text
that holds one value and nothing else.
-/
import Gimbal.Fault
import Gimbal.Json.Lexer

namespace Gimbal

/-- An open container, with what it holds so far from the last to the first. -/
inductive Frame
  /-- An array that waits for an item. -/
  | items (reversed : List Json)
  /-- An object that waits for the value of a key. -/
  | field (reversed : List (Option String × Json)) (key : Option String)

/-- What the parser waits for; `outer` are the open containers. -/
inductive Reading
  /-- A value. -/
  | value (outer : List Frame)
  /-- The first item of an array, or its end. -/
  | firstItem (outer : List Frame)
  /-- A comma or the end of the array. -/
  | afterItem (outer : List Frame) (reversed : List Json)
  /-- A key; the end of the object only where nothing stands before. -/
  | key (outer : List Frame) (reversed : List (Option String × Json))
      (first : Bool)
  /-- The colon after a key. -/
  | colon (outer : List Frame) (reversed : List (Option String × Json))
      (name : Option String)
  /-- A comma or the end of the object. -/
  | afterField (outer : List Frame) (reversed : List (Option String × Json))
  /-- Nothing: the value is complete. -/
  | complete (value : Json)

namespace Reading

/-- Puts a value where it belongs. -/
def place (outer : List Frame) (v : Json) : Reading :=
  match outer with
  | [] => .complete v
  | .items reversed :: rest => .afterItem rest (v :: reversed)
  | .field reversed k :: rest => .afterField rest ((k, v) :: reversed)

/-- A token where a value is due. -/
def feedValue (outer : List Frame) : Token → Option Reading
  | .null => some (place outer .null)
  | .bool b => some (place outer (.bool b))
  | .number literal => some (place outer (.number literal))
  | .string s => some (place outer (.string s))
  | .openArray => some (.firstItem outer)
  | .openObject => some (.key outer [] true)
  | _ => none

/-- Feeds one token. -/
def feed : Reading → Token → Option Reading
  | .value outer, t => feedValue outer t
  | .firstItem outer, .closeArray => some (place outer (.array []))
  | .firstItem outer, t => feedValue (.items [] :: outer) t
  | .afterItem outer reversed, .comma =>
    some (.value (.items reversed :: outer))
  | .afterItem outer reversed, .closeArray =>
    some (place outer (.array reversed.reverse))
  | .key outer reversed true, .closeObject =>
    some (place outer (.object reversed.reverse))
  | .key outer reversed _, .string k => some (.colon outer reversed k)
  | .colon outer reversed k, .colon =>
    some (.value (.field reversed k :: outer))
  | .afterField outer reversed, .comma => some (.key outer reversed false)
  | .afterField outer reversed, .closeObject =>
    some (place outer (.object reversed.reverse))
  | _, _ => none

/-- The value, once it is complete. -/
def result? : Reading → Option Json
  | .complete v => some v
  | _ => none

end Reading

namespace Json

/-- The value of a list of tokens. -/
def ofTokens? (tokens : List Token) : Option Json := do
  let reading ← tokens.foldlM Reading.feed (.value [])
  reading.result?

/-- The value of a text. -/
def parse? (text : String) : Option Json := do
  let tokens ← lex text.toList
  ofTokens? tokens

/-! ### Looking into values -/

/-- The text of a string. -/
def text? : Json → Option String
  | .string s => s
  | _ => none

/-- The items of an array. -/
def items? : Json → Option (List Json)
  | .array items => some items
  | _ => none

/-- The number that digits spell. -/
def digitsValue (cs : List Char) : Nat :=
  cs.foldl (fun n c => 10 * n + (c.toNat - 48)) 0

/-- The value of the spelling of an exponent. -/
def exponentValue (cs : List Char) : Int :=
  let n : Int := digitsValue (dropSign cs)
  if cs.head? = some '-' then -n else n

/-- Takes digits into a number while it fits a machine word; the digits that did
not fit follow. -/
def takeDigits (n : Nat) : List Char → Nat × List Char
  | [] => (n, [])
  | c :: cs =>
    let next := 10 * n + (c.toNat - 48)
    if next < wordBound then takeDigits next cs else (n, c :: cs)

/-- The decimal that a numeral is taken for.  Only as many of its digits are
kept as fit a machine word: the others before the point leave their places,
those behind it nothing. -/
def numeralValue (literal : String) : Decimal :=
  let (negative, cs) := splitMinus literal.toList
  let (mantissa, e) := splitExponent cs
  let (whole, fraction) := splitPoint mantissa
  let fraction := fraction.getD []
  let (kept, rest) := takeDigits 0 whole
  let (digits, unread) := takeDigits kept fraction
  ⟨negative, digits,
    (e.map exponentValue).getD 0 + rest.length + unread.length
      - fraction.length⟩

/-- A qubit index or another count: a numeral of digits alone that fits a
machine word. -/
def count? : Json → Option Nat
  | .number literal =>
    if isDigits literal.toList then
      let n := digitsValue literal.toList
      if n < wordBound then some n else none
    else none
  | _ => none

/-- A number in the range of the scalars, however it is spelled. -/
def scalar? {R : Type} [Numeral R] : Json → Option R
  | .number literal => Numeral.ofDecimal (numeralValue literal)
  | _ => none

/-- The values of the named fields, in the order of the names.  An object gives
each of them once, in any order and with others in between; an array gives just
these, in order. -/
def fields? (names : List String) : Json → Option (List Json)
  | .array items => if items.length = names.length then some items else none
  | .object fields =>
    if fields.all fun f => f.1.isSome then
      names.mapM fun name =>
        match fields.filter fun f => f.1 == some name with
        | [(_, v)] => some v
        | _ => none
    else none
  | _ => none

/-- A choice with or without contents: a bare name, or an object with that name
as its only key. -/
def choice? : Json → Option (String × Option Json)
  | .string (some name) => some (name, none)
  | .object [(some name, v)] => some (name, some v)
  | _ => none

/-- A choice without contents. -/
def bareChoice? (v : Json) : Option String := do
  match ← v.choice? with
  | (name, none) => some name
  | (name, some .null) => some name
  | _ => none

end Json

end Gimbal
