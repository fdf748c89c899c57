/-
Gimbal/Json/Lexer.lean

From characters to tokens.

The lexer is a machine that is fed one character at a time: `Lexer.feed` says
what a character does in each mode, and a text is lexed by feeding it from the
left.  Feeding a text in two parts is the same as feeding it at once
(`feedAll_append`), which is all that is needed to reason about what follows a
token.
-/
import Gimbal.Json

namespace Gimbal

/-- The pieces of a JSON text. -/
inductive Token
  | openArray
  | closeArray
  | openObject
  | closeObject
  | comma
  | colon
  | null
  | bool (value : Bool)
  | number (literal : String)
  | string (text : Option String)

/-! ### The spelling of numbers -/

/-- Whether a character can stand in a numeral. -/
def numeralChar (c : Char) : Bool :=
  c.isDigit || c = '-' || c = '+' || c = '.' || c = 'e' || c = 'E'

/-- One or more digits, and nothing else. -/
def isDigits (cs : List Char) : Bool := !cs.isEmpty && cs.all Char.isDigit

/-- A natural number without a leading zero. -/
def isWhole : List Char → Bool
  | ['0'] => true
  | '0' :: _ => false
  | cs => isDigits cs

/-- Drops one sign. -/
def dropSign : List Char → List Char
  | '-' :: cs => cs
  | '+' :: cs => cs
  | cs => cs

/-- Whether a character starts an exponent. -/
def exponentMark (c : Char) : Bool := c = 'e' || c = 'E'

/-- Splits a numeral at the mark of its exponent. -/
def splitExponent (cs : List Char) : List Char × Option (List Char) :=
  let mantissa := cs.takeWhile (!exponentMark ·)
  match cs.dropWhile (!exponentMark ·) with
  | [] => (mantissa, none)
  | _ :: e => (mantissa, some e)

/-- Splits a mantissa at its point. -/
def splitPoint (cs : List Char) : List Char × Option (List Char) :=
  let whole := cs.takeWhile (· ≠ '.')
  match cs.dropWhile (· ≠ '.') with
  | [] => (whole, none)
  | _ :: f => (whole, some f)

/-- A minus sign, if there is one, and the rest. -/
def splitMinus : List Char → Bool × List Char
  | '-' :: cs => (true, cs)
  | cs => (false, cs)

/-- Whether characters spell a number. -/
def isNumeral (cs : List Char) : Bool :=
  let (mantissa, e) := splitExponent (splitMinus cs).2
  let (whole, fraction) := splitPoint mantissa
  isWhole whole && fraction.all isDigits && e.all fun e => isDigits (dropSign e)

/-! ### The spelling of strings -/

/-- A string on the way: its characters from the last to the first, a first half
of a surrogate pair that waits for the second, and whether some half stayed
alone. -/
structure Spelling where
  reversed : List Char
  half : Option Nat
  broken : Bool

namespace Spelling

/-- Nothing spelled yet. -/
def empty : Spelling := ⟨[], none, false⟩

/-- Adds a character; a half that waited stays alone. -/
def push (s : Spelling) (c : Char) : Spelling :=
  ⟨c :: s.reversed, none, s.broken || s.half.isSome⟩

/-- Adds the code unit of an escape. -/
def pushUnit (s : Spelling) (u : Nat) : Spelling :=
  if 0xD800 ≤ u ∧ u < 0xDC00 then
    ⟨s.reversed, some u, s.broken || s.half.isSome⟩
  else if 0xDC00 ≤ u ∧ u < 0xE000 then
    match s.half with
    | some h =>
      ⟨Char.ofNat (0x10000 + (h - 0xD800) * 0x400 + (u - 0xDC00)) :: s.reversed,
        none, s.broken⟩
    | none => ⟨s.reversed, none, true⟩
  else s.push (Char.ofNat u)

/-- The text, if the escapes spell one. -/
def text? (s : Spelling) : Option String :=
  if s.broken || s.half.isSome then none
  else some (String.ofList s.reversed.reverse)

end Spelling

/-- The character that a one-letter escape stands for. -/
def simpleEscape? (c : Char) : Option Char :=
  if c = '"' ∨ c = '\\' ∨ c = '/' then some c
  else if c = 'b' then some (Char.ofNat 8)
  else if c = 'f' then some (Char.ofNat 12)
  else if c = 'n' then some '\n'
  else if c = 'r' then some '\r'
  else if c = 't' then some '\t'
  else none

/-- The value of a hexadecimal digit. -/
def hexValue? (c : Char) : Option Nat :=
  if c.isDigit then some (c.toNat - 48)
  else if 'a' ≤ c ∧ c ≤ 'f' then some (c.toNat - 87)
  else if 'A' ≤ c ∧ c ≤ 'F' then some (c.toNat - 55)
  else none

/-! ### The machine -/

/-- What the lexer is in the middle of. -/
inductive Mode
  | between
  | word (reversed : List Char)
  | number (reversed : List Char)
  | string (spelling : Spelling)
  | escape (spelling : Spelling)
  | unit (spelling : Spelling) (digits value : Nat)

/-- The lexer: its mode and the tokens read, the last one in front. -/
structure Lexer where
  mode : Mode
  tokens : List Token

namespace Lexer

/-- The lexer before the first character. -/
def start : Lexer := ⟨.between, []⟩

/-- The token of a bare word. -/
def wordToken? (cs : List Char) : Option Token :=
  if cs = ['n', 'u', 'l', 'l'] then some .null
  else if cs = ['t', 'r', 'u', 'e'] then some (.bool true)
  else if cs = ['f', 'a', 'l', 's', 'e'] then some (.bool false)
  else none

/-- The token of a numeral. -/
def numberToken? (cs : List Char) : Option Token :=
  if isNumeral cs then some (.number (String.ofList cs)) else none

/-- The token of a punctuation mark. -/
def mark? (c : Char) : Option Token :=
  if c = '[' then some .openArray
  else if c = ']' then some .closeArray
  else if c = '\x7b' then some .openObject
  else if c = '\x7d' then some .closeObject
  else if c = ',' then some .comma
  else if c = ':' then some .colon
  else none

/-- Blanks between tokens. -/
def blank (c : Char) : Bool := c = ' ' || c = '\n' || c = '\t' || c = '\r'

/-- A character between tokens. -/
def feedBetween (tokens : List Token) (c : Char) : Option Lexer :=
  if blank c then some ⟨.between, tokens⟩
  else if c = '"' then some ⟨.string .empty, tokens⟩
  else if c.isDigit || c = '-' then some ⟨.number [c], tokens⟩
  else if 'a' ≤ c ∧ c ≤ 'z' then some ⟨.word [c], tokens⟩
  else (mark? c).map fun t => ⟨.between, t :: tokens⟩

/-- Feeds one character. -/
def feed (s : Lexer) (c : Char) : Option Lexer :=
  match s.mode with
  | .between => feedBetween s.tokens c
  | .word cs =>
    if 'a' ≤ c ∧ c ≤ 'z' then some ⟨.word (c :: cs), s.tokens⟩
    else do
      let t ← wordToken? cs.reverse
      feedBetween (t :: s.tokens) c
  | .number cs =>
    if numeralChar c then some ⟨.number (c :: cs), s.tokens⟩
    else do
      let t ← numberToken? cs.reverse
      feedBetween (t :: s.tokens) c
  | .string sp =>
    if c = '"' then some ⟨.between, .string sp.text? :: s.tokens⟩
    else if c = '\\' then some ⟨.escape sp, s.tokens⟩
    else if c.toNat < 32 then none
    else some ⟨.string (sp.push c), s.tokens⟩
  | .escape sp =>
    if c = 'u' then some ⟨.unit sp 0 0, s.tokens⟩
    else (simpleEscape? c).map fun d => ⟨.string (sp.push d), s.tokens⟩
  | .unit sp digits value => do
    let h ← hexValue? c
    let value := 16 * value + h
    some ⟨if digits = 3 then .string (sp.pushUnit value)
      else .unit sp (digits + 1) value, s.tokens⟩

/-- Feeds characters from the left. -/
def feedAll (s : Lexer) (cs : List Char) : Option Lexer := cs.foldlM feed s

/-- The tokens of a text that ends here, from the last to the first. -/
def finish (s : Lexer) : Option (List Token) :=
  match s.mode with
  | .between => some s.tokens
  | .word cs => (wordToken? cs.reverse).map (· :: s.tokens)
  | .number cs => (numberToken? cs.reverse).map (· :: s.tokens)
  | _ => none

theorem feedAll_append (s : Lexer) (cs ds : List Char) :
    s.feedAll (cs ++ ds) = (s.feedAll cs).bind (·.feedAll ds) := by
  simp [feedAll]

end Lexer

/-- The tokens of a text. -/
def lex (cs : List Char) : Option (List Token) := do
  let s ← Lexer.start.feedAll cs
  let tokens ← s.finish
  some tokens.reverse

end Gimbal
