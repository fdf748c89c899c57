/-
Gimbal/Command/Options.lean

The arguments of the command line.

Arguments are fed one by one, like the characters of a text: an option that
wants a value waits for the next argument, two dashes turn everything after them
into names of circuits.  An option or flag may be given once, and there is at
most one circuit.
-/
import Gimbal.Fault

namespace Gimbal

/-- What the command line asks for. -/
structure Options where
  /-- The file with the input circuit. -/
  circuit : Option String := none
  /-- The file with the decomposition table. -/
  table : Option String := none
  /-- The file to write the table to. -/
  saveTable : Option String := none
  seed : Option UInt64 := none
  verbose : Bool := false
  /-- Whether to compare the output with the input. -/
  check : Bool := false
deriving DecidableEq, Repr

/-- The options that have a value. -/
inductive ValueOption
  | table
  | saveTable
  | seed
deriving DecidableEq, Repr

/-- A seed: digits, with a plus sign at most, that fit 64 bits. -/
def parseSeed? (text : String) : Option UInt64 :=
  let digits := match text.toList with
    | '+' :: cs => cs
    | cs => cs
  if digits.isEmpty || !digits.all Char.isDigit then none
  else
    let n : Nat := digits.foldl (fun n c => 10 * n + (c.toNat - 48)) 0
    if n < wordBound then some n.toUInt64 else none

/-- Whether an argument is read as an option and not as a value. -/
def looksLikeOption (arg : String) : Bool := arg.startsWith "-" && arg != "-"

namespace Options

/-- Sets an option that was not given before. -/
def setValue (o : Options) : ValueOption → String → Option Options
  | .table, v =>
    if o.table.isSome then none else some { o with table := some v }
  | .saveTable, v =>
    if o.saveTable.isSome then none else some { o with saveTable := some v }
  | .seed, v =>
    if o.seed.isSome then none
    else (parseSeed? v).map fun n => { o with seed := some n }

/-- Sets the flag for more output, which was not given before. -/
def setVerbose (o : Options) : Option Options :=
  if o.verbose then none else some { o with verbose := true }

/-- Sets the flag for a comparison, which was not given before. -/
def setCheck (o : Options) : Option Options :=
  if o.check then none else some { o with check := true }

/-- Sets the circuit, which was not given before. -/
def setCircuit (o : Options) (v : String) : Option Options :=
  if o.circuit.isSome then none else some { o with circuit := some v }

end Options

/-- The arguments read so far: the options, one that waits for its value, and
whether two dashes have been read. -/
structure Arguments where
  options : Options := {}
  waiting : Option ValueOption := none
  plain : Bool := false

namespace Arguments

/-- The option of a long name. -/
def valueOption? (name : String) : Option ValueOption :=
  if name = "table" then some .table
  else if name = "save-table" then some .saveTable
  else if name = "seed" then some .seed
  else none

/-- A long option without a value in it. -/
def feedLong (a : Arguments) (name : String) : Option Arguments :=
  if name = "verbose" then
    a.options.setVerbose.map fun o => { a with options := o }
  else if name = "check" then
    a.options.setCheck.map fun o => { a with options := o }
  else (valueOption? name).map fun v => { a with waiting := some v }

/-- A long option with its value. -/
def feedLongValue (a : Arguments) (name value : String) : Option Arguments := do
  let o ← a.options.setValue (← valueOption? name) value
  return { a with options := o }

/-- Short options in one argument; the rest after the one with a value is its
value. -/
def feedShort (a : Arguments) : List Char → Option Arguments
  | [] => some a
  | 'v' :: rest => do
    let o ← a.options.setVerbose
    feedShort { a with options := o } rest
  | 's' :: [] => some { a with waiting := some .seed }
  | 's' :: rest => do
    let value := if rest.head? = some '=' then rest.drop 1 else rest
    let o ← a.options.setValue .seed (String.ofList value)
    return { a with options := o }
  | _ => none

/-- Feeds one argument. -/
def feed (a : Arguments) (arg : String) : Option Arguments :=
  if a.plain then
    (a.options.setCircuit arg).map fun o => { a with options := o }
  else
    match a.waiting with
    | some v =>
      if looksLikeOption arg then none
      else (a.options.setValue v arg).map fun o =>
        { a with options := o, waiting := none }
    | none =>
      if arg = "--" then some { a with plain := true }
      else
        match arg.toList with
        | '-' :: '-' :: cs =>
          let name := String.ofList (cs.takeWhile (· ≠ '='))
          match cs.dropWhile (· ≠ '=') with
          | [] => a.feedLong name
          | _ :: value => a.feedLongValue name (String.ofList value)
        | '-' :: c :: cs => a.feedShort (c :: cs)
        | _ => (a.options.setCircuit arg).map fun o => { a with options := o }

end Arguments

/-- Reads the arguments; `none` where they are not understood. -/
def Options.parse? (args : List String) : Option Options := do
  let a ← args.foldlM Arguments.feed {}
  if a.waiting.isSome then none else some a.options

end Gimbal
