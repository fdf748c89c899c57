/-
Gimbal/Decimal.lean

Decimal numerals: the numbers that texts speak of, and how they are laid out.

A `Decimal` is `± digits * 10 ^ exponent`.  Two layouts are used.
`Decimal.plainText` is the text of a numeral in a circuit file: positional with
a point while the leading digit stands between the fifth place after the point
and the sixteenth before it, scientific with a signed exponent beyond.
`fixedText` has a fixed number of places.

`Numeral R` connects a scalar with its texts.
-/
namespace Gimbal

/-- The number `± digits * 10 ^ exponent`; the sign is kept on zero too. -/
structure Decimal where
  negative : Bool
  digits : Nat
  exponent : Int
deriving DecidableEq, Repr

/-- Scalars that can be written and read. -/
class Numeral (R : Type) where
  /-- The fewest digits that round to the number; `none` where it is not
  finite. -/
  shortest : R → Option Decimal
  /-- The text with a fixed number of decimal places. -/
  fixed : Nat → R → String
  /-- The number that a decimal is read as; `none` beyond the largest one. -/
  ofDecimal : Decimal → Option R

/-- The decimal digits of a natural number. -/
def digitText (n : Nat) : List Char := Nat.toDigits 10 n

namespace Decimal

/-- The smallest exponent of a leading digit that is written positionally. -/
def leastPlain : Int := -5

/-- The largest exponent of a leading digit that is written positionally. -/
def greatestPlain : Int := 15

/-- Digits with the point after the first `k` of them, filled up with zeros. -/
def withPoint (ds : List Char) (k : Nat) : List Char :=
  let whole := ds.take k ++ List.replicate (k - ds.length) '0'
  let rest := ds.drop k
  whole ++ '.' :: (if rest.isEmpty then ['0'] else rest)

/-- The text of an exponent with its sign. -/
def exponentText (e : Int) : List Char :=
  'e' :: (if e < 0 then '-' else '+') :: digitText e.natAbs

/-- The text without its sign, for digits whose first one stands for
`10 ^ lead`. -/
def magnitudeText (ds : List Char) (lead : Int) : List Char :=
  if lead < leastPlain ∨ greatestPlain < lead then
    ds.take 1 ++ (if ds.length ≤ 1 then [] else '.' :: ds.drop 1) ++
      exponentText lead
  else if lead < 0 then
    '0' :: '.' :: (List.replicate (-lead - 1).toNat '0' ++ ds)
  else
    withPoint ds (lead.toNat + 1)

/-- The text of a decimal: a point or an exponent always marks it as one. -/
def plainText (d : Decimal) : List Char :=
  let ds := digitText d.digits
  let lead := if d.digits = 0 then 0 else d.exponent + ds.length - 1
  (if d.negative then ['-'] else []) ++ magnitudeText ds lead

end Decimal

/-- The digits of `n` with a point before the last `places` of them. -/
def pointText (n places : Nat) : List Char :=
  let ds := digitText n
  let padded := List.replicate (places + 1 - ds.length) '0' ++ ds
  let whole := padded.take (padded.length - places)
  let rest := padded.drop (padded.length - places)
  if places = 0 then whole else whole ++ '.' :: rest

/-- A number with a fixed number of places: `n` counts units of the last
place. -/
def fixedText (negative : Bool) (n places : Nat) : String :=
  String.ofList ((if negative then ['-'] else []) ++ pointText n places)

/-- Fills up with blanks on the left. -/
def padLeft (width : Nat) (text : String) : String :=
  String.ofList (List.replicate (width - text.length) ' ') ++ text

end Gimbal
