/-
Gimbal/Binary64/Decimal.lean

Binary floating point in decimal.

The shortest decimal of `m * 2 ^ q` is searched among those with 1, 2, … 17
digits.  All decimals with `p` digits near the number lie on a grid, and if any
of them rounds to the number, one of the two neighbours of the number does; so
only these two are tested.  Every comparison is between natural numbers, and so
the texts are exact.

Reading is quick instead: the digits become a number and a power of ten is
applied to it, and each of the two steps rounds.  Of a decimal with more than
fifteen digits the last binary place may be off.
-/
import Gimbal.Binary64
import Gimbal.Decimal

namespace Gimbal

namespace Binary64

/-! ### The shortest decimal -/

/-- The interval of reals to which a number is nearest, in quarters of its last
binary place. -/
structure Window where
  /-- The number itself. -/
  centre : Nat
  low : Nat
  high : Nat
  /-- Whether the ends belong to the interval. -/
  closed : Bool

/-- The reals to which `m * 2 ^ q` is nearest: half a place to both sides, and
less below a power of two, where the numbers lie closer. -/
def window (m : Nat) (q : Int) : Window where
  centre := 4 * m
  low := if m = hiddenBit ∧ minExponent < q then 4 * m - 1 else 4 * m - 2
  high := 4 * m + 2
  closed := m % 2 = 0

/-- Whether `d` units of a decimal grid lie in the window; `unit` is the decimal
unit and `quarter` the quarter of a binary place, over one denominator. -/
def Window.contains (w : Window) (unit quarter d : Nat) : Bool :=
  if w.closed then w.low * quarter ≤ d * unit && d * unit ≤ w.high * quarter
  else w.low * quarter < d * unit && d * unit < w.high * quarter

/-- The grid point next to the number that lies in the window; of two the
nearer, of two that are equally near the even one. -/
def Window.pick? (w : Window) (unit quarter : Nat) : Option Nat :=
  let below := w.centre * quarter / unit
  let above := below + 1
  match w.contains unit quarter below, w.contains unit quarter above with
  | true, true =>
    let gap := w.centre * quarter - below * unit
    let rest := above * unit - w.centre * quarter
    some (if gap < rest then below else if rest < gap then above
      else if below % 2 = 0 then below else above)
  | true, false => some below
  | false, true => some above
  | false, false => none

/-- The exponent of the leading decimal digit of `num / den`. -/
def leadingExponent (num den : Nat) : Int :=
  let guess : Int := (((num.log2 : Int) - den.log2) * 30103).fdiv 100000
  let reaches (e : Int) : Bool :=
    let p := powTen e; decide (p.1 * den ≤ num * p.2)
  if reaches (guess + 1) then guess + 1
  else if reaches guess then guess
  else guess - 1

/-- Drops trailing zeros, at most `fuel` of them. -/
def dropZeros : (fuel digits : Nat) → Int → Nat × Int
  | 0, digits, e => (digits, e)
  | fuel + 1, digits, e =>
    if digits ≠ 0 ∧ digits % 10 = 0 then dropZeros fuel (digits / 10) (e + 1)
    else (digits, e)

/-- Tries decimals of `places` digits, then of one more, and so on. -/
def scanDigits (w : Window) (quarter : Nat × Nat) (lead : Int) :
    (more places : Nat) → Nat × Int
  | 0, _ => (w.centre, 0)
  | more + 1, places =>
    let e := lead - places + 1
    let unit := powTen e
    match w.pick? (unit.1 * quarter.2) (quarter.1 * unit.2) with
    | some d => dropZeros places d e
    | none => scanDigits w quarter lead more (places + 1)

/-- The fewest digits that round to `m * 2 ^ q`, and the exponent of the last
one. -/
def shortestDigits (m : Nat) (q : Int) : Nat × Int :=
  if m = 0 then (0, 0)
  else
    let w := window m q
    let quarter := powTwo (q - 2)
    scanDigits w quarter (leadingExponent (w.centre * quarter.1) quarter.2) 17 1

/-- The shortest decimal of a finite number. -/
def shortest (x : Float) : Option Decimal :=
  match ofFloat x with
  | .finite negative m q =>
    let d := shortestDigits m q; some ⟨negative, d.1, d.2⟩
  | _ => none

/-! ### A fixed number of places -/

/-- The text with a fixed number of places: the exact value is rounded, halves
to even. -/
def fixed (places : Nat) (x : Float) : String :=
  match ofFloat x with
  | .finite negative m q =>
    let p := powTwo q
    fixedText negative (divRoundEven (m * p.1 * Nat.pow 10 places) p.2) places
  | .infinite negative => if negative then "-inf" else "inf"
  | .notANumber => "NaN"

/-! ### Reading -/

/-- The exponent of the largest power of ten that is a number. -/
def greatestPower : Nat := 308

/-- A power of ten, rounded. -/
def powerOfTen (k : Nat) : Float :=
  (nearest false (Nat.pow 10 k) 1).getD (withSign false infinityBits)

/-- Moves the point of a number by so many decimal places: one rounded
multiplication or division, after others while the power of ten is out of range.
There is no answer beyond the largest number. -/
def movePoint (x : Float) (places : Int) : Option Float :=
  if x == 0 then some x
  else if 0 ≤ places then
    if greatestPower < places then none
    else
      let y := x * powerOfTen places.toNat
      if y.isFinite then some y else none
  else if -(greatestPower : Int) ≤ places then
    some (x / powerOfTen (-places).toNat)
  else movePoint (x / powerOfTen greatestPower) (places + greatestPower)
termination_by (-places).toNat
decreasing_by
  simp only [greatestPower] at *
  omega

/-- The number that a decimal is read as: the digits are rounded first, and
again when the point is moved to its place. -/
def ofDecimal (d : Decimal) : Option Float := do
  let digits ← nearest false d.digits 1
  let x ← movePoint digits d.exponent
  return if d.negative then -x else x

end Binary64

instance : Numeral Float where
  shortest := Binary64.shortest
  fixed := Binary64.fixed
  ofDecimal := Binary64.ofDecimal

end Gimbal
