/-
Gimbal/Binary64.lean

Binary floating point as exact numbers.

A finite `Float` is `± significand * 2 ^ exponent`; `Binary64.ofFloat` takes it
apart.  In the other direction `nearest` gives the `Float` closest to a
fraction, the even one of two that are equally close, and so it rounds only
once.

The length of a vector is computed as it usually is, with the machine's square
root and one step of correction: nearly always it is the nearest number, and it
does not leave the range on the way.

The instance at the end makes `Float` a `Scalar`; the arithmetic is the
machine's.
-/
import Gimbal.Scalar

namespace Gimbal

/-- The exact meaning of a `Float`. -/
inductive Binary64
  | finite (negative : Bool) (significand : Nat) (exponent : Int)
  | infinite (negative : Bool)
  | notANumber

/-- The quotient of two natural numbers, rounded to nearest with halves to
even. -/
def divRoundEven (num den : Nat) : Nat :=
  let q := num / den
  let r := num % den
  if 2 * r < den then q
  else if den < 2 * r then q + 1
  else if q % 2 = 0 then q else q + 1

/-- A power of two with any exponent, as numerator and denominator. -/
def powTwo (e : Int) : Nat × Nat :=
  if 0 ≤ e then (Nat.pow 2 e.toNat, 1) else (1, Nat.pow 2 (-e).toNat)

/-- A power of ten with any exponent, as numerator and denominator. -/
def powTen (e : Int) : Nat × Nat :=
  if 0 ≤ e then (Nat.pow 10 e.toNat, 1) else (1, Nat.pow 10 (-e).toNat)

namespace Binary64

/-- The place above the 52 stored digits of a significand. -/
def hiddenBit : Nat := 0x10000000000000

/-- The place of the sign, above all others. -/
def signBit : Nat := 0x8000000000000000

/-- The smallest exponent of a significand. -/
def minExponent : Int := -1074

/-- Takes a `Float` apart. -/
def ofFloat (x : Float) : Binary64 :=
  let bits := x.toBits.toNat
  let negative := bits.testBit 63
  let biased : Nat := bits / hiddenBit % 2048
  let fraction := bits % hiddenBit
  if biased = 0 then .finite negative fraction minExponent
  else if biased < 2047 then
    .finite negative (hiddenBit + fraction) (biased + minExponent - 1)
  else if fraction = 0 then .infinite negative
  else .notANumber

/-- The `Float` with the given sign and the given bits below it. -/
def withSign (negative : Bool) (bits : Nat) : Float :=
  Float.ofBits ((if negative then signBit + bits else bits).toUInt64)

/-- The bits of an infinity, without the sign: the first that are no finite
number. -/
def infinityBits : Nat := 2047 * hiddenBit

/-- The `Float` nearest to `num / den`, halves to even; `none` beyond the
largest one. -/
def nearest (negative : Bool) (num den : Nat) : Option Float :=
  if num = 0 then
    some (withSign negative 0)
  else
    let guess : Int := (num.log2 : Int) - den.log2 - 52
    let scaled (e : Int) : Nat × Nat :=
      let p := powTwo (-e)
      (num * p.1, den * p.2)
    let fits := let s := scaled guess; hiddenBit * s.2 ≤ s.1
    let exponent := max minExponent (if fits then guess else guess - 1)
    let s := scaled exponent
    let bits :=
      (exponent - minExponent).toNat * hiddenBit + divRoundEven s.1 s.2
    if bits < infinityBits then some (withSign negative bits) else none

/-- The nearest integer; a half goes away from zero, and what has no fraction
stays. -/
def round (x : Float) : Float :=
  match ofFloat x with
  | .finite negative m q =>
    if 0 ≤ q then x
    else
      let place := Nat.pow 2 (-q).toNat
      (nearest negative ((2 * m + place) / (2 * place)) 1).getD x
  | _ => x

/-! ### The length of a vector -/

/-- Coordinates above this are scaled down, since their squares may be out of
range: `2 ^ 511`. -/
def largeCoordinate : Float := Float.ofBits 0x5FE0000000000000

/-- Coordinates below this are scaled up, since their squares may vanish:
`2 ^ -459`. -/
def tinyCoordinate : Float := Float.ofBits 0x2340000000000000

/-- The factor of the scaling: `2 ^ -600`. -/
def lengthScale : Float := Float.ofBits 0x1A70000000000000

/-- A coordinate whose share of the other is at most this does not count:
`2 ^ -54`. -/
def negligibleShare : Float := Float.ofBits 0x3C90000000000000

/-- The length of a vector with `0 < short ≤ long` and squares in range: the
root of the sum of squares, corrected by one step with the error of the root. -/
def correctedLength (long short : Float) : Float :=
  let h := Float.sqrt (long * long + short * short)
  let error :=
    if h ≤ 2.0 * short then
      let d := h - short
      long * (2.0 * d - long) + (d - 2.0 * (long - short)) * d
    else
      let d := h - long
      2.0 * d * (long - 2.0 * short) + ((4.0 * d - short) * short + d * d)
  h - error / (2.0 * h)

/-- The length of a vector with `0 ≤ short ≤ long`. -/
def orderedLength (long short : Float) : Float :=
  if largeCoordinate < long then
    if short ≤ long * negligibleShare then long + short
    else
      correctedLength (long * lengthScale) (short * lengthScale) / lengthScale
  else if short < tinyCoordinate then
    if short / negligibleShare ≤ long then long + short
    else
      correctedLength (long / lengthScale) (short / lengthScale) * lengthScale
  else if short ≤ long * negligibleShare then long + short
  else correctedLength long short

/-- The length of a vector. -/
def hypot (x y : Float) : Float :=
  if x.isInf || y.isInf then withSign false infinityBits
  else if x.isNaN || y.isNaN then x + y
  else if x.abs < y.abs then orderedLength y.abs x.abs
  else orderedLength x.abs y.abs

/-! ### Order -/

/-- The order of the representations: negative numbers by falling, positive ones
by rising magnitude, and what is not a number above everything. -/
def totalLe (x y : Float) : Bool :=
  let key (z : Float) : UInt64 :=
    let bits := z.toBits
    if bits < 0x8000000000000000 then bits ||| 0x8000000000000000 else ~~~bits
  key x ≤ key y

end Binary64

instance : Scalar Float where
  lt a b := a < b
  le a b := a ≤ b
  sub a b := a - b
  decLt := Float.decLt
  decLe := Float.decLe
  totalLe := Binary64.totalLe
  zero := Float.ofBits 0
  one := Float.ofBits 0x3FF0000000000000
  add a b := a + b
  mul a b := a * b
  div a b := a / b
  neg a := -a
  beq a b := a == b
  natCast n := Float.ofNat n
  ofScientific m s e := Float.ofScientific m s e
  tau := Float.ofBits 0x401921FB54442D18
  invSqrtTwo := Float.ofBits 0x3FE6A09E667F3BCD
  sin := Float.sin
  cos := Float.cos
  hypot := Binary64.hypot
  floor := Float.floor
  round := Binary64.round
  abs := Float.abs
  isFinite := Float.isFinite
  unbounded := Float.ofBits 0x7FF0000000000000
  same a b := a.toBits == b.toBits

end Gimbal
