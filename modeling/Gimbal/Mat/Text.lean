/-
Gimbal/Mat/Text.lean

Matrices for the eye: a row a line, two decimals for each coordinate, the
imaginary one with its sign.
-/
import Gimbal.Mat
import Gimbal.Decimal

namespace Gimbal

variable {R : Type} [Numeral R]

/-- A numeral with a sign in front; what is not a number has none. -/
def signedText (text : String) : String :=
  if text.startsWith "-" || text == "NaN" then text else "+" ++ text

/-- An amplitude with two decimals for each coordinate. -/
def Amplitude.text (a : Amplitude R) : String :=
  padLeft 7 (Numeral.fixed 2 a.re) ++ signedText (Numeral.fixed 2 a.im) ++ "i"

/-- The rows of a matrix, a line each. -/
def Mat.text (m : Mat (Amplitude R)) : String :=
  "\n".intercalate
    (m.toRows.map fun row => " ".intercalate (row.map Amplitude.text))

end Gimbal
