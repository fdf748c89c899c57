/-
Gimbal/Amplitude.lean

Amplitudes: complex numbers over a scalar.  Products and quotients are written
out, since the order of the operations is part of the result when the scalars
are rounded.

`MulAdd` is one step of an inner product.  Over exact numbers it is
`acc + a * b` and nothing else; over rounded ones an amplitude adds the four
partial products one by one.
-/
import Gimbal.Scalar

namespace Gimbal

/-- One step of an inner product, `acc + a * b`; a carrier whose sums are
rounded says here in which order the parts are added. -/
class MulAdd (K : Type) where
  mulAdd : K → K → K → K

/-- By default a step multiplies, then adds. -/
instance (priority := low) MulAdd.ofMulOfAdd {K : Type} [Add K] [Mul K] :
    MulAdd K :=
  ⟨fun acc a b => acc + a * b⟩

/-- A complex number by its two coordinates. -/
structure Amplitude (R : Type) where
  re : R
  im : R

namespace Amplitude

variable {R : Type} [Scalar R]

instance : Zero (Amplitude R) := ⟨⟨0, 0⟩⟩
instance : One (Amplitude R) := ⟨⟨1, 0⟩⟩
instance : Add (Amplitude R) := ⟨fun a b => ⟨a.re + b.re, a.im + b.im⟩⟩
instance : Sub (Amplitude R) := ⟨fun a b => ⟨a.re - b.re, a.im - b.im⟩⟩
instance : Neg (Amplitude R) := ⟨fun a => ⟨-a.re, -a.im⟩⟩
instance : Mul (Amplitude R) :=
  ⟨fun a b => ⟨a.re * b.re - a.im * b.im, a.re * b.im + a.im * b.re⟩⟩
instance : MulAdd (Amplitude R) :=
  ⟨fun acc a b =>
    ⟨acc.re + a.re * b.re - a.im * b.im, acc.im + a.re * b.im + a.im * b.re⟩⟩

/-- The squared magnitude. -/
def normSq (a : Amplitude R) : R := a.re * a.re + a.im * a.im

/-- The magnitude. -/
def norm (a : Amplitude R) : R := Scalar.hypot a.re a.im

instance : Div (Amplitude R) :=
  ⟨fun a b =>
    let n := b.normSq
    ⟨(a.re * b.re + a.im * b.im) / n, (a.im * b.re - a.re * b.im) / n⟩⟩

/-- A real number as an amplitude. -/
def ofReal (x : R) : Amplitude R := ⟨x, 0⟩

/-- The imaginary unit. -/
def i : Amplitude R := ⟨0, 1⟩

/-- The point of the unit circle at an angle. -/
def cis (angle : R) : Amplitude R := ⟨Scalar.cos angle, Scalar.sin angle⟩

/-- Divides both coordinates by a real number. -/
def divReal (a : Amplitude R) (x : R) : Amplitude R := ⟨a.re / x, a.im / x⟩

/-- The point of the unit circle in the direction of `a`. -/
def direction (a : Amplitude R) : Amplitude R := a.divReal a.norm

end Amplitude

end Gimbal
