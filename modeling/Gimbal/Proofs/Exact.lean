/-
Gimbal/Proofs/Exact.lean

Exact arithmetic.  The real numbers are scalars, with a full turn of `2 * π`,
rounding that sends a half away from zero, and the usual sine, cosine and
length.  Amplitudes over them are the complex numbers written by coordinates:

    toComplex (a * b) = toComplex a * toComplex b,        and so for the other operations.

They form a commutative ring whose operations are the ones that programs use,
and a step of an inner product is a product and a sum (`LawfulMulAdd`), so that
facts about matrices over any commutative ring apply to them.
-/
import Mathlib
import Gimbal.Amplitude

namespace Gimbal

/-! ### The real numbers as scalars -/

namespace Exact

noncomputable instance score : Score ℝ where
  decLt := Real.decidableLT
  decLe := Real.decidableLE
  totalLe a b := decide (a ≤ b)

/-- Real numbers as scalars.  No real number lies above all others; the score of
what cannot be scored is one that is never accepted. -/
noncomputable instance scalar : Scalar ℝ where
  toScore := score
  toDiv := Real.instDivInvMonoid.toDiv
  toBEq := instBEqOfDecidableEq
  toOfScientific := NNRatCast.toOfScientific
  tau := 2 * Real.pi
  invSqrtTwo := 1 / √2
  sin := Real.sin
  cos := Real.cos
  hypot x y := √(x ^ 2 + y ^ 2)
  floor x := ⌊x⌋
  round x := if 0 ≤ x then ⌊x + 1 / 2⌋ else ⌈x - 1 / 2⌉
  abs x := |x|
  isFinite _ := true
  unbounded := 1
  same a b := decide (a = b)

@[simp] theorem sin_eq (x : ℝ) : Scalar.sin x = Real.sin x := rfl

@[simp] theorem cos_eq (x : ℝ) : Scalar.cos x = Real.cos x := rfl

theorem tau_eq : (tau : ℝ) = 2 * Real.pi := rfl

/-- Rounding moves a number by at most a half. -/
theorem abs_round_sub_le (x : ℝ) : |Scalar.round x - x| ≤ 1 / 2 := by
  show |(if 0 ≤ x then (⌊x + 1 / 2⌋ : ℝ) else (⌈x - 1 / 2⌉ : ℝ)) - x| ≤ 1 / 2
  split
  · have hle := Int.floor_le (x + 1 / 2)
    have hlt := Int.lt_floor_add_one (x + 1 / 2)
    rw [abs_le]
    constructor <;> linarith
  · have hle := Int.le_ceil (x - 1 / 2)
    have hlt := Int.ceil_lt_add_one (x - 1 / 2)
    rw [abs_le]
    constructor <;> linarith

/-- Rounding to hundredths moves a number by at most a half of one. -/
theorem abs_roundHundredth_sub_le (x : ℝ) : |roundHundredth x - x| ≤ 0.005 := by
  have h := abs_round_sub_le (x * 100)
  have heq : roundHundredth x = Scalar.round (x * 100) / 100 := by
    show Scalar.round (x * 100.0) / 100.0 = _
    norm_num
  rw [heq, abs_le]
  rw [abs_le] at h
  constructor <;> linarith

end Exact

/-! ### Inner products over exact numbers -/

/-- A step of an inner product multiplies and adds, in any order. -/
class LawfulMulAdd (K : Type) [Add K] [Mul K] [MulAdd K] : Prop where
  mulAdd_eq : ∀ acc a b : K, MulAdd.mulAdd acc a b = acc + a * b

instance {K : Type} [Add K] [Mul K] : LawfulMulAdd K := ⟨fun _ _ _ => rfl⟩

namespace Amplitude

/-! ### Amplitudes over the real numbers -/

attribute [ext] Amplitude

@[simp] theorem zero_re : (0 : Amplitude ℝ).re = 0 := rfl
@[simp] theorem zero_im : (0 : Amplitude ℝ).im = 0 := rfl
@[simp] theorem one_re : (1 : Amplitude ℝ).re = 1 := rfl
@[simp] theorem one_im : (1 : Amplitude ℝ).im = 0 := rfl
@[simp] theorem add_re (a b : Amplitude ℝ) : (a + b).re = a.re + b.re := rfl
@[simp] theorem add_im (a b : Amplitude ℝ) : (a + b).im = a.im + b.im := rfl
@[simp] theorem sub_re (a b : Amplitude ℝ) : (a - b).re = a.re - b.re := rfl
@[simp] theorem sub_im (a b : Amplitude ℝ) : (a - b).im = a.im - b.im := rfl
@[simp] theorem neg_re (a : Amplitude ℝ) : (-a).re = -a.re := rfl
@[simp] theorem neg_im (a : Amplitude ℝ) : (-a).im = -a.im := rfl
@[simp] theorem mul_re (a b : Amplitude ℝ) :
    (a * b).re = a.re * b.re - a.im * b.im := rfl
@[simp] theorem mul_im (a b : Amplitude ℝ) :
    (a * b).im = a.re * b.im + a.im * b.re := rfl

noncomputable instance : CommRing (Amplitude ℝ) where
  add_assoc a b c := by ext <;> simp [add_assoc]
  zero_add a := by ext <;> simp
  add_zero a := by ext <;> simp
  add_comm a b := by ext <;> simp [add_comm]
  sub_eq_add_neg a b := by ext <;> simp [sub_eq_add_neg]
  neg_add_cancel a := by ext <;> simp
  mul_assoc a b c := by ext <;> simp <;> ring
  one_mul a := by ext <;> simp
  mul_one a := by ext <;> simp
  zero_mul a := by ext <;> simp
  mul_zero a := by ext <;> simp
  left_distrib a b c := by ext <;> simp <;> ring
  right_distrib a b c := by ext <;> simp <;> ring
  mul_comm a b := by ext <;> simp <;> ring
  nsmul := nsmulRec
  zsmul := zsmulRec

instance : LawfulMulAdd (Amplitude ℝ) where
  mulAdd_eq acc a b := by
    show (⟨acc.re + a.re * b.re - a.im * b.im,
      acc.im + a.re * b.im + a.im * b.re⟩ : Amplitude ℝ) = _
    ext <;> simp <;> ring

/-- The complex number with the same coordinates. -/
def toComplex : Amplitude ℝ →+* ℂ where
  toFun a := ⟨a.re, a.im⟩
  map_zero' := rfl
  map_one' := rfl
  map_add' _ _ := rfl
  map_mul' _ _ := rfl

theorem toComplex_apply (a : Amplitude ℝ) : toComplex a = ⟨a.re, a.im⟩ := rfl

theorem toComplex_injective : Function.Injective toComplex := by
  intro a b h
  exact Amplitude.ext (congrArg Complex.re h) (congrArg Complex.im h)

/-- The point of the unit circle at an angle is the exponential. -/
theorem toComplex_cis (x : ℝ) :
    toComplex (cis x) = Complex.exp (x * Complex.I) := by
  rw [Complex.exp_mul_I]
  apply Complex.ext
  · simp [toComplex_apply, cis, Complex.cos_ofReal_re, Complex.sin_ofReal_im]
  · simp [toComplex_apply, cis, Complex.sin_ofReal_re, Complex.cos_ofReal_im]

theorem cis_mul_cis (x y : ℝ) :
    (cis x * cis y : Amplitude ℝ) = cis (x + y) := by
  apply Amplitude.ext
  · exact (Real.cos_add x y).symm
  · show Real.cos x * Real.sin y + Real.sin x * Real.cos y = Real.sin (x + y)
    rw [Real.sin_add, add_comm]

end Amplitude

end Gimbal
