/-
Gimbal/Proofs/Turn.lean

Rotations as complex operators.  With `P` the reflection that belongs to a
direction,

    turn θ = cos (θ / 2) - i * sin (θ / 2) * P,

and since `P` is its own inverse and its own adjoint, everything about rotations
is algebra: angles add, the adjoint turns back, a full turn is `-1`, and two
turns are as far apart as half the difference of their angles at most
(`norm_turn_sub_le`).

`Mat.complex` reads a matrix of amplitudes as a complex operator; the rotations
of the library are these turns.
-/
import Mathlib
import Gimbal.Proofs.Operator

namespace Gimbal

open scoped Matrix.Norms.L2Operator

/-! ### Complex operators -/

namespace Mat

/-- The complex operator on `n` qubits of a matrix of amplitudes. -/
noncomputable def complex (m : Mat (Amplitude ℝ)) (n : ℕ) :
    Matrix (Fin (2 ^ n)) (Fin (2 ^ n)) ℂ :=
  (m.toMatrix n).map Amplitude.toComplex

theorem complex_square (a b c d : Amplitude ℝ) :
    (square a b c d).complex 1 =
      !![a.toComplex, b.toComplex; c.toComplex, d.toComplex] := by
  rw [complex, toMatrix_square]
  ext i j
  fin_cases i <;> fin_cases j <;> rfl

end Mat

/-- An operator that is its own adjoint and its own inverse is unitary. -/
theorem mem_unitary_of_involution {k : ℕ}
    {A : Matrix (Fin (2 ^ k)) (Fin (2 ^ k)) ℂ} (hself : A.conjTranspose = A)
    (hsq : A * A = 1) : A ∈ Matrix.unitaryGroup (Fin (2 ^ k)) ℂ := by
  rw [Unitary.mem_iff, Matrix.star_eq_conjTranspose, hself]
  exact ⟨hsq, hsq⟩

/-! ### Turns -/

namespace Direction

/-- The reflection that belongs to a direction. -/
def reflection : Direction → Matrix (Fin (2 ^ 1)) (Fin (2 ^ 1)) ℂ
  | .x => !![0, 1; 1, 0]
  | .y => !![0, -Complex.I; Complex.I, 0]
  | .z => !![1, 0; 0, -1]

theorem reflection_mul_self (d : Direction) :
    d.reflection * d.reflection = 1 := by
  ext i j
  cases d <;> fin_cases i <;> fin_cases j <;>
    simp [reflection, Matrix.mul_apply]

theorem conjTranspose_reflection (d : Direction) :
    d.reflection.conjTranspose = d.reflection := by
  ext i j
  cases d <;> fin_cases i <;> fin_cases j <;>
    simp [reflection, Matrix.conjTranspose_apply]

theorem reflection_mem_unitary (d : Direction) :
    d.reflection ∈ Matrix.unitaryGroup (Fin (2 ^ 1)) ℂ :=
  mem_unitary_of_involution d.conjTranspose_reflection d.reflection_mul_self

/-- The rotation by an angle, as an operator. -/
noncomputable def turn (d : Direction) (θ : ℝ) :
    Matrix (Fin (2 ^ 1)) (Fin (2 ^ 1)) ℂ :=
  (Real.cos (θ / 2.0) : ℂ) • 1 - (Real.sin (θ / 2.0) * Complex.I : ℂ) •
    d.reflection

/-- The definition, with half the angle as it is calculated with. -/
theorem turn_eq (d : Direction) (θ : ℝ) :
    d.turn θ = (Real.cos (θ / 2) : ℂ) • 1 - (Real.sin (θ / 2) * Complex.I : ℂ) •
      d.reflection := by
  have hhalf : (θ / 2.0 : ℝ) = θ / 2 := by norm_num
  rw [turn, hhalf]

/-- The rotations of the library are turns. -/
theorem complex_rotation (d : Direction) (θ : ℝ) :
    (d.rotation θ).complex 1 = d.turn θ := by
  rw [turn]
  cases d with
  | x =>
    show (Mat.square ⟨Real.cos (θ / 2.0), 0⟩ ⟨0, -Real.sin (θ / 2.0)⟩
      ⟨0, -Real.sin (θ / 2.0)⟩
      ⟨Real.cos (θ / 2.0), 0⟩ : Mat (Amplitude ℝ)).complex 1 = _
    -- entry by entry, with the two functions of the half angle as unknowns
    rw [Mat.complex_square]
    generalize Real.cos (θ / 2.0) = c, Real.sin (θ / 2.0) = s
    ext i j
    fin_cases i <;> fin_cases j <;>
      simp [reflection, Amplitude.toComplex_apply, Complex.ext_iff]
  | y =>
    show (Mat.square ⟨Real.cos (θ / 2.0), 0⟩ ⟨-Real.sin (θ / 2.0), 0⟩
      ⟨Real.sin (θ / 2.0), 0⟩
      ⟨Real.cos (θ / 2.0), 0⟩ : Mat (Amplitude ℝ)).complex 1 = _
    rw [Mat.complex_square]
    generalize Real.cos (θ / 2.0) = c, Real.sin (θ / 2.0) = s
    ext i j
    fin_cases i <;> fin_cases j <;>
      simp [reflection, Amplitude.toComplex_apply, Complex.ext_iff]
  | z =>
    show (Mat.square ⟨Real.cos (-θ / 2.0), Real.sin (-θ / 2.0)⟩ 0 0
      ⟨Real.cos (θ / 2.0), Real.sin (θ / 2.0)⟩ :
        Mat (Amplitude ℝ)).complex 1 = _
    rw [Mat.complex_square, neg_div, Real.cos_neg, Real.sin_neg]
    generalize Real.cos (θ / 2.0) = c, Real.sin (θ / 2.0) = s
    ext i j
    fin_cases i <;> fin_cases j <;>
      simp [reflection, Amplitude.toComplex_apply, Complex.ext_iff]

theorem turn_zero (d : Direction) : d.turn 0 = 1 := by
  simp [turn_eq]

/-- Angles add. -/
theorem turn_mul_turn (d : Direction) (θ φ : ℝ) :
    d.turn θ * d.turn φ = d.turn (θ + φ) := by
  have hsum : (θ + φ) / 2 = θ / 2 + φ / 2 := by ring
  rw [turn_eq, turn_eq, turn_eq, hsum, Real.cos_add, Real.sin_add]
  generalize Real.cos (θ / 2) = c, Real.sin (θ / 2) = s, Real.cos (φ / 2) = c',
    Real.sin (φ / 2) = s'
  -- the reflection squares to one, so the product is the addition theorem for
  -- sine and cosine
  have hI : (s' * Complex.I) * (s * Complex.I) = -(s * s' : ℂ) := by
    linear_combination (s * s' : ℂ) * Complex.I_mul_I
  simp only [sub_mul, mul_sub, Matrix.smul_mul, Matrix.mul_smul, one_mul,
    mul_one, reflection_mul_self, smul_smul]
  rw [hI]
  push_cast
  module

/-- The adjoint turns back. -/
theorem conjTranspose_turn (d : Direction) (θ : ℝ) :
    (d.turn θ).conjTranspose = d.turn (-θ) := by
  rw [turn_eq, turn_eq, Matrix.conjTranspose_sub, Matrix.conjTranspose_smul,
    Matrix.conjTranspose_smul, conjTranspose_reflection,
    Matrix.conjTranspose_one, neg_div, Real.cos_neg, Real.sin_neg]
  generalize Real.cos (θ / 2) = c, Real.sin (θ / 2) = s
  simp

theorem turn_mem_unitary (d : Direction) (θ : ℝ) :
    d.turn θ ∈ Matrix.unitaryGroup (Fin (2 ^ 1)) ℂ := by
  rw [Unitary.mem_iff, Matrix.star_eq_conjTranspose, conjTranspose_turn,
    turn_mul_turn, turn_mul_turn, neg_add_cancel, add_neg_cancel, turn_zero]
  exact ⟨rfl, rfl⟩

/-- Opposite turns add up to a multiple of the identity. -/
theorem turn_add_turn_neg (d : Direction) (θ : ℝ) :
    d.turn θ + d.turn (-θ) = (2 * Real.cos (θ / 2) : ℂ) • 1 := by
  rw [turn_eq, turn_eq, neg_div, Real.cos_neg, Real.sin_neg]
  push_cast
  module

/-- Turns are as far apart as half the difference of their angles at most. -/
theorem norm_turn_sub_le (d : Direction) (θ φ : ℝ) :
    ‖d.turn θ - d.turn φ‖ ≤ |θ - φ| / 2 := by
  have hgram : (d.turn θ - d.turn φ).conjTranspose * (d.turn θ - d.turn φ)
      = ((2 - 2 * Real.cos ((θ - φ) / 2) : ℝ) : ℂ) •
        (1 : Matrix (Fin (2 ^ 1)) (Fin (2 ^ 1)) ℂ) := by
    -- the mixed products are turns by the difference, one each way
    have hopp := turn_add_turn_neg d (θ - φ)
    rw [Matrix.conjTranspose_sub, conjTranspose_turn, conjTranspose_turn,
      sub_mul, mul_sub, mul_sub]
    simp only [turn_mul_turn, neg_add_cancel, turn_zero]
    rw [show -θ + φ = -(θ - φ) by ring, show -φ + θ = θ - φ by ring]
    calc 1 - d.turn (-(θ - φ)) - (d.turn (θ - φ) - 1)
        = (2 : ℂ) • 1 - (d.turn (θ - φ) + d.turn (-(θ - φ))) := by module
      _ = _ := by
          rw [hopp]
          push_cast
          module
  -- the norm of a product with the adjoint is the square of the norm
  have hsq :
      ‖d.turn θ - d.turn φ‖ * ‖d.turn θ - d.turn φ‖ =
        2 - 2 * Real.cos ((θ - φ) / 2) := by
    rw [← Matrix.l2_opNorm_conjTranspose_mul_self, hgram, norm_smul, norm_one,
      mul_one, Complex.norm_real, Real.norm_of_nonneg]
    linarith [Real.cos_le_one ((θ - φ) / 2)]
  -- the cosine from below gives the bound for the square
  have hcos := @Real.one_sub_sq_div_two_le_cos ((θ - φ) / 2)
  refine abs_le_of_sq_le_sq' ?_ (by positivity) |>.2
  rw [pow_two, hsq, div_pow, sq_abs]
  rw [div_pow] at hcos
  linarith

/-- Whole turns are signs. -/
theorem turn_int_mul_two_pi (d : Direction) (k : ℤ) :
    d.turn (k * (2 * Real.pi)) = ((-1) ^ k : ℂ) • 1 := by
  have hhalf : (k * (2 * Real.pi) : ℝ) / 2 = k * Real.pi := by ring
  rw [turn_eq, hhalf, Real.cos_int_mul_pi, Real.sin_int_mul_pi]
  simp

end Direction

end Gimbal
