/-
Gimbal/Proofs/EulerAngles.lean

The template of depth three fits every gate on one qubit.  A unitary matrix is
determined by its first row and its determinant; with `A` and `B` the angles of
the row, `D` that of the determinant and `β` the angle whose cosine and sine are
the magnitudes of the row,

    U = exp (i * D / 2) * turn_z c * turn_x (2 * β) * turn_z a,
    a = B - A + π / 2,    c = D - A - B - π / 2        (`euler_product_eq_polar`).

A search draws its angles from one turn, and a rotation comes back to itself
only after two: each angle is reduced to one turn at the price of a sign, and
the phase in front takes up the signs of all of them (`exists_phase_in_turn`).
-/
import Mathlib
import Gimbal.Proofs.SynthesisTotality
import Gimbal.Proofs.TemplateDistance

namespace Gimbal

open Complex (I)
open scoped Matrix

/-! ### Unitary matrices by their first row -/

/-- The adjugate of a unitary matrix is its adjoint, up to the determinant. -/
theorem adjugate_of_mem_unitary {U : Matrix (Fin 2) (Fin 2) ℂ}
    (h : U ∈ Matrix.unitaryGroup (Fin 2) ℂ) : U.adjugate = U.det • Uᴴ := by
  have hright : U * Uᴴ = 1 := Unitary.mul_star_self_of_mem h
  calc U.adjugate = U.adjugate * (U * Uᴴ) := by rw [hright, mul_one]
    _ = U.det • Uᴴ := by
      rw [← mul_assoc, Matrix.adjugate_mul, Matrix.smul_mul, one_mul]

/-- The first row and the determinant of a unitary matrix, and the second row
from them. -/
theorem rows_of_mem_unitary {U : Matrix (Fin 2) (Fin 2) ℂ}
    (h : U ∈ Matrix.unitaryGroup (Fin 2) ℂ) :
    ‖U.det‖ = 1 ∧ ‖U 0 0‖ ^ 2 + ‖U 0 1‖ ^ 2 = 1 ∧
      U 1 0 = -(U.det * star (U 0 1)) ∧ U 1 1 = U.det * star (U 0 0) := by
  have hadj := adjugate_of_mem_unitary h
  rw [Matrix.adjugate_fin_two] at hadj
  refine ⟨CStarRing.norm_of_mem_unitary (Matrix.det_of_mem_unitary h),
    ?_, ?_, ?_⟩
  · -- the first row of `U * Uᴴ = 1`: of each product a squared magnitude is
    -- left
    have hright : U * Uᴴ = 1 := Unitary.mul_star_self_of_mem h
    have hrow := congrFun₂ hright 0 0
    rw [Matrix.mul_apply, Fin.sum_univ_two] at hrow
    simp only [Matrix.conjTranspose_apply, Complex.star_def, Complex.mul_conj,
      Matrix.one_apply_eq] at hrow
    rw [← Complex.normSq_eq_norm_sq, ← Complex.normSq_eq_norm_sq]
    exact_mod_cast hrow
  · -- the second row is read off the adjugate
    rw [← neg_eq_iff_eq_neg]
    exact congrFun₂ hadj 1 0
  · exact congrFun₂ hadj 0 0

/-- The matrix with the first row and the determinant given in polar form. -/
noncomputable def polarUnitary (r s A B D : ℝ) :
    Matrix (Fin (2 ^ 1)) (Fin (2 ^ 1)) ℂ :=
  !![r * Complex.exp (A * I), s * Complex.exp (B * I);
    -(Complex.exp (D * I) * (s * Complex.exp ((-B : ℝ) * I))),
    Complex.exp (D * I) * (r * Complex.exp ((-A : ℝ) * I))]

theorem star_eq_norm_mul_exp (z : ℂ) :
    star z = ‖z‖ * Complex.exp ((-z.arg : ℝ) * I) := by
  have hpolar := congrArg star (Complex.norm_mul_exp_arg_mul_I z)
  rw [← hpolar, star_mul', Complex.star_def, Complex.conj_ofReal,
    ← Complex.exp_conj, map_mul, Complex.conj_ofReal, Complex.conj_I,
    Complex.ofReal_neg, neg_mul, mul_neg]

theorem exists_eq_polarUnitary {U : Matrix (Fin (2 ^ 1)) (Fin (2 ^ 1)) ℂ}
    (h : U ∈ Matrix.unitaryGroup (Fin (2 ^ 1)) ℂ) :
    ∃ β A B D : ℝ, U = polarUnitary (Real.cos β) (Real.sin β) A B D := by
  obtain ⟨hdet, hrow, hback, hlast⟩ := rows_of_mem_unitary h
  have hphase := Complex.norm_mul_exp_arg_mul_I U.det
  rw [hdet, Complex.ofReal_one, one_mul] at hphase
  -- the first row has length one, so its magnitudes are a cosine and a sine
  have hcos : Real.cos (Real.arccos ‖U 0 0‖) = ‖U 0 0‖ :=
    Real.cos_arccos (by linarith [norm_nonneg (U 0 0)])
      (by nlinarith [norm_nonneg (U 0 0)])
  have hsin : Real.sin (Real.arccos ‖U 0 0‖) = ‖U 0 1‖ := by
    rw [Real.sin_arccos, ← hrow, add_sub_cancel_left,
      Real.sqrt_sq (norm_nonneg _)]
  refine ⟨Real.arccos ‖U 0 0‖, (U 0 0).arg, (U 0 1).arg, U.det.arg, ?_⟩
  rw [polarUnitary, hcos, hsin, hphase, ← star_eq_norm_mul_exp,
    ← star_eq_norm_mul_exp, Complex.norm_mul_exp_arg_mul_I,
    Complex.norm_mul_exp_arg_mul_I, ← hlast, ← hback]
  exact Matrix.eta_fin_two U

/-! ### Three rotations -/

theorem exp_add_mul_I (s t : ℝ) :
    Complex.exp ((s + t : ℝ) * I) =
      Complex.exp (s * I) * Complex.exp (t * I) := by
  rw [← Complex.exp_add, Complex.ofReal_add, add_mul]

theorem exp_mem_unitary (φ : ℝ) : Complex.exp (φ * I) ∈ unitary ℂ :=
  mem_unitary_iff_norm_eq_one.mpr (Complex.norm_exp_ofReal_mul_I φ)

theorem Direction.turn_z (θ : ℝ) : z.turn θ
    = !![Complex.exp ((-(θ / 2) : ℝ) * I), 0; 0,
      Complex.exp ((θ / 2 : ℝ) * I)] := by
  rw [turn_eq, Complex.exp_mul_I, Complex.exp_mul_I, ← Complex.ofReal_cos,
    ← Complex.ofReal_sin, ← Complex.ofReal_cos, ← Complex.ofReal_sin,
    Real.cos_neg, Real.sin_neg]
  ext i j
  fin_cases i <;> fin_cases j <;> simp [reflection, sub_eq_add_neg]

theorem Direction.turn_x (θ : ℝ) : x.turn θ
    = !![(Real.cos (θ / 2) : ℂ), -(Real.sin (θ / 2) * I);
      -(Real.sin (θ / 2) * I), (Real.cos (θ / 2) : ℂ)] := by
  rw [turn_eq]
  ext i j
  fin_cases i <;> fin_cases j <;> simp [reflection]

/-- The outer rotations and the phase add to the angles of the entries. -/
theorem smul_turn_mul_turn_mul_turn (φ a b c : ℝ) :
    Complex.exp (φ * I) •
      (Direction.z.turn c * (Direction.x.turn b * Direction.z.turn a))
      = !![Real.cos (b / 2) * Complex.exp ((φ - (a + c) / 2 : ℝ) * I),
          Real.sin (b / 2) *
            Complex.exp ((φ + (a - c) / 2 - Real.pi / 2 : ℝ) * I);
          Real.sin (b / 2) *
            Complex.exp ((φ - (a - c) / 2 - Real.pi / 2 : ℝ) * I),
          Real.cos (b / 2) * Complex.exp ((φ + (a + c) / 2 : ℝ) * I)] := by
  -- the factor `-i` in a rotation about the first axis is a quarter turn of
  -- phase
  have hquarter : Complex.exp ((-(Real.pi / 2) : ℝ) * I) = -I := by
    rw [neg_div']
    push_cast
    exact Complex.exp_neg_pi_div_two_mul_I
  rw [Direction.turn_z, Direction.turn_z, Direction.turn_x,
    show φ - (a + c) / 2 = φ + -(c / 2) + -(a / 2) by ring,
    show φ + (a - c) / 2 - Real.pi / 2 =
      φ + -(c / 2) + a / 2 + -(Real.pi / 2) by ring,
    show φ - (a - c) / 2 - Real.pi / 2 =
      φ + c / 2 + -(a / 2) + -(Real.pi / 2) by ring,
    show φ + (a + c) / 2 = φ + c / 2 + a / 2 by ring]
  simp only [exp_add_mul_I, hquarter]
  -- now only the half-angle factors matter, and the rest is algebra
  generalize Real.cos (b / 2) = u, Real.sin (b / 2) = v
  generalize Complex.exp ((c / 2 : ℝ) * I) = p,
    Complex.exp ((-(c / 2) : ℝ) * I) = p',
    Complex.exp ((a / 2 : ℝ) * I) = q, Complex.exp ((-(a / 2) : ℝ) * I) = q'
  ext i j
  fin_cases i <;> fin_cases j <;> simp <;> ring

theorem euler_product_eq_polar (β A B D : ℝ) :
    Complex.exp ((D / 2 : ℝ) * I) •
      (Direction.z.turn (D - A - B - Real.pi / 2) *
        (Direction.x.turn (2 * β) * Direction.z.turn (B - A + Real.pi / 2)))
      = polarUnitary (Real.cos β) (Real.sin β) A B D := by
  have hhalf : Complex.exp ((-Real.pi : ℝ) * I) = -1 := by
    rw [Complex.ofReal_neg, neg_mul]
    exact Complex.exp_neg_pi_mul_I
  -- the phases of the four entries, with these angles put in
  rw [smul_turn_mul_turn_mul_turn, polarUnitary,
    mul_div_cancel_left₀ _ two_ne_zero,
    show D / 2 - (B - A + Real.pi / 2 + (D - A - B - Real.pi / 2)) / 2 =
      A by ring,
    show D / 2 + (B - A + Real.pi / 2 - (D - A - B - Real.pi / 2)) /
      2 - Real.pi / 2 = B by ring,
    show D / 2 - (B - A + Real.pi / 2 - (D - A - B - Real.pi / 2)) /
      2 - Real.pi / 2
      = D + -B + -Real.pi by ring,
    show D / 2 + (B - A + Real.pi / 2 + (D - A - B - Real.pi / 2)) / 2 =
      D + -A by ring]
  simp only [exp_add_mul_I, hhalf]
  ext i j
  fin_cases i <;> fin_cases j <;> simp <;> ring

/-- **Euler angles**: up to a phase, a unitary operator on one qubit is three
rotations. -/
theorem exists_euler_angles {U : Matrix (Fin (2 ^ 1)) (Fin (2 ^ 1)) ℂ}
    (h : U ∈ Matrix.unitaryGroup (Fin (2 ^ 1)) ℂ) :
    ∃ φ a b c : ℝ, U = Complex.exp (φ * I) •
      (Direction.z.turn c * (Direction.x.turn b * Direction.z.turn a)) := by
  obtain ⟨β, A, B, D, rfl⟩ := exists_eq_polarUnitary h
  exact ⟨_, _, _, _, (euler_product_eq_polar β A B D).symm⟩

/-! ### Angles in one turn -/

theorem toIcoMod_mem_turn (θ : ℝ) :
    toIcoMod Real.two_pi_pos 0 θ ∈ Set.Ico 0 (2 * Real.pi) := by
  simpa using toIcoMod_mem_Ico Real.two_pi_pos 0 θ

theorem Direction.turn_eq_smul_toIcoMod (d : Direction) (θ : ℝ) :
    d.turn θ = ((-1) ^ toIcoDiv Real.two_pi_pos 0 θ : ℂ) •
      d.turn (toIcoMod Real.two_pi_pos 0 θ) := by
  conv_lhs =>
    rw [← toIcoMod_add_toIcoDiv_zsmul Real.two_pi_pos 0 θ, zsmul_eq_mul,
      ← turn_mul_turn, turn_int_mul_two_pi, Matrix.mul_smul, mul_one]

/-- The operator of a run of rotations, the first one acting first; `k` have
gone before. -/
noncomputable def runTurns (k : ℕ) :
    List ℝ → Matrix (Fin (2 ^ 1)) (Fin (2 ^ 1)) ℂ
  | [] => 1
  | θ :: rest => runTurns (k + 1) rest * (runAxis k).direction.turn θ

/-- Every gate on one qubit is a run of three rotations, up to a phase. -/
theorem exists_eq_smul_runTurns {U : Matrix (Fin (2 ^ 1)) (Fin (2 ^ 1)) ℂ}
    (h : U ∈ Matrix.unitaryGroup (Fin (2 ^ 1)) ℂ) :
    ∃ (φ : ℝ) (x : List ℝ), x.length = 3 ∧
      U = Complex.exp (φ * I) • runTurns 0 x := by
  obtain ⟨φ, a, b, c, hU⟩ := exists_euler_angles h
  refine ⟨φ, [a, b, c], rfl, ?_⟩
  rw [hU, runTurns, runTurns, runTurns, runTurns, one_mul, mul_assoc]
  rfl

theorem complex_runMatrixFrom (k : ℕ) {m : Mat (Amplitude ℝ)}
    (hm : m.OnQubits 1) (x : List ℝ) :
    (runMatrixFrom k m x).complex 1 = runTurns k x * m.complex 1 := by
  induction x generalizing k m with
  | nil => exact (one_mul _).symm
  | cons θ x ih =>
    have hrot := (Direction.isUnitary_rotation (runAxis k).direction θ).onQubits
    refine (ih (k + 1) (hrot.mul hm)).trans ?_
    rw [hrot.complex_mul hm, Direction.complex_rotation, runTurns, mul_assoc]

theorem complex_runMatrix (x : List ℝ) :
    (runMatrix x).complex 1 = runTurns 0 x := by
  rw [runMatrix, complex_runMatrixFrom 0 (Mat.onQubits_identity 1),
    Mat.complex_identity, mul_one]

/-- Reducing the angles of a run changes its sign as often as whole turns are
taken off. -/
theorem runTurns_eq_smul_toIcoMod (k : ℕ) (x : List ℝ) :
    runTurns k x = ((-1) ^ (x.map (toIcoDiv Real.two_pi_pos 0)).sum : ℂ) •
      runTurns k (x.map (toIcoMod Real.two_pi_pos 0)) := by
  induction x generalizing k with
  | nil => simp [runTurns]
  | cons θ x ih =>
    rw [runTurns, ih, Direction.turn_eq_smul_toIcoMod, Matrix.smul_mul,
      Matrix.mul_smul, smul_smul, List.map_cons, List.sum_cons,
      zpow_add₀ (neg_ne_zero.mpr one_ne_zero), mul_comm, List.map_cons,
      runTurns]

theorem exp_toIcoMod_mul_I (φ : ℝ) :
    Complex.exp (toIcoMod Real.two_pi_pos 0 φ * I) = Complex.exp (φ * I) := by
  -- whole turns are nothing to an exponential
  have hwhole :
      Complex.exp ((toIcoDiv Real.two_pi_pos 0 φ * (2 * Real.pi) : ℝ) * I)
        = 1 := by
    rw [← Complex.exp_int_mul_two_pi_mul_I (toIcoDiv Real.two_pi_pos 0 φ)]
    push_cast
    ring_nf
  conv_rhs =>
    rw [← toIcoMod_add_toIcoDiv_zsmul Real.two_pi_pos 0 φ, zsmul_eq_mul,
      exp_add_mul_I, hwhole, mul_one]

/-- A sign is half a turn of the phase. -/
theorem neg_one_zpow_eq_exp (k : ℤ) :
    ((-1) ^ k : ℂ) = Complex.exp ((k * Real.pi : ℝ) * I) := by
  rw [← Complex.exp_pi_mul_I, ← Complex.exp_int_mul]
  push_cast
  ring_nf

/-- **One turn is enough**: the phase takes up the signs that the other angles
lose. -/
theorem exists_phase_in_turn {E : Type} [AddCommGroup E] [Module ℂ E] (φ : ℝ)
    {k : ℤ} {A B : E} (h : A = ((-1) ^ k : ℂ) • B) :
    ∃ ψ ∈ Set.Ico 0 (2 * Real.pi),
      Complex.exp (φ * I) • A = Complex.exp (ψ * I) • B := by
  refine ⟨_, toIcoMod_mem_turn (φ + k * Real.pi), ?_⟩
  rw [exp_toIcoMod_mul_I, exp_add_mul_I, ← neg_one_zpow_eq_exp,
    ← smul_smul, ← h]

/-! ### Fits without a residual -/

/-- A template of depth three, with angles in one turn, is the matrix, so that
the objective for it comes down to zero there. -/
def Mat.HasExactFit (M : Mat (Amplitude ℝ)) : Prop :=
  ∃ x : List ℝ, x.length = 4 ∧ (∀ θ ∈ x, 0 ≤ θ ∧ θ < tau) ∧
    templateUnitary .oneQubit 3 x = .ok M ∧
    ∃ o : Objective ℝ, Objective.ofTarget M 3 = .ok o ∧ o.evaluate x = .ok 0

/-- A template that is the target leaves no residual. -/
theorem Objective.evaluate_eq_zero {M : Mat (Amplitude ℝ)} {depth : ℕ}
    {o : Objective ℝ} {x : List ℝ} (ho : ofTarget M depth = .ok o)
    (hx : templateUnitary o.shape o.depth x = .ok M) :
    o.evaluate x = .ok 0 := by
  have hM : M.OnQubits o.shape.qubitCount :=
    Shape.ofMat_eq_ok_iff.mp (ofTarget_eq_ok ho).1
  -- a matrix misses nothing of itself, whichever entries count
  have hmisfit : misfit M M o.shape.qubitCount = 0 := by
    ext p
    rw [misfit_apply, sub_self, ite_self]
    rfl
  have hresidual : o.residual M = 0 := by
    rw [residual_eq ho hM, hmisfit, norm_zero, zero_pow two_ne_zero]
  rw [evaluate, hx]
  exact congrArg Except.ok hresidual

theorem Mat.IsUnitary.hasExactFit {M : Mat (Amplitude ℝ)} (h : M.IsUnitary 1) :
    M.HasExactFit := by
  obtain ⟨φ, y, hlength, hrun⟩ := exists_eq_smul_runTurns h.mem_unitary
  -- all angles are brought into one turn; the phase takes up the signs
  obtain ⟨ψ, hψ, hturn⟩ :=
    exists_phase_in_turn φ (runTurns_eq_smul_toIcoMod 0 y)
  let x := y.map (toIcoMod Real.two_pi_pos 0)
  have hcount : (ψ :: x).length = 4 := by
    rw [List.length_cons, List.length_map, hlength]
  have hx : ∀ θ ∈ ψ :: x, 0 ≤ θ ∧ θ < tau := by
    rw [List.forall_mem_cons, List.forall_mem_map]
    exact ⟨hψ, fun θ _ => toIcoMod_mem_turn θ⟩
  have htemplate : templateUnitary .oneQubit 3 (ψ :: x) = .ok M := by
    refine templateUnitary_eq_ok_iff.mpr ⟨⟨by decide, by decide, hcount⟩, ?_⟩
    have hqubit := (isUnitary_runMatrix x).onQubits
    refine (hqubit.map _).eq_of_complex_eq h.onQubits
      ((hqubit.complex_map_mul _).trans ?_)
    rw [Amplitude.toComplex_cis, complex_runMatrix, hrun, hturn]
    rfl
  have hshape : Shape.ofMat M = .ok .oneQubit :=
    Shape.ofMat_eq_ok_iff.mpr h.onQubits
  obtain ⟨o, ho, hone, hdepth⟩ :=
    Objective.exists_ofTarget hshape (by decide) (le_refl 3)
  refine ⟨ψ :: x, hcount, hx, htemplate, o, ho,
    Objective.evaluate_eq_zero ho ?_⟩
  rwa [hone, hdepth]

/-- **Every gate on one qubit can be found.**  Any unitary matrix with two rows
and two columns is the template of depth three for some angles in one turn, and
its objective is zero there.  In particular this holds for the rotations and for
the fixed gates on one qubit. -/
theorem hasExactFit_of_unitary :
    (∀ M : Mat (Amplitude ℝ), M.rows = 2 ∧ M.cols = 2 →
      M.adjoint.mul M = Mat.identity 1 →
      M.HasExactFit) ∧
    (∀ (d : Direction) (θ : ℝ), (d.rotation θ : Mat (Amplitude ℝ)).HasExactFit) ∧
    ∀ g : FixedGate, g.arity = 1 →
      (g.matrix : Mat (Amplitude ℝ)).HasExactFit := by
  refine ⟨fun M hshape hM => ?_, fun d θ => ?_, fun g hg => ?_⟩
  · have hqubit : M.OnQubits 1 := hshape
    refine Mat.IsUnitary.hasExactFit
      ⟨hqubit, Matrix.mem_unitaryGroup_iff'.mpr ?_⟩
    rw [← hqubit.complex_adjoint, ← hqubit.adjoint.complex_mul hqubit, hM,
      Mat.complex_identity]
  · exact (Direction.isUnitary_rotation d θ).hasExactFit
  · exact (hg ▸ FixedGate.isUnitary_matrix g : g.matrix.IsUnitary 1).hasExactFit

/-- A gate that the library has no name for, and one that it has. -/
theorem hasExactFit_of_unitary_quarter_phase :
    ∃ M : Mat (Amplitude ℝ), M = .square 1 0 0 .i ∧
      M.adjoint.mul M = Mat.identity 1 ∧
      M.HasExactFit ∧ (FixedGate.h.matrix : Mat (Amplitude ℝ)).HasExactFit := by
  have hunitary : (Mat.square 1 0 0 .i : Mat (Amplitude ℝ)).IsUnitary 1 := by
    have hphase : Amplitude.toComplex .i = I := rfl
    refine ⟨⟨rfl, rfl⟩, Matrix.mem_unitaryGroup_iff'.mpr ?_⟩
    rw [Mat.complex_square, map_one, map_zero, hphase]
    ext i j
    fin_cases i <;> fin_cases j <;>
      simp [Matrix.mul_apply, Fin.sum_univ_two, Matrix.star_eq_conjTranspose]
  have hadjoint := hunitary.adjoint_mul_self
  exact ⟨_, rfl, hadjoint, hasExactFit_of_unitary.1 _ ⟨rfl, rfl⟩ hadjoint,
    hasExactFit_of_unitary.2.2 .h rfl⟩

end Gimbal
