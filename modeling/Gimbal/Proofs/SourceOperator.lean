/-
Gimbal/Proofs/SourceOperator.lean

The operator of an input circuit over exact numbers.  A gate that the library
knows is placed on its qubits, and an input circuit is the product of its gates,
the first one acting first; `sourceUnitary` computes it, and is there exactly
where every gate is known and every qubit lies in the register
(`sourceUnitary_eq_some_iff`).

The fixed gates are their own adjoints and their own inverses and rotations are
turns, so a known gate is unitary.  On distinct qubits its operator does not
enlarge a vector (`norm_complex_le_one`); where the control of a flip is its
target the embedded matrix is no longer unitary.
-/
import Mathlib
import Gimbal.Proofs.Definedness
import Gimbal.Proofs.UnitaryCircuit
import Gimbal.Occurrence

namespace Gimbal

open scoped Matrix.Norms.L2Operator

variable {n : ℕ}

/-! ### Known gates are unitary -/

/-- The matrix of a unitary operator on `n` qubits. -/
structure Mat.IsUnitary (m : Mat (Amplitude ℝ)) (n : ℕ) : Prop where
  onQubits : m.OnQubits n
  mem_unitary : m.complex n ∈ Matrix.unitaryGroup (Fin (2 ^ n)) ℂ

/-- The controlled flip exchanges the two basis states in which the control is
set. -/
theorem Mat.complex_controlledX :
    (Mat.controlledX : Mat (Amplitude ℝ)).complex 2
      = (Equiv.swap (2 : Fin (2 ^ 2)) 3).permMatrix ℂ := by
  have hstored : (Mat.controlledX : Mat (Amplitude ℝ)).toMatrix 2
      = Matrix.of fun i j =>
        if j.val = [0, 1, 3, 2].getD i.val 0 then 1 else 0 :=
    toMatrix_ofFn 2 _
  -- the table of columns is the exchange of the last two
  have hswap : ∀ i j : Fin (2 ^ 2),
      j.val = [0, 1, 3, 2].getD i.val 0 ↔
        j ∈ (Equiv.swap (2 : Fin (2 ^ 2)) 3).toPEquiv i := by
    decide
  rw [complex, hstored]
  ext i j
  show Amplitude.toComplex (if _ then 1 else 0) = _
  rw [apply_ite Amplitude.toComplex, map_one, map_zero]
  exact (if_congr (hswap i j) rfl rfl).trans (PEquiv.toMatrix_apply _ i j).symm

namespace FixedGate

theorem complex_h :
    (h.matrix : Mat (Amplitude ℝ)).complex 1 =
    ((1 / √2 : ℝ) : ℂ) • !![1, 1; 1, -1] := by
  show (Mat.square (.ofReal (1 / √2)) (.ofReal (1 / √2)) (.ofReal (1 / √2))
    (-.ofReal (1 / √2)) : Mat (Amplitude ℝ)).complex 1 = _
  rw [Mat.complex_square]
  generalize (1 / √2 : ℝ) = f
  ext i j
  fin_cases i <;> fin_cases j <;>
    simp [Amplitude.toComplex_apply, Amplitude.ofReal, Complex.ext_iff]

/-- The flips of one qubit are the reflections of the three directions. -/
theorem complex_flip :
    (x.matrix : Mat (Amplitude ℝ)).complex 1 = Direction.x.reflection ∧
      (y.matrix : Mat (Amplitude ℝ)).complex 1 = Direction.y.reflection ∧
      (z.matrix : Mat (Amplitude ℝ)).complex 1 = Direction.z.reflection := by
  refine ⟨(Mat.complex_square _ _ _ _).trans ?_,
    (Mat.complex_square _ _ _ _).trans ?_,
    (Mat.complex_square _ _ _ _).trans ?_⟩ <;>
  · ext i j
    fin_cases i <;> fin_cases j <;>
      simp [Direction.reflection, Amplitude.toComplex_apply, Amplitude.i,
        Complex.ext_iff]

theorem complex_mem_unitary (g : FixedGate) :
    g.matrix.complex g.arity ∈ Matrix.unitaryGroup (Fin (2 ^ g.arity)) ℂ := by
  obtain ⟨hx, hy, hz⟩ := complex_flip
  cases g with
  | i =>
    have hone : (i.matrix : Mat (Amplitude ℝ)).complex 1 = 1 :=
      (congrArg (Matrix.map · Amplitude.toComplex)
        (Mat.toMatrix_identity 1)).trans
        (Matrix.map_one _ (map_zero _) (map_one _))
    exact hone ▸ one_mem _
  | x => exact hx ▸ Direction.x.reflection_mem_unitary
  | y => exact hy ▸ Direction.y.reflection_mem_unitary
  | z => exact hz ▸ Direction.z.reflection_mem_unitary
  | h =>
    show (h.matrix : Mat (Amplitude ℝ)).complex 1 ∈
      Matrix.unitaryGroup (Fin (2 ^ 1)) ℂ
    -- the factor in front squares to a half, the matrix behind it to twice the
    -- identity
    have hhalf : (1 / √2 : ℝ) * (1 / √2) = 1 / 2 := by
      rw [div_mul_div_comm, Real.mul_self_sqrt zero_le_two, one_mul]
    rw [complex_h]
    refine mem_unitary_of_involution ?_ ?_
    · rw [Matrix.conjTranspose_smul, Complex.star_def, Complex.conj_ofReal]
      congr 1
      ext i j
      fin_cases i <;> fin_cases j <;> simp [Matrix.conjTranspose_apply]
    · rw [Matrix.smul_mul, Matrix.mul_smul, smul_smul,
        ← Complex.ofReal_mul, hhalf]
      ext i j
      fin_cases i <;> fin_cases j <;> simp <;> norm_num
  | cnot =>
    show (Mat.controlledX : Mat (Amplitude ℝ)).complex 2 ∈
      Matrix.unitaryGroup (Fin (2 ^ 2)) ℂ
    rw [Mat.complex_controlledX]
    refine mem_unitary_of_involution ?_ ?_
    · -- an exchange is its own inverse
      rw [Matrix.conjTranspose_permMatrix, Equiv.swap_inv]
    · rw [← Matrix.permMatrix_mul, Equiv.swap_mul_self, Matrix.permMatrix_one]
  | cz =>
    show (Mat.controlledZ : Mat (Amplitude ℝ)).complex 2 ∈
      Matrix.unitaryGroup (Fin (2 ^ 2)) ℂ
    rw [Mat.complex_controlledZ]
    exact diagonal_sign_mem_unitary _

theorem isUnitary_matrix (g : FixedGate) : g.matrix.IsUnitary g.arity :=
  ⟨by cases g <;> exact ⟨rfl, rfl⟩, g.complex_mem_unitary⟩

end FixedGate

theorem Direction.isUnitary_rotation (d : Direction) (θ : ℝ) :
    (d.rotation θ).IsUnitary 1 :=
  ⟨by cases d <;> exact Mat.onQubits_square _ _ _ _, d.complex_rotation θ ▸ d.turn_mem_unitary θ⟩

/-! ### Occurrences -/

namespace Occurrence

/-- A known gate is unitary on as many qubits as the occurrence has. -/
theorem isUnitary_matrix? {o : Occurrence ℝ} {g : Mat (Amplitude ℝ)}
    (h : o.matrix? = some g) :
    g.IsUnitary o.qubits.length := by
  cases o with
  | single name q =>
    obtain ⟨f, hf, rfl⟩ := Option.map_eq_some_iff.mp h
    have harity : f.arity = 1 := eq_of_beq (Option.filter_eq_some_iff.mp hf).2
    show f.matrix.IsUnitary 1
    exact harity ▸ f.isUnitary_matrix
  | controlled name c t =>
    obtain ⟨f, hf, rfl⟩ := Option.map_eq_some_iff.mp h
    have harity : f.arity = 2 := eq_of_beq (Option.filter_eq_some_iff.mp hf).2
    show f.matrix.IsUnitary 2
    exact harity ▸ f.isUnitary_matrix
  | parametrized name θ q =>
    obtain ⟨d, -, rfl⟩ := Option.map_eq_some_iff.mp h
    exact d.isUnitary_rotation θ

/-- The gate is known and the register has every qubit. -/
def Fits (n : ℕ) (o : Occurrence ℝ) : Prop := (∃ g, o.matrix? = some g) ∧
      ∀ q ∈ o.qubits, q < n

/-- The operator of an occurrence on a register. -/
noncomputable def operator (n : ℕ) (o : Occurrence ℝ) :
    Matrix (Fin (2 ^ n)) (Fin (2 ^ n)) (Amplitude ℝ) :=
  ((o.matrix?.bind fun g => g.embed n o.qubits).getD (.identity n)).toMatrix n

theorem operator_eq_place {o : Occurrence ℝ} {g : Mat (Amplitude ℝ)}
    (hg : o.matrix? = some g) (h : ∀ q ∈ o.qubits, q < n) :
    o.operator n = place (wires o.qubits h) (g.toMatrix o.qubits.length) := by
  obtain ⟨m, hm, -, hplace⟩ :=
    Mat.embed_eq_some (isUnitary_matrix? hg).onQubits h
  rw [operator, hg, Option.bind_some, hm, ← hplace]
  rfl

/-- What one step of `sourceUnitary` multiplies with. -/
theorem embed_eq_some_iff (o : Occurrence ℝ) (m : Mat (Amplitude ℝ)) :
    (o.matrix?.bind fun g => g.embed n o.qubits) = some m ↔
      o.Fits n ∧ m.OnQubits n ∧ m.toMatrix n = o.operator n := by
  rw [Option.bind_eq_some_iff]
  constructor
  · rintro ⟨g, hg, hm⟩
    obtain ⟨h, hshape, hplace⟩ :=
      (Mat.embed_eq_some_iff (isUnitary_matrix? hg).onQubits).mp hm
    exact ⟨⟨⟨g, hg⟩, h⟩, hshape, hplace.trans (operator_eq_place hg h).symm⟩
  · rintro ⟨⟨⟨g, hg⟩, h⟩, hshape, hmat⟩
    refine ⟨g, hg,
      (Mat.embed_eq_some_iff (isUnitary_matrix? hg).onQubits).mpr
        ⟨h, hshape, ?_⟩⟩
    exact hmat.trans (operator_eq_place hg h)

/-- The complex operator of an occurrence. -/
noncomputable def complex (n : ℕ) (o : Occurrence ℝ) :
    Matrix (Fin (2 ^ n)) (Fin (2 ^ n)) ℂ :=
  (o.operator n).map Amplitude.toComplex

theorem complex_eq_place {o : Occurrence ℝ} {g : Mat (Amplitude ℝ)}
    (hg : o.matrix? = some g) (h : ∀ q ∈ o.qubits, q < n) :
    o.complex n = place (wires o.qubits h) (g.complex o.qubits.length) := by
  rw [complex, operator_eq_place hg h, place_map _ _ _ (map_zero _)]
  rfl

/-- On distinct qubits a known gate does not enlarge. -/
theorem norm_complex_le_one {o : Occurrence ℝ} (h : o.Fits n)
    (hnd : o.qubits.Nodup) :
    ‖o.complex n‖ ≤ 1 := by
  obtain ⟨⟨g, hg⟩, hq⟩ := h
  rw [complex_eq_place hg hq]
  refine (norm_place_le (wires_injective hq hnd) _).trans ?_
  exact (CStarRing.norm_of_mem_unitary (isUnitary_matrix? hg).mem_unitary).le

end Occurrence

/-! ### Input circuits -/

/-- The complex operator of an input circuit; the first gate acts first. -/
noncomputable def sourceComplex (n : ℕ) (input : List (Occurrence ℝ)) :
    Matrix (Fin (2 ^ n)) (Fin (2 ^ n)) ℂ :=
  (Mat.product (Occurrence.operator n) input).map Amplitude.toComplex

@[simp] theorem sourceComplex_nil (n : ℕ) : sourceComplex n [] = 1 :=
  Matrix.map_one _ (map_zero _) (map_one _)

@[simp] theorem sourceComplex_cons (n : ℕ) (o : Occurrence ℝ)
    (input : List (Occurrence ℝ)) :
    sourceComplex n (o :: input) = sourceComplex n input * o.complex n :=
  Matrix.map_mul

/-- **The unitary of an input circuit** exists where every gate is known and the
register has every qubit, and is the matrix of the product of the gates. -/
theorem sourceUnitary_eq_some_iff {input : List (Occurrence ℝ)}
    {S : Mat (Amplitude ℝ)} :
    sourceUnitary input n = some S ↔
      (∀ o ∈ input, o.Fits n) ∧ S.OnQubits n ∧
        S.toMatrix n = Mat.product (Occurrence.operator n) input := by
  rw [sourceUnitary_eq_foldlM,
    Mat.foldlM_mul_eq_some_iff Occurrence.embed_eq_some_iff
      (Mat.onQubits_identity n),
    Mat.toMatrix_identity, mul_one]

theorem complex_of_sourceUnitary {input : List (Occurrence ℝ)}
    {S : Mat (Amplitude ℝ)} (h : sourceUnitary input n = some S) :
    S.complex n = sourceComplex n input := by
  rw [Mat.complex, (sourceUnitary_eq_some_iff.mp h).2.2, sourceComplex]

end Gimbal
