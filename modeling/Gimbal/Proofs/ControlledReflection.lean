/-
Gimbal/Proofs/ControlledReflection.lean

Which operators on two qubits a template can be.  An operator that leaves the
first qubit alone is made of two branches, the gate `V` on the second qubit
where the first one is clear and the gate `W` where it is set (`branches V W`).
A run on the second qubit has equal branches, and a phase flip has the branches
`1` and `Z`, so with the runs `B` before the flip and `A` behind it a template
is

    exp (i * φ) * branches (A * B) (A * Z * B)            (`smul_templateTurns_twoQubit`).

From one branch to the other leads `W * V† = A * Z * A†`, a reflection: it is
unitary, its own adjoint, and has trace zero.  Conversely a reflection has the
eigenvalues `1` and `-1`, so it is `A * Z * A†` for a unitary `A`; this fixes
`B = A† * V`, and both are runs of three rotations up to a phase.  So the
templates of depth three are the pairs of branches that differ by a reflection
(`templateUnitary_iff_isControlledReflection`).
-/
import Mathlib
import Gimbal.Proofs.SearchBox

namespace Gimbal

open Complex (I)
open scoped Matrix

/-! ### Operators in two branches -/

/-- A basis state of two qubits is one of the second qubit, with the first one
clear or set. -/
def halves : Fin (2 ^ 1) ⊕ Fin (2 ^ 1) ≃ Fin (2 ^ 2) := finSumFinEquiv

theorem val_halves_inl (k : Fin (2 ^ 1)) : (halves (.inl k)).val = k.val := rfl

theorem val_halves_inr (k : Fin (2 ^ 1)) :
    (halves (.inr k)).val = 2 + k.val := rfl

/-- The operator that is `V` on the second qubit where the first one is clear,
and `W` where it is set. -/
def branches (V W : Matrix (Fin (2 ^ 1)) (Fin (2 ^ 1)) ℂ) :
    Matrix (Fin (2 ^ 2)) (Fin (2 ^ 2)) ℂ :=
  (Matrix.fromBlocks V 0 0 W).submatrix halves.symm halves.symm

theorem branches_apply (V W : Matrix (Fin (2 ^ 1)) (Fin (2 ^ 1)) ℂ)
    (p q : Fin (2 ^ 1) ⊕ Fin (2 ^ 1)) :
    branches V W (halves p) (halves q) = Matrix.fromBlocks V 0 0 W p q := by
  rw [branches, Matrix.submatrix_apply, Equiv.symm_apply_apply,
    Equiv.symm_apply_apply]

/-- Operators on two qubits are compared half by half. -/
theorem ext_halves {S T : Matrix (Fin (2 ^ 2)) (Fin (2 ^ 2)) ℂ}
    (h : ∀ p q, S (halves p) (halves q) = T (halves p) (halves q)) : S = T := by
  ext i j
  rw [← halves.apply_symm_apply i, ← halves.apply_symm_apply j]
  exact h _ _

theorem branches_mul (V W V' W' : Matrix (Fin (2 ^ 1)) (Fin (2 ^ 1)) ℂ) :
    branches V W * branches V' W' = branches (V * V') (W * W') := by
  rw [branches, branches, Matrix.submatrix_mul_equiv,
    Matrix.fromBlocks_multiply]
  simp only [mul_zero, zero_mul, add_zero, zero_add]
  rfl

theorem smul_branches (c : ℂ) (V W : Matrix (Fin (2 ^ 1)) (Fin (2 ^ 1)) ℂ) :
    c • branches V W = branches (c • V) (c • W) := by
  apply ext_halves
  intro p q
  rw [Matrix.smul_apply, branches_apply, branches_apply]
  rcases p with k | k <;> rcases q with l | l <;> simp

/-- A gate on the second qubit does the same in both branches. -/
theorem place_targetQubit (A : Matrix (Fin (2 ^ 1)) (Fin (2 ^ 1)) ℂ) :
    place targetQubit A = branches A A := by
  have hsame : ∀ k l, AgreeOff targetQubit (halves (.inl k)) (halves (.inl l)) ∧
      AgreeOff targetQubit (halves (.inr k)) (halves (.inr l)) := by decide
  have hother :
      ∀ k l, ¬ AgreeOff targetQubit (halves (.inl k)) (halves (.inr l)) ∧
      ¬ AgreeOff targetQubit (halves (.inr k)) (halves (.inl l)) := by decide
  have hselect : ∀ k, select targetQubit (halves (.inl k)) = k ∧
      select targetQubit (halves (.inr k)) = k := by decide
  apply ext_halves
  intro p q
  rw [place_apply, branches_apply]
  -- the four blocks, of which the two off the diagonal are zero
  rcases p with k | k <;> rcases q with l | l
  · rw [if_pos (hsame k l).1, (hselect k).1, (hselect l).1]
    rfl
  · exact if_neg (hother k l).1
  · exact if_neg (hother k l).2
  · rw [if_pos (hsame k l).2, (hselect k).2, (hselect l).2]
    rfl

/-- A phase flip does nothing in the first branch and reflects in the second. -/
theorem complex_controlledZ_eq_branches :
    (Mat.controlledZ : Mat (Amplitude ℝ)).complex 2 =
    branches 1 Direction.z.reflection := by
  have hlast : ∀ p, (halves p).val = 3 ↔ p = .inr 1 := by decide
  rw [Mat.complex_controlledZ]
  apply ext_halves
  intro p q
  rw [branches_apply]
  simp only [Matrix.diagonal_apply, halves.injective.eq_iff, hlast]
  rcases p with k | k <;> rcases q with l | l <;> fin_cases k <;>
    fin_cases l <;>
    simp [Direction.reflection]

/-- A phase flip between two gates on the second qubit. -/
theorem place_mul_controlledZ_mul_place
    (A B : Matrix (Fin (2 ^ 1)) (Fin (2 ^ 1)) ℂ) :
    place targetQubit A * Mat.controlledZ.complex 2 * place targetQubit B
      = branches (A * B) (A * Direction.z.reflection * B) := by
  rw [place_targetQubit, place_targetQubit, complex_controlledZ_eq_branches,
    branches_mul, branches_mul, mul_one]

/-- The operator of a template of two qubits, with its phase. -/
theorem smul_templateTurns_twoQubit (c : ℂ) (depth : ℕ) (x : List ℝ) :
    c • templateTurns .twoQubit depth x
      = branches (c • runTurns 0 (x.drop depth) * runTurns 0 (x.take depth))
        (c • runTurns 0 (x.drop depth) * Direction.z.reflection *
          runTurns 0 (x.take depth)) := by
  have hproduct := congrArg (c • ·)
    (place_mul_controlledZ_mul_place (runTurns 0 (x.drop depth))
    (runTurns 0 (x.take depth)))
  refine (hproduct.trans (smul_branches c _ _)).trans ?_
  rw [Matrix.smul_mul, Matrix.smul_mul, Matrix.smul_mul]

/-! ### Branches that differ by a reflection -/

/-- Two gates, of which the second is a reflection behind the first. -/
structure DifferByReflection (V W : Matrix (Fin (2 ^ 1)) (Fin (2 ^ 1)) ℂ) :
    Prop where
  left_mem : V ∈ Matrix.unitaryGroup (Fin (2 ^ 1)) ℂ
  right_mem : W ∈ Matrix.unitaryGroup (Fin (2 ^ 1)) ℂ
  isHermitian : (W * Vᴴ).IsHermitian
  trace_eq_zero : (W * Vᴴ).trace = 0

/-- A gate that is its own adjoint, by its eigenvalues. -/
theorem exists_eq_conj_diagonal {H : Matrix (Fin 2) (Fin 2) ℂ}
    (hself : H.IsHermitian) :
    ∃ U ∈ Matrix.unitaryGroup (Fin 2) ℂ,
      ∃ a b : ℝ, H = U * !![(a : ℂ), 0; 0, (b : ℂ)] * Uᴴ := by
  refine ⟨hself.eigenvectorUnitary, hself.eigenvectorUnitary.2,
    hself.eigenvalues 0, hself.eigenvalues 1, hself.spectral_theorem.trans ?_⟩
  rw [Unitary.conjStarAlgAut_apply]
  congr 2
  ext i j
  fin_cases i <;> fin_cases j <;> simp

/-- A reflection has a basis in which it is the flip of the third axis. -/
theorem exists_eq_conj_reflection {H : Matrix (Fin 2) (Fin 2) ℂ}
    (hmem : H ∈ Matrix.unitaryGroup (Fin 2) ℂ) (hself : H.IsHermitian)
    (htrace : H.trace = 0) :
    ∃ A ∈ Matrix.unitaryGroup (Fin 2) ℂ,
      H = A * Direction.z.reflection * Aᴴ := by
  obtain ⟨U, hU, a, b, rfl⟩ := exists_eq_conj_diagonal hself
  have hinv : Uᴴ * U = 1 := Unitary.star_mul_self_of_mem hU
  have hsum : a + b = 0 := by
    rw [Matrix.trace_mul_comm, ← mul_assoc, hinv, one_mul,
      Matrix.trace_fin_two_of] at htrace
    exact_mod_cast htrace
  have hsquare : a * a = 1 := by
    -- seen from the basis of eigenvectors the reflection is still unitary
    have hdiagonal :
        !![(a : ℂ), 0; 0, (b : ℂ)] ∈ Matrix.unitaryGroup (Fin 2) ℂ := by
      have hback := mul_mem (mul_mem (Unitary.star_mem hU) hmem) hU
      rw [Matrix.star_eq_conjTranspose] at hback
      simpa only [mul_assoc, hinv, mul_one, ← mul_assoc Uᴴ U, one_mul]
        using hback
    have hrow := (rows_of_mem_unitary hdiagonal).2.1
    simpa [sq] using hrow
  obtain rfl : b = -a := by linarith
  -- one eigenvalue is one and the other minus one
  rcases mul_self_eq_one_iff.mp hsquare with rfl | rfl
  · refine ⟨U, hU, ?_⟩
    simp [Direction.reflection]
  · -- the eigenvalues stand in the other order: exchange the basis vectors
    refine ⟨U * Direction.x.reflection,
      mul_mem hU Direction.x.reflection_mem_unitary, ?_⟩
    have hexchange : !![((-1 : ℝ) : ℂ), 0; 0, ((- -1 : ℝ) : ℂ)]
        = Direction.x.reflection * Direction.z.reflection *
          Direction.x.reflection := by
      ext i j
      fin_cases i <;> fin_cases j <;> simp [Direction.reflection]
    rw [hexchange, Matrix.conjTranspose_mul, Direction.conjTranspose_reflection]
    simp only [mul_assoc]

theorem differByReflection_iff {V W : Matrix (Fin (2 ^ 1)) (Fin (2 ^ 1)) ℂ} :
    DifferByReflection V W ↔ ∃ A ∈ Matrix.unitaryGroup (Fin (2 ^ 1)) ℂ,
      ∃ B ∈ Matrix.unitaryGroup (Fin (2 ^ 1)) ℂ, V = A * B ∧
        W = A * Direction.z.reflection * B := by
  constructor
  · intro h
    have hinv : Vᴴ * V = 1 := Unitary.star_mul_self_of_mem h.left_mem
    have hmem : W * Vᴴ ∈ Matrix.unitaryGroup (Fin (2 ^ 1)) ℂ :=
      mul_mem h.right_mem (Unitary.star_mem h.left_mem)
    -- the quotient is conjugate to the reflection, and the rest of `V` goes to
    -- the right
    obtain ⟨A, hA, hreflect⟩ :=
      exists_eq_conj_reflection hmem h.isHermitian h.trace_eq_zero
    refine ⟨A, hA, Aᴴ * V, mul_mem (Unitary.star_mem hA) h.left_mem, ?_, ?_⟩
    · rw [← mul_assoc, show A * Aᴴ = 1 from Unitary.mul_star_self_of_mem hA,
        one_mul]
    · rw [← mul_assoc, ← hreflect, mul_assoc, hinv, mul_one]
  · rintro ⟨A, hA, B, hB, rfl, rfl⟩
    have hflip := Direction.z.reflection_mem_unitary
    -- the quotient is the conjugate of the reflection by `A`
    have hreflect :
        A * Direction.z.reflection * B * (A * B)ᴴ =
          A * Direction.z.reflection * Aᴴ := by
      have hinv : B * Bᴴ = 1 := Unitary.mul_star_self_of_mem hB
      rw [Matrix.conjTranspose_mul, mul_assoc _ B, ← mul_assoc B, hinv, one_mul]
    refine ⟨mul_mem hA hB, mul_mem (mul_mem hA hflip) hB, ?_, ?_⟩
    · rw [hreflect]
      exact Matrix.isHermitian_mul_mul_conjTranspose A
        Direction.z.conjTranspose_reflection
    · have hinv : Aᴴ * A = 1 := Unitary.star_mul_self_of_mem hA
      rw [hreflect, Matrix.trace_mul_comm, ← mul_assoc, hinv, one_mul]
      exact (Matrix.trace_fin_two_of _ _ _ _).trans (add_neg_cancel _)

/-! ### Stored matrices in blocks -/

namespace Mat

/-- The block of two rows and two columns at the given place among such
blocks. -/
def block {K : Type} [Zero K] (m : Mat K) (row col : ℕ) : Mat K :=
  ofFn 2 2 fun i j => m.entry (2 * row + i) (2 * col + j)

theorem complex_block (m : Mat (Amplitude ℝ)) (row col : ℕ)
    (i j : Fin (2 ^ 1)) :
    (m.block row col).complex 1 i j =
      Amplitude.toComplex (m.entry (2 * row + i) (2 * col + j)) :=
  congrArg Amplitude.toComplex (entry_ofFn _ i.isLt j.isLt)

theorem complex_halves (m : Mat (Amplitude ℝ))
    (p q : Fin (2 ^ 1) ⊕ Fin (2 ^ 1)) :
    m.complex 2 (halves p) (halves q) =
      Matrix.fromBlocks ((m.block 0 0).complex 1)
      ((m.block 0 1).complex 1) ((m.block 1 0).complex 1)
        ((m.block 1 1).complex 1) p q := by
  show Amplitude.toComplex (m.entry (halves p).val (halves q).val) = _
  rcases p with k | k <;> rcases q with l | l
  · rw [Matrix.fromBlocks_apply₁₁, complex_block, val_halves_inl,
      val_halves_inl]
    simp
  · rw [Matrix.fromBlocks_apply₁₂, complex_block, val_halves_inl,
      val_halves_inr]
    simp
  · rw [Matrix.fromBlocks_apply₂₁, complex_block, val_halves_inr,
      val_halves_inl]
    simp
  · rw [Matrix.fromBlocks_apply₂₂, complex_block, val_halves_inr,
      val_halves_inr]

/-- No entry outside the two blocks of the diagonal. -/
def IsBlockDiagonal {K : Type} [Zero K] (m : Mat K) : Prop :=
  ∀ i j, i / 2 ≠ j / 2 → m.entry i j = 0

theorem OnQubits.isBlockDiagonal_iff {m : Mat (Amplitude ℝ)}
    (h : m.OnQubits 2) :
    m.IsBlockDiagonal ↔ (m.block 0 1).complex 1 = 0 ∧
      (m.block 1 0).complex 1 = 0 := by
  constructor
  · intro hm
    constructor
    · ext i j
      rw [complex_block, hm _ _ (by omega), map_zero, Matrix.zero_apply]
    · ext i j
      rw [complex_block, hm _ _ (by omega), map_zero, Matrix.zero_apply]
  · rintro ⟨hright, hleft⟩ i j hij
    -- off the blocks an entry lies in one of the two corners, or outside the
    -- matrix
    have hout : i < 4 ∧ j < 4 ∨ m.rows ≤ i ∨ m.cols ≤ j := by
      rw [h.1, h.2]
      omega
    rcases hout with ⟨hi, hj⟩ | hout
    · apply Amplitude.toComplex_injective
      rw [map_zero]
      rcases lt_or_ge i 2 with hlow | hhigh
      · have hcell := congrFun₂ hright ⟨i, hlow⟩ ⟨j - 2, by omega⟩
        rwa [complex_block, Nat.mul_zero, Nat.zero_add, Nat.mul_one,
          Nat.add_sub_cancel' (by omega)]
          at hcell
      · have hcell := congrFun₂ hleft ⟨i - 2, by omega⟩ ⟨j, by omega⟩
        rwa [complex_block, Nat.mul_zero, Nat.zero_add, Nat.mul_one,
          Nat.add_sub_cancel' (by omega)]
          at hcell
    · exact m.entry_of_ge hout

/-- A matrix without entries outside the two blocks has these for its
branches. -/
theorem OnQubits.complex_eq_branches_iff {m : Mat (Amplitude ℝ)}
    (h : m.OnQubits 2) {V W : Matrix (Fin (2 ^ 1)) (Fin (2 ^ 1)) ℂ} :
    m.complex 2 = branches V W ↔
      m.IsBlockDiagonal ∧ (m.block 0 0).complex 1 = V ∧
        (m.block 1 1).complex 1 = W := by
  have hblocks : m.complex 2 = branches V W ↔
      Matrix.fromBlocks ((m.block 0 0).complex 1)
      ((m.block 0 1).complex 1) ((m.block 1 0).complex 1)
        ((m.block 1 1).complex 1)
        = Matrix.fromBlocks V 0 0 W := by
    constructor
    · intro hm
      ext p q
      rw [← complex_halves, hm, branches_apply]
    · intro hm
      apply ext_halves
      intro p q
      rw [complex_halves, hm, branches_apply]
  rw [hblocks, Matrix.fromBlocks_inj, h.isBlockDiagonal_iff]
  constructor
  · rintro ⟨hupper, hright, hleft, hlower⟩
    exact ⟨⟨hright, hleft⟩, hupper, hlower⟩
  · rintro ⟨⟨hright, hleft⟩, hupper, hlower⟩
    exact ⟨hupper, hright, hleft, hlower⟩

/-- A gate on two qubits that leaves the first one alone and reflects the second
one, behind any gate, where the first is set. -/
structure IsControlledReflection (m : Mat (Amplitude ℝ)) : Prop where
  rows_eq : m.rows = 4
  cols_eq : m.cols = 4
  isBlockDiagonal : m.IsBlockDiagonal
  differ :
    DifferByReflection ((m.block 0 0).complex 1) ((m.block 1 1).complex 1)

theorem isControlledReflection_iff {m : Mat (Amplitude ℝ)} :
    m.IsControlledReflection ↔ m.OnQubits 2 ∧
      ∃ V W, DifferByReflection V W ∧ m.complex 2 = branches V W := by
  constructor
  · intro h
    have hm : m.OnQubits 2 := ⟨h.rows_eq, h.cols_eq⟩
    exact ⟨hm, _, _, h.differ,
      hm.complex_eq_branches_iff.mpr ⟨h.isBlockDiagonal, rfl, rfl⟩⟩
  · rintro ⟨hm, V, W, hdiffer, hbranches⟩
    obtain ⟨hdiagonal, rfl, rfl⟩ := hm.complex_eq_branches_iff.mp hbranches
    exact ⟨hm.1, hm.2, hdiagonal, hdiffer⟩

end Mat

/-! ### Templates -/

theorem runTurns_mem_unitary (k : ℕ) (x : List ℝ) :
    runTurns k x ∈ Matrix.unitaryGroup (Fin (2 ^ 1)) ℂ := by
  induction x generalizing k with
  | nil => exact one_mem _
  | cons θ x ih => exact mul_mem (ih (k + 1)) (Direction.turn_mem_unitary _ θ)

/-- The branches of a template differ by a reflection. -/
theorem isControlledReflection_of_templateUnitary {depth : ℕ} {x : List ℝ}
    {M : Mat (Amplitude ℝ)} (h : templateUnitary .twoQubit depth x = .ok M) :
    M.IsControlledReflection := by
  have hne := (templateUnitary_eq_ok_iff.mp h).1.ne_nil
  obtain ⟨φ, x, rfl⟩ := List.exists_cons_of_ne_nil hne
  obtain ⟨-, hM, hop⟩ := templateUnitary_cons_eq_ok_iff.mp h
  refine Mat.isControlledReflection_iff.mpr
    ⟨hM, _, _, ?_, hop.trans (smul_templateTurns_twoQubit _ depth x)⟩
  -- the phase goes with the run that acts last
  have hafter :=
    Unitary.smul_mem_of_mem (exp_mem_unitary φ)
      (runTurns_mem_unitary 0 (x.drop depth))
  exact differByReflection_iff.mpr
    ⟨_, hafter, _, runTurns_mem_unitary 0 (x.take depth), rfl, rfl⟩

/-- Branches that differ by a reflection make a template of depth three. -/
theorem Mat.IsControlledReflection.exists_templateUnitary
    {M : Mat (Amplitude ℝ)} (h : M.IsControlledReflection) :
    ∃ x, templateUnitary .twoQubit 3 x = .ok M := by
  obtain ⟨hM, V, W, hdiffer, hop⟩ := isControlledReflection_iff.mp h
  obtain ⟨A, hA, B, hB, rfl, rfl⟩ := differByReflection_iff.mp hdiffer
  -- each factor is a phase times three turns
  obtain ⟨φ, after, hafter, rfl⟩ := exists_eq_smul_runTurns hA
  obtain ⟨ψ, before, hbefore, rfl⟩ := exists_eq_smul_runTurns hB
  refine ⟨(ψ + φ) :: (before ++ after), ?_⟩
  refine templateUnitary_cons_eq_ok_iff.mpr ⟨⟨by decide, le_rfl, ?_⟩, hM,
    hop.trans ?_⟩
  · rw [List.length_cons, List.length_append, hbefore, hafter]
    rfl
  · refine Eq.trans ?_ (smul_templateTurns_twoQubit _ 3 (before ++ after)).symm
    rw [List.take_left' hbefore, List.drop_left' hbefore, exp_add_mul_I]
    simp only [Matrix.smul_mul, Matrix.mul_smul, smul_smul]

/-- **The templates of two qubits are the controlled reflections.**  A matrix is
the template of depth three for some angles in one turn exactly if it has four
rows and four columns, is made of two blocks `V` and `W` on the diagonal that
are unitary, and `W * V†` is its own adjoint and has trace zero. -/
theorem templateUnitary_iff_isControlledReflection (M : Mat (Amplitude ℝ)) :
    (∃ x : List ℝ, x.length = 7 ∧ (∀ θ ∈ x, 0 ≤ θ ∧ θ ≤ tau) ∧
      templateUnitary .twoQubit 3 x = .ok M) ↔ M.IsControlledReflection := by
  constructor
  · rintro ⟨x, -, -, hx⟩
    exact isControlledReflection_of_templateUnitary hx
  · intro h
    obtain ⟨x, hx⟩ := h.exists_templateUnitary
    obtain ⟨x', hturn, hx'⟩ := exists_templateUnitary_in_turn hx le_rfl le_rfl
    have hlength : x'.length = 7 := (templateUnitary_eq_ok_iff.mp hx').1.2.2
    exact ⟨x', hlength, fun θ hθ => ⟨(hturn θ hθ).1, (hturn θ hθ).2.le⟩, hx'⟩

end Gimbal
