/-
Gimbal/Proofs/UnitaryCircuit.lean

Circuits over exact numbers as complex operators.  Every entry is unitary on a
register that has its qubits, a phase flip with coinciding qubits included, and
so is every circuit; in particular none of them enlarges a vector.

`CloseUpTo G δ A B` says that `A` is within `δ` of a multiple of `B` by an
element of `G`.  For factors of modulus one it composes: distances add up along
chains and along products,

    CloseUpTo G δ A A' and CloseUpTo G ε B B'    give    CloseUpTo G (δ + ε) (A * B) (A' * B'),

as long as `A` and `B'` do not enlarge.
-/
import Mathlib
import Gimbal.Proofs.CircuitOperator
import Gimbal.Proofs.Turn

namespace Gimbal

open scoped Matrix.Norms.L2Operator

variable {n : ℕ}

instance : LawfulRotations ℝ (Amplitude ℝ) where
  onQubits_rotation axis θ := by
    cases axis <;> exact Mat.onQubits_square _ _ _ _
  diagonal_rotation θ := by
    show ∃ d, (Mat.square (.cis (-θ / 2.0)) 0 0 (.cis (θ / 2.0)) :
      Mat (Amplitude ℝ)).toMatrix 1 = _
    refine ⟨![.cis (-θ / 2.0), .cis (θ / 2.0)], ?_⟩
    rw [Mat.toMatrix_square]
    refine Matrix.ext fun i j => ?_
    fin_cases i <;> fin_cases j <;> rfl

theorem Mat.complex_controlledZ :
    (Mat.controlledZ : Mat (Amplitude ℝ)).complex 2
      = Matrix.diagonal fun i => if i.val = 3 then -1 else 1 := by
  rw [complex, toMatrix_controlledZ, Matrix.diagonal_map (map_zero _)]
  congr 1
  funext i
  show Amplitude.toComplex (if i.val = 3 then -1 else 1) = _
  rw [apply_ite Amplitude.toComplex, map_neg, map_one]

/-- An operator that changes the signs of some basis states is unitary. -/
theorem diagonal_sign_mem_unitary (p : Fin (2 ^ n) → Prop) [DecidablePred p] :
    Matrix.diagonal (fun x => if p x then (-1 : ℂ) else 1) ∈
      Matrix.unitaryGroup (Fin (2 ^ n)) ℂ := by
  refine mem_unitary_of_involution ?_ ?_
  · -- signs are real, so the matrix is its own adjoint
    rw [Matrix.diagonal_conjTranspose]
    congr 1
    funext x
    show star (if p x then (-1 : ℂ) else 1) = _
    split <;> simp
  · -- and each sign squares to one
    rw [Matrix.diagonal_mul_diagonal, ← Matrix.diagonal_one]
    congr 1
    funext x
    split <;> simp

/-! ### Entries -/

namespace Entry

/-- The complex operator of an entry. -/
noncomputable def complex (n : ℕ) (e : Entry ℝ) :
    Matrix (Fin (2 ^ n)) (Fin (2 ^ n)) ℂ :=
  (e.operator n).map Amplitude.toComplex

theorem complex_eq_place {e : Entry ℝ} (h : e.Fits n) :
    e.complex n =
      place (wires e.qubits h) (e.matrix.complex e.qubits.length) := by
  rw [complex, operator_eq_place e h, place_map _ _ _ (map_zero _)]
  rfl

/-- A rotation is a turn on its qubit. -/
theorem complex_rotation (axis : Axis) (θ : ℝ) {q : ℕ} (hq : q < n) :
    (rotation axis θ q).complex n =
      place (fun _ : Fin 1 => ⟨q, hq⟩) (axis.direction.turn θ) := by
  have hfits : (rotation axis θ q).Fits n := (fits_rotation_iff axis θ).mpr hq
  rw [complex_eq_place hfits, ← Direction.complex_rotation]
  refine congrArg (fun w : Fin 1 → Fin n => place w _)
    (funext fun i => Fin.ext ?_)
  match i with
  | ⟨0, _⟩ => rfl

theorem complex_mem_unitary {e : Entry ℝ} (h : e.Fits n) :
    e.complex n ∈ Matrix.unitaryGroup (Fin (2 ^ n)) ℂ := by
  cases e with
  | rotation axis θ q =>
    rw [complex_rotation axis θ ((fits_rotation_iff axis θ).mp h)]
    exact Unitary.map_mem (placeHom _ (Function.injective_of_subsingleton _))
      (axis.direction.turn_mem_unitary θ)
  | cz c t =>
    -- the qubits may coincide, so the placement need not be a homomorphism
    have hdiag : (cz c t : Entry ℝ).complex n
        = Matrix.diagonal fun x =>
          if (select (wires [c, t] h) x).val = 3 then -1 else 1 :=
      (complex_eq_place h).trans
        ((congrArg (place _) Mat.complex_controlledZ).trans
          (place_diagonal _ _))
    rw [hdiag]
    exact diagonal_sign_mem_unitary _

end Entry

/-! ### Circuits -/

namespace Circuit

/-- The complex operator of a circuit. -/
noncomputable def complex (n : ℕ) (c : Circuit ℝ) :
    Matrix (Fin (2 ^ n)) (Fin (2 ^ n)) ℂ :=
  (operator n c).map Amplitude.toComplex

@[simp] theorem complex_nil (n : ℕ) : complex n [] = 1 :=
  Matrix.map_one _ (map_zero _) (map_one _)

@[simp] theorem complex_cons (n : ℕ) (e : Entry ℝ) (c : Circuit ℝ) :
    complex n (e :: c) = complex n c * e.complex n :=
  Matrix.map_mul

theorem complex_append (n : ℕ) (c d : Circuit ℝ) :
    complex n (c ++ d) = complex n d * complex n c := by
  rw [complex, operator_append]
  exact Matrix.map_mul

theorem complex_mem_unitary {c : Circuit ℝ} (h : Fits n c) :
    complex n c ∈ Matrix.unitaryGroup (Fin (2 ^ n)) ℂ := by
  induction c with
  | nil =>
    rw [complex_nil]
    exact one_mem _
  | cons e c ih =>
    rw [complex_cons]
    exact mul_mem (ih h.tail) (Entry.complex_mem_unitary h.head)

theorem norm_complex_le_one {c : Circuit ℝ} (h : Fits n c) :
    ‖complex n c‖ ≤ 1 :=
  (CStarRing.norm_of_mem_unitary (complex_mem_unitary h)).le

/-- The unitary of a circuit, read as a complex operator. -/
theorem complex_of_unitary {c : Circuit ℝ} {U : Mat (Amplitude ℝ)}
    (h : c.unitary n = some U) :
    U.complex n = complex n c := by
  rw [Mat.complex, (unitary_eq_some_iff.mp h).2.2, complex]

/-- Where one circuit has a unitary, a circuit that fits has one too. -/
theorem Fits.exists_complex {c : Circuit ℝ} (h : Fits n c) :
    ∃ U : Mat (Amplitude ℝ), c.unitary n = some U ∧
      U.complex n = complex n c := by
  obtain ⟨U, hU, -⟩ := h.exists_unitary (K := Amplitude ℝ)
  exact ⟨U, hU, complex_of_unitary hU⟩

end Circuit

/-! ### Closeness up to a factor -/

/-- The two signs. -/
def signs : Submonoid ℂ where
  carrier := {s | s = 1 ∨ s = -1}
  one_mem' := Or.inl rfl
  mul_mem' := by
    rintro s t (rfl | rfl) (rfl | rfl) <;> simp

theorem signs_le_unitary : signs ≤ unitary ℂ := by
  rintro s (rfl | rfl) <;> simp [Unitary.mem_iff]

/-- The factors of modulus one. -/
theorem mem_unitary_iff_norm_eq_one {s : ℂ} : s ∈ unitary ℂ ↔ ‖s‖ = 1 := by
  constructor
  · exact CStarRing.norm_of_mem_unitary
  · intro h
    rw [Unitary.mem_iff, mul_comm s, and_self, Complex.star_def,
      Complex.conj_mul', h]
    norm_num

/-- `A` is within `δ` of a multiple of `B` by an element of `G`. -/
def CloseUpTo (G : Submonoid ℂ) (δ : ℝ)
    (A B : Matrix (Fin (2 ^ n)) (Fin (2 ^ n)) ℂ) : Prop :=
  ∃ s ∈ G, ‖A - s • B‖ ≤ δ

namespace CloseUpTo

variable {G : Submonoid ℂ} {δ ε : ℝ}
  {A A' B B' C : Matrix (Fin (2 ^ n)) (Fin (2 ^ n)) ℂ}

theorem refl (G : Submonoid ℂ) (A : Matrix (Fin (2 ^ n)) (Fin (2 ^ n)) ℂ) :
    CloseUpTo G 0 A A :=
  ⟨1, one_mem G, by rw [one_smul, sub_self, norm_zero]⟩

theorem mono (h : CloseUpTo G δ A B) (hle : δ ≤ ε) : CloseUpTo G ε A B := by
  obtain ⟨s, hs, hnorm⟩ := h
  exact ⟨s, hs, hnorm.trans hle⟩

theorem trans (hG : G ≤ unitary ℂ) (h : CloseUpTo G δ A B)
    (h' : CloseUpTo G ε B C) :
    CloseUpTo G (δ + ε) A C := by
  obtain ⟨s, hs, hAB⟩ := h
  obtain ⟨t, ht, hBC⟩ := h'
  have hone : ‖s‖ = 1 := CStarRing.norm_of_mem_unitary (hG hs)
  refine ⟨s * t, mul_mem hs ht, ?_⟩
  calc ‖A - (s * t) • C‖ = ‖(A - s • B) + s • (B - t • C)‖ := by
        rw [smul_sub, smul_smul, sub_add_sub_cancel]
    _ ≤ ‖A - s • B‖ + ‖s • (B - t • C)‖ := norm_add_le _ _
    _ = ‖A - s • B‖ + ‖B - t • C‖ := by rw [norm_smul, hone, one_mul]
    _ ≤ δ + ε := add_le_add hAB hBC

/-- Placing on distinct qubits keeps operators close. -/
theorem place {k : ℕ} {q : Fin k → Fin n} (hq : Function.Injective q)
    {S T : Matrix (Fin (2 ^ k)) (Fin (2 ^ k)) ℂ} (h : CloseUpTo G δ S T) :
    CloseUpTo G δ (Gimbal.place q S) (Gimbal.place q T) := by
  obtain ⟨s, hs, hST⟩ := h
  refine ⟨s, hs, ?_⟩
  rw [← place_smul, ← place_sub]
  exact (norm_place_le hq _).trans hST

/-- Closeness of products; the factors that stay must not enlarge. -/
theorem mul (hG : G ≤ unitary ℂ) (hA : ‖A‖ ≤ 1) (hB' : ‖B'‖ ≤ 1)
    (h : CloseUpTo G δ A A') (h' : CloseUpTo G ε B B') :
    CloseUpTo G (δ + ε) (A * B) (A' * B') := by
  obtain ⟨s, hs, hAA'⟩ := h
  obtain ⟨t, ht, hBB'⟩ := h'
  have hone : ‖t‖ = 1 := CStarRing.norm_of_mem_unitary (hG ht)
  have hδ : 0 ≤ δ := (norm_nonneg _).trans hAA'
  refine ⟨s * t, mul_mem hs ht, ?_⟩
  -- exchange one factor after the other
  have hsplit :
      A * B - (s * t) • (A' * B') =
        A * (B - t • B') + t • ((A - s • A') * B') := by
    rw [mul_sub, sub_mul, smul_sub, Matrix.mul_smul, Matrix.smul_mul, smul_smul,
      mul_comm s t]
    abel
  rw [hsplit]
  calc ‖A * (B - t • B') + t • ((A - s • A') * B')‖
      ≤ ‖A * (B - t • B')‖ + ‖t • ((A - s • A') * B')‖ := norm_add_le _ _
    _ = ‖A * (B - t • B')‖ + ‖(A - s • A') * B'‖ := by
      rw [norm_smul, hone, one_mul]
    _ ≤ ‖A‖ * ‖B - t • B'‖ + ‖A - s • A'‖ * ‖B'‖ :=
      add_le_add (norm_mul_le _ _) (norm_mul_le _ _)
    _ ≤ 1 * ε + δ * 1 := by gcongr
    _ = δ + ε := by ring

end CloseUpTo

end Gimbal
