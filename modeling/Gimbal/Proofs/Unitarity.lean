/-
Gimbal/Proofs/Unitarity.lean

The stored matrix of a circuit is unitary, as a statement about stored matrices:
with `adjoint` the exchange of rows and columns and the conjugation of every
entry,

    U.adjoint.mul U = identity n = U.mul U.adjoint        (`Circuit.unitary_adjoint_eq_inverse`).

Complex operators know this already.  Reading a stored matrix as one loses
nothing and turns products, the identity and the adjoint into those of linear
algebra, so the equations come back from there.
-/
import Mathlib
import Gimbal.Proofs.SourceOperator

namespace Gimbal

variable {n : ℕ}

/-! ### Conjugates and adjoints -/

namespace Amplitude

/-- The complex conjugate. -/
def conj {R : Type} [Scalar R] (a : Amplitude R) : Amplitude R := ⟨a.re, -a.im⟩

theorem toComplex_conj (a : Amplitude ℝ) :
    toComplex a.conj = star (toComplex a) := rfl

end Amplitude

namespace Mat

/-- Rows and columns exchanged, every entry conjugated. -/
def adjoint {R : Type} [Scalar R] (m : Mat (Amplitude R)) : Mat (Amplitude R) :=
  ofFn m.cols m.rows fun i j => (m.entry j i).conj

theorem OnQubits.adjoint {m : Mat (Amplitude ℝ)} (h : m.OnQubits n) :
    m.adjoint.OnQubits n :=
  ⟨h.2, h.1⟩

theorem OnQubits.complex_adjoint {m : Mat (Amplitude ℝ)} (h : m.OnQubits n) :
    m.adjoint.complex n = star (m.complex n) := by
  ext i j
  show Amplitude.toComplex (m.adjoint.entry i j) =
    star (Amplitude.toComplex (m.entry j i))
  rw [Mat.adjoint,
    entry_ofFn _ (i.isLt.trans_eq h.2.symm) (j.isLt.trans_eq h.1.symm),
    Amplitude.toComplex_conj]

theorem OnQubits.complex_mul {a b : Mat (Amplitude ℝ)} (ha : a.OnQubits n)
    (hb : b.OnQubits n) :
    (a.mul b).complex n = a.complex n * b.complex n := by
  rw [complex, ha.toMatrix_mul hb]
  exact Matrix.map_mul

theorem complex_identity (n : ℕ) :
    (identity n : Mat (Amplitude ℝ)).complex n = 1 := by
  rw [complex, toMatrix_identity]
  exact Matrix.map_one _ (map_zero _) (map_one _)

/-- A matrix on `n` qubits is determined by its complex operator. -/
theorem OnQubits.eq_of_complex_eq {a b : Mat (Amplitude ℝ)} (ha : a.OnQubits n)
    (hb : b.OnQubits n) (h : a.complex n = b.complex n) : a = b :=
  ha.eq_of_toMatrix_eq hb (Matrix.map_injective Amplitude.toComplex_injective h)

namespace IsUnitary

variable {m : Mat (Amplitude ℝ)}

theorem adjoint_mul_self (h : m.IsUnitary n) :
    m.adjoint.mul m = identity n := by
  apply (h.onQubits.adjoint.mul h.onQubits).eq_of_complex_eq
    (onQubits_identity n)
  rw [h.onQubits.adjoint.complex_mul h.onQubits, h.onQubits.complex_adjoint,
    complex_identity]
  exact Unitary.star_mul_self_of_mem h.mem_unitary

theorem mul_adjoint_self (h : m.IsUnitary n) :
    m.mul m.adjoint = identity n := by
  apply (h.onQubits.mul h.onQubits.adjoint).eq_of_complex_eq
    (onQubits_identity n)
  rw [h.onQubits.complex_mul h.onQubits.adjoint, h.onQubits.complex_adjoint,
    complex_identity]
  exact Unitary.mul_star_self_of_mem h.mem_unitary

end IsUnitary

end Mat

/-! ### Output circuits -/

namespace Circuit

theorem isUnitary_of_unitary {c : Circuit ℝ} {U : Mat (Amplitude ℝ)}
    (h : c.unitary n = some U) :
    U.IsUnitary n := by
  obtain ⟨hfits, hshape, -⟩ := unitary_eq_some_iff.mp h
  constructor
  · exact hshape
  · rw [complex_of_unitary h]
    exact complex_mem_unitary hfits

/-- **The unitary of a circuit is unitary**: it has a row and a column for each
basis state of the register, and its adjoint is its inverse on both sides.  The
angles are any real numbers, and the two qubits of a phase flip may coincide. -/
theorem unitary_adjoint_eq_inverse (c : Circuit ℝ) (n : ℕ)
    (U : Mat (Amplitude ℝ)) (h : c.unitary n = some U) :
    (U.rows = 2 ^ n ∧ U.cols = 2 ^ n) ∧
      U.adjoint.mul U = Mat.identity n ∧ U.mul U.adjoint = Mat.identity n := by
  have hunitary := isUnitary_of_unitary h
  exact ⟨hunitary.onQubits, hunitary.adjoint_mul_self,
    hunitary.mul_adjoint_self⟩

/-- A flip whose qubits coincide between rotations, and one whose control is
behind its target. -/
theorem unitary_adjoint_eq_inverse_degenerate :
    ∃ U : Mat (Amplitude ℝ),
      Circuit.unitary [.rx (0.5 : ℝ) 1, .cz 1 1, .rz (-7) 1, .cz 2 0] 3 =
        some U ∧
      (U.rows = 8 ∧ U.cols = 8) ∧
      U.adjoint.mul U = Mat.identity 3 ∧ U.mul U.adjoint = Mat.identity 3 := by
  have hfits : Fits 3 [.rx (0.5 : ℝ) 1, .cz 1 1, .rz (-7) 1, .cz 2 0] := by
    simp [Fits, Entry.Fits, Entry.qubits, Entry.rz, Entry.rx]
  obtain ⟨U, hU, -⟩ := hfits.exists_complex
  exact ⟨U, hU, unitary_adjoint_eq_inverse _ 3 U hU⟩

end Circuit

end Gimbal
