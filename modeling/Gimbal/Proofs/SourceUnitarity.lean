/-
Gimbal/Proofs/SourceUnitarity.lean

When the matrix of an input circuit is unitary.

On distinct qubits every known gate is.  The two qubits of a controlled gate may
also coincide, since a register is only asked to have them.  A phase flip then
changes the sign of the states in which its qubit is set, which is unitary all
the same.  A controlled flip sends these states nowhere: its row for each of
them is zero, and no circuit around it can make up for that.  So

    S is unitary    iff    no controlled flip of the circuit has its target for its control

(`sourceUnitary_isUnitary_iff`).
-/
import Mathlib
import Gimbal.Proofs.Acceptance
import Gimbal.Proofs.Unitarity

namespace Gimbal

variable {n : ℕ}

/-! ### Unitary stored matrices -/

/-- A stored matrix is unitary if its adjoint is its inverse. -/
theorem Mat.OnQubits.isUnitary_iff {m : Mat (Amplitude ℝ)} (h : m.OnQubits n) :
    m.IsUnitary n ↔ m.adjoint.mul m = identity n ∧
      m.mul m.adjoint = identity n := by
  constructor
  · intro hm
    exact ⟨hm.adjoint_mul_self, hm.mul_adjoint_self⟩
  · rintro ⟨hleft, hright⟩
    refine ⟨h, Unitary.mem_iff.mpr ⟨?_, ?_⟩⟩
    · rw [← h.complex_adjoint, ← h.adjoint.complex_mul h, hleft,
        complex_identity]
    · rw [← h.complex_adjoint, ← h.complex_mul h.adjoint, hright,
        complex_identity]

theorem det_ne_zero_of_mem_unitary {A : Matrix (Fin (2 ^ n)) (Fin (2 ^ n)) ℂ}
    (h : A ∈ Matrix.unitaryGroup (Fin (2 ^ n)) ℂ) : A.det ≠ 0 := by
  have hdet : ‖A.det‖ = 1 :=
    CStarRing.norm_of_mem_unitary (Matrix.det_of_mem_unitary h)
  exact norm_ne_zero_iff.mp (hdet ▸ one_ne_zero)

/-! ### Gates on coinciding qubits -/

namespace Occurrence

/-- A controlled flip whose control is its target. -/
def Collapses {R : Type} (o : Occurrence R) : Prop :=
  ∃ q, o = .ofControlled .cnot q q

/-- A phase flip of an input circuit is the one of an output circuit. -/
theorem complex_controlledZ {c t : ℕ} (h : ∀ q ∈ [c, t], q < n) :
    (ofControlled .cz c t : Occurrence ℝ).complex n =
    (Entry.cz c t : Entry ℝ).complex n :=
  (complex_eq_place (o := ofControlled .cz c t) rfl h).trans
    (Entry.complex_eq_place (e := .cz c t) h).symm

/-- A controlled flip that collapses has nothing in the row of a state in which
its qubit is set. -/
theorem complex_eq_zero_of_set {q : ℕ} (h : ∀ r ∈ [q, q], r < n)
    (x y : Fin (2 ^ n)) (hx : qubitOf x ⟨q, h q List.mem_cons_self⟩ = true) :
    (ofControlled .cnot q q : Occurrence ℝ).complex n x y = 0 := by
  -- both wires are the same qubit, so a selected pair is two zeros or two ones
  have hpair : ∀ z : Fin (2 ^ n), ∀ p : Fin 2,
      qubitOf (select (wires [q, q] h) z) p =
        qubitOf z ⟨q, h q List.mem_cons_self⟩ := by
    intro z p
    rw [qubitOf_select]
    congr 1
    fin_cases p <;> rfl
  -- two ones are exchanged with one and zero
  have hflip : ∀ i j : Fin (2 ^ 2), qubitOf i 0 = true → qubitOf i 1 = true →
      qubitOf j 0 = qubitOf j 1 →
        j ∉ (Equiv.swap (2 : Fin (2 ^ 2)) 3).toPEquiv i := by
    decide
  have hplace : (ofControlled .cnot q q : Occurrence ℝ).complex n
      = place (wires [q, q] h)
        ((Equiv.swap (2 : Fin (2 ^ 2)) 3).permMatrix ℂ) :=
    (complex_eq_place (o := ofControlled .cnot q q) rfl h).trans
      (congrArg (place _) Mat.complex_controlledX)
  rw [hplace, place_apply]
  split
  · -- the target of a row of ones is a row of a one and a zero, which no column
    -- selects
    rw [Equiv.Perm.permMatrix, PEquiv.toMatrix_apply, if_neg]
    exact hflip _ _ ((hpair x 0).trans hx) ((hpair x 1).trans hx)
      ((hpair y 0).trans (hpair y 1).symm)
  · rfl

theorem Collapses.det_complex {o : Occurrence ℝ} (h : o.Collapses)
    (hfits : o.Fits n) :
    (o.complex n).det = 0 := by
  obtain ⟨q, rfl⟩ := h
  let x : Fin (2 ^ n) := ofQubits fun _ => true
  refine Matrix.det_eq_zero_of_row_eq_zero x fun y => ?_
  exact complex_eq_zero_of_set hfits.2 x y (qubitOf_ofQubits _ _)

/-- The qubits of a known gate coincide only in the two controlled gates. -/
theorem eq_controlled_of_not_nodup {o : Occurrence ℝ} (h : o.Fits n)
    (hnd : ¬ o.qubits.Nodup) :
    ∃ q, o = .ofControlled .cnot q q ∨ o = .ofControlled .cz q q := by
  cases o with
  | single name q => exact absurd (List.nodup_singleton q) hnd
  | parametrized name θ q => exact absurd (List.nodup_singleton q) hnd
  | controlled name c t =>
    obtain rfl : c = t := by
      by_contra hne
      exact hnd (by simp [qubits, hne])
    obtain ⟨g, hname, harity⟩ := exists_matrix?_iff.mp h.1
    refine ⟨c, ?_⟩
    subst hname
    cases g with
    | cnot => exact Or.inl rfl
    | cz => exact Or.inr rfl
    | i | x | y | z | h => cases harity

/-- A known gate that does not collapse is unitary. -/
theorem complex_mem_unitary {o : Occurrence ℝ} (h : o.Fits n)
    (hc : ¬ o.Collapses) :
    o.complex n ∈ Matrix.unitaryGroup (Fin (2 ^ n)) ℂ := by
  by_cases hnd : o.qubits.Nodup
  · obtain ⟨⟨g, hg⟩, hq⟩ := h
    rw [complex_eq_place hg hq]
    exact Unitary.map_mem (placeHom _ (wires_injective hq hnd))
      (isUnitary_matrix? hg).mem_unitary
  · obtain ⟨q, rfl | rfl⟩ := eq_controlled_of_not_nodup h hnd
    · exact absurd ⟨q, rfl⟩ hc
    · rw [complex_controlledZ h.2]
      exact Entry.complex_mem_unitary h.2

end Occurrence

/-! ### Input circuits -/

theorem sourceComplex_mem_unitary {input : List (Occurrence ℝ)}
    (hfits : ∀ o ∈ input, o.Fits n) (h : ∀ o ∈ input, ¬ o.Collapses) :
    sourceComplex n input ∈ Matrix.unitaryGroup (Fin (2 ^ n)) ℂ := by
  induction input with
  | nil =>
    rw [sourceComplex_nil]
    exact one_mem _
  | cons o input ih =>
    obtain ⟨ho, hrest⟩ := List.forall_mem_cons.mp hfits
    obtain ⟨hco, hcrest⟩ := List.forall_mem_cons.mp h
    rw [sourceComplex_cons]
    exact mul_mem (ih hrest hcrest) (Occurrence.complex_mem_unitary ho hco)

/-- One gate that collapses makes the whole circuit singular. -/
theorem det_sourceComplex {input : List (Occurrence ℝ)}
    (hfits : ∀ o ∈ input, o.Fits n) {o : Occurrence ℝ} (ho : o ∈ input)
    (hc : o.Collapses) : (sourceComplex n input).det = 0 := by
  induction input with
  | nil => cases ho
  | cons first input ih =>
    obtain ⟨hfirst, hrest⟩ := List.forall_mem_cons.mp hfits
    rw [sourceComplex_cons, Matrix.det_mul]
    rcases List.mem_cons.mp ho with rfl | ho
    · rw [hc.det_complex hfirst, mul_zero]
    · rw [ih hrest ho, zero_mul]

theorem sourceComplex_mem_unitary_iff {input : List (Occurrence ℝ)}
    (hfits : ∀ o ∈ input, o.Fits n) :
    sourceComplex n input ∈ Matrix.unitaryGroup (Fin (2 ^ n)) ℂ ↔
      ∀ o ∈ input, ¬ o.Collapses := by
  constructor
  · intro h o ho hc
    exact det_ne_zero_of_mem_unitary h (det_sourceComplex hfits ho hc)
  · exact sourceComplex_mem_unitary hfits

theorem isUnitary_of_sourceUnitary_iff {input : List (Occurrence ℝ)}
    {S : Mat (Amplitude ℝ)} (h : sourceUnitary input n = some S) :
    S.IsUnitary n ↔ ∀ o ∈ input, ¬ o.Collapses := by
  obtain ⟨hfits, hshape, -⟩ := sourceUnitary_eq_some_iff.mp h
  rw [← sourceComplex_mem_unitary_iff hfits, ← complex_of_sourceUnitary h]
  exact ⟨fun hS => hS.mem_unitary, fun hS => ⟨hshape, hS⟩⟩

/-- **The matrix of an input circuit is unitary exactly if no controlled flip
collapses.**  It always has a row and a column for each basis state; its adjoint
is its inverse on both sides unless some controlled flip of the circuit has its
target for its control.  Names, angles and qubits are any, and the qubits of a
phase flip may coincide. -/
theorem sourceUnitary_isUnitary_iff (input : List (Occurrence ℝ)) (n : ℕ)
    (S : Mat (Amplitude ℝ)) (h : sourceUnitary input n = some S) :
    (S.rows = 2 ^ n ∧ S.cols = 2 ^ n) ∧
      ((S.adjoint.mul S = Mat.identity n ∧ S.mul S.adjoint = Mat.identity n) ↔
        ∀ q, .controlled "CNOT" q q ∉ input) := by
  obtain ⟨-, hshape, -⟩ := sourceUnitary_eq_some_iff.mp h
  refine ⟨hshape, ?_⟩
  rw [← hshape.isUnitary_iff, isUnitary_of_sourceUnitary_iff h]
  constructor
  · intro hnone q hq
    exact hnone _ hq ⟨q, rfl⟩
  · -- the only gate to fear is the flip controlled by its own target
    rintro hnone o ho ⟨q, rfl⟩
    exact hnone q ho

/-- A phase flip on one qubit, between gates on distinct ones. -/
theorem sourceUnitary_isUnitary_iff_phase_flip :
    ∃ S : Mat (Amplitude ℝ),
      sourceUnitary [.single "H" 2, .controlled "CZ" 1 1,
        .controlled "CNOT" 2 0,
        .parametrized "Ry" (0.5 : ℝ) 1] 3 = some S ∧
      S.adjoint.mul S = Mat.identity 3 ∧ S.mul S.adjoint = Mat.identity 3 := by
  have hex : ∃ S : Mat (Amplitude ℝ),
      sourceUnitary [.single "H" 2, .controlled "CZ" 1 1,
        .controlled "CNOT" 2 0, .parametrized "Ry" (0.5 : ℝ) 1] 3 = some S := by
    apply exists_sourceUnitary_iff.mpr
    simp only [List.forall_mem_cons]
    exact ⟨⟨⟨_, rfl⟩, by decide⟩, ⟨⟨_, rfl⟩, by decide⟩, ⟨⟨_, rfl⟩, by decide⟩,
      ⟨⟨_, rfl⟩, by decide⟩, List.forall_mem_nil _⟩
  obtain ⟨S, hS⟩ := hex
  exact ⟨S, hS, (sourceUnitary_isUnitary_iff _ 3 S hS).2.mpr (by simp)⟩

/-- A controlled flip of a qubit by itself: there is a matrix, and it is not
unitary. -/
theorem sourceUnitary_collapsed_flip :
    ∃ S : Mat (Amplitude ℝ), sourceUnitary [.controlled "CNOT" 0 0] 1 = some S ∧
      ¬ (S.adjoint.mul S = Mat.identity 1 ∧
        S.mul S.adjoint = Mat.identity 1) := by
  have hex : ∃ S : Mat (Amplitude ℝ),
      sourceUnitary [.controlled "CNOT" 0 0] 1 = some S := by
    apply exists_sourceUnitary_iff.mpr
    simp only [List.forall_mem_cons]
    exact ⟨⟨⟨_, rfl⟩, by decide⟩, List.forall_mem_nil _⟩
  obtain ⟨S, hS⟩ := hex
  obtain ⟨-, hshape, -⟩ := sourceUnitary_eq_some_iff.mp hS
  refine ⟨S, hS, ?_⟩
  rw [← hshape.isUnitary_iff, isUnitary_of_sourceUnitary_iff hS]
  intro hnone
  exact hnone _ List.mem_cons_self ⟨0, rfl⟩

end Gimbal
