/-
Gimbal/Proofs/Definedness.lean

Where unitaries exist.  Whether a circuit has a unitary on a register depends on
its qubits, and for an input circuit on its names, but not on the numbers:
nothing here asks for a law of arithmetic, so it holds of rounded numbers as
well.

    c.unitary n exists            iff   every qubit of c is below n          (`Circuit.exists_unitary_iff`)
    sourceUnitary input n exists  iff   every gate of the input is known, too

A loop that multiplies embedded gates succeeds where every embedding does, and
the embedding of a gate of the right shape where the register has its qubits.
-/
import Mathlib
import Gimbal.Proofs.EmbeddingDomain
import Gimbal.Proofs.CircuitOperator
import Gimbal.Occurrence

namespace Gimbal

variable {K R : Type} {n : ℕ}

/-! ### Loops of embedded gates -/

namespace Mat

/-- A loop that multiplies gates succeeds where every gate is there. -/
theorem exists_foldlM_mul_iff {α : Type} [Zero K] [MulAdd K]
    {gate : α → Option (Mat K)} {as : List α} {u : Mat K} :
    (∃ U, as.foldlM (fun u a => (gate a).map fun g => g.mul u) u = some U) ↔
      ∀ a ∈ as, ∃ m, gate a = some m := by
  induction as generalizing u with
  | nil => simp
  | cons a as ih =>
    rw [List.foldlM_cons, List.forall_mem_cons]
    rcases hm : gate a with - | m
    · simp
    · -- the rest of the loop starts from another matrix, which makes no
      -- difference
      show (∃ U, as.foldlM _ (m.mul u) = some U) ↔ _
      rw [ih]
      simp

/-- A gate of the right shape has an embedding where the register has its
qubits. -/
theorem exists_embed_iff [Zero K] {g : Mat K} {qs : List ℕ}
    (hg : g.OnQubits qs.length) :
    (∃ m, g.embed n qs = some m) ↔ ∀ q ∈ qs, q < n := by
  rw [exists_embed_iff_embeds]
  exact ⟨Embeds.qubits_lt, fun h => ⟨h, hg.1.ge, hg.2.ge⟩⟩

end Mat

variable [Scalar R]

/-! ### Output circuits -/

theorem Entry.onQubits_amplitudes (e : Entry R) :
    (e.matrix : Mat (Amplitude R)).OnQubits e.qubits.length := by
  cases e with
  | rotation axis angle q => cases axis <;> exact Mat.onQubits_square _ _ _ _
  | cz c t => exact Mat.onQubits_controlledZ

/-- A circuit has a unitary on the registers that have its qubits, whatever the
numbers are. -/
theorem Circuit.exists_unitary_iff {c : Circuit R} :
    (∃ U : Mat (Amplitude R), c.unitary n = some U) ↔ Fits n c := by
  rw [Circuit.unitary, Mat.exists_foldlM_mul_iff]
  constructor
  · intro h e he
    exact (Mat.exists_embed_iff e.onQubits_amplitudes).mp (h e he)
  · intro h e he
    exact (Mat.exists_embed_iff e.onQubits_amplitudes).mpr (h e he)

/-! ### Input circuits -/

/-- A known gate has the shape of its occurrence. -/
theorem Occurrence.onQubits_matrix? {o : Occurrence R} {g : Mat (Amplitude R)}
    (h : o.matrix? = some g) : g.OnQubits o.qubits.length := by
  have hfixed : ∀ f : FixedGate,
      (f.matrix : Mat (Amplitude R)).OnQubits f.arity := by
    intro f
    cases f <;> exact ⟨rfl, rfl⟩
  cases o with
  | single name q =>
    obtain ⟨f, hf, rfl⟩ := Option.map_eq_some_iff.mp h
    have harity : f.arity = 1 := eq_of_beq (Option.filter_eq_some_iff.mp hf).2
    show f.matrix.OnQubits 1
    exact harity ▸ hfixed f
  | controlled name c t =>
    obtain ⟨f, hf, rfl⟩ := Option.map_eq_some_iff.mp h
    have harity : f.arity = 2 := eq_of_beq (Option.filter_eq_some_iff.mp hf).2
    show f.matrix.OnQubits 2
    exact harity ▸ hfixed f
  | parametrized name angle q =>
    -- both tables of rotations answer with a matrix on one qubit
    obtain ⟨d, -, rfl⟩ := Option.map_eq_some_iff.mp h
    cases d <;> exact Mat.onQubits_square _ _ _ _

/-- The unitary of an input circuit as a loop over embedded gates. -/
theorem sourceUnitary_eq_foldlM (input : List (Occurrence R)) (n : ℕ) :
    sourceUnitary input n = input.foldlM (fun u o =>
      (o.matrix?.bind fun g => g.embed n o.qubits).map fun g =>
        g.mul u) (Mat.identity n) := by
  rw [sourceUnitary]
  congr 1
  funext u o
  cases o.matrix? with
  | none => rfl
  | some g => cases hg : g.embed n o.qubits <;> simp [hg]

/-- An input circuit has a unitary where every gate is known and the register
has its qubits. -/
theorem exists_sourceUnitary_iff {input : List (Occurrence R)} :
    (∃ S, sourceUnitary input n = some S) ↔
      ∀ o ∈ input, (∃ g, o.matrix? = some g) ∧ ∀ q ∈ o.qubits, q < n := by
  rw [sourceUnitary_eq_foldlM, Mat.exists_foldlM_mul_iff]
  refine forall₂_congr fun o _ => ?_
  constructor
  · rintro ⟨m, hm⟩
    obtain ⟨g, hg, hembed⟩ := Option.bind_eq_some_iff.mp hm
    exact ⟨⟨g, hg⟩,
      (Mat.exists_embed_iff (Occurrence.onQubits_matrix? hg)).mp ⟨m, hembed⟩⟩
  · rintro ⟨⟨g, hg⟩, hq⟩
    obtain ⟨m, hm⟩ :=
      (Mat.exists_embed_iff (Occurrence.onQubits_matrix? hg)).mpr hq
    exact ⟨m, Option.bind_eq_some_iff.mpr ⟨g, hg, hm⟩⟩

end Gimbal
