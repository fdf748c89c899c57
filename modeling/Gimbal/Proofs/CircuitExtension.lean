/-
Gimbal/Proofs/CircuitExtension.lean

One circuit after another, and a circuit on a larger register.

A register holds a circuit if it has at least as many qubits as the circuit is
wide, and on those registers, and no others, the circuit has a unitary.  There

    unitary (c ++ d) n = unitary d n * unitary c n,
    unitary c (n + m)  = unitary c n ⊗ identity m:

what acts first stands last, and qubits that are added come behind the others,
where they are the least significant bits of an index.  The first law needs no
induction once both sides are operators of their circuits.  For the second, the
qubits of the small register are the first block of the large one, so that the
circuit there is the same circuit, placed.
-/
import Mathlib
import Gimbal.Proofs.CircuitOperator
import Gimbal.Proofs.KroneckerBlocks

namespace Gimbal

variable {A K : Type} {m n : ℕ}

/-! ### Width -/

theorem foldl_max_le_iff (qs : List ℕ) (w n : ℕ) :
    qs.foldl (fun w q => max w (q + 1)) w ≤ n ↔ w ≤ n ∧ ∀ q ∈ qs, q < n := by
  induction qs generalizing w with
  | nil => simp
  | cons q qs ih =>
    rw [List.foldl_cons, ih, Nat.max_le, List.forall_mem_cons, and_assoc]
    rfl

theorem width_le_iff {qs : List ℕ} : width qs ≤ n ↔ ∀ q ∈ qs, q < n := by
  rw [width, foldl_max_le_iff]
  simp

namespace Circuit

/-- The registers that hold a circuit are those of at least its width. -/
theorem width_le_iff_fits {c : Circuit A} : c.width ≤ n ↔ Fits n c := by
  rw [width, width_le_iff, qubits]
  simp only [List.mem_flatMap, Fits, Entry.Fits]
  constructor
  · intro h e he q hq
    exact h q ⟨e, he, hq⟩
  · rintro h q ⟨e, he, hq⟩
    exact h e he q hq

/-! ### Unitaries -/

variable [CommRing K] [Rotations A K] [LawfulRotations A K]

/-- On a register with more qubits behind its own, a circuit leaves those
alone. -/
theorem operator_add {c : Circuit A} (h : Fits n c) (m : ℕ) :
    Fits (n + m) c ∧
      (operator (n + m) c : Matrix _ _ K) =
      place (Fin.castAdd m) (operator n c) := by
  have hid : c.map (Entry.rename id) = c := by
    refine List.map_id'' (fun e => ?_) c
    cases e <;> rfl
  obtain ⟨hfits, hop⟩ :=
    operator_rename (K := K) (Fin.castAdd_injective n m) (p := id)
      (fun _ => rfl) h
  rw [hid] at hfits hop
  exact ⟨hfits, hop⟩

variable [MulAdd K] [LawfulMulAdd K]

theorem exists_unitary_iff_width_le {c : Circuit A} :
    (∃ U : Mat K, c.unitary n = some U) ↔ c.width ≤ n := by
  rw [width_le_iff_fits]
  constructor
  · rintro ⟨U, hU⟩
    exact (unitary_eq_some_iff.mp hU).1
  · intro h
    obtain ⟨U, hU, -⟩ := h.exists_unitary (K := K)
    exact ⟨U, hU⟩

theorem unitary_append {c d : Circuit A} {U V : Mat K}
    (hc : c.unitary n = some U) (hd : d.unitary n = some V) :
    unitary (c ++ d) n = some (V.mul U) := by
  obtain ⟨hcfits, hU, hcop⟩ := unitary_eq_some_iff.mp hc
  obtain ⟨hdfits, hV, hdop⟩ := unitary_eq_some_iff.mp hd
  refine unitary_eq_some_iff.mpr ⟨hcfits.append hdfits, hV.mul hU, ?_⟩
  rw [hV.toMatrix_mul hU, hcop, hdop, operator_append]

theorem unitary_add {c : Circuit A} {U : Mat K} (h : c.unitary n = some U)
    (m : ℕ) :
    c.unitary (n + m) = some (U.kron (Mat.identity m)) := by
  obtain ⟨hfits, hU, hop⟩ := unitary_eq_some_iff.mp h
  obtain ⟨hfits', hop'⟩ := operator_add (K := K) hfits m
  refine unitary_eq_some_iff.mpr ⟨hfits', hU.kron (Mat.onQubits_identity m), ?_⟩
  rw [hU.toMatrix_kron_identity, hop, hop']

/-- **Unitaries compose and extend.**  A circuit has a unitary on exactly the
registers of at least its width.  Where two circuits have one, the circuit that
runs the first and then the second has the product, the second on the left.  And
`m` qubits behind those of a register that holds the circuit turn its unitary
into the Kronecker product with their identity.  The entries lie in any
commutative ring. -/
theorem unitary_composes_and_extends :
    (∀ (c : Circuit A) (n : ℕ), (∃ U : Mat K, c.unitary n = some U) ↔
      c.width ≤ n) ∧
    (∀ (c d : Circuit A) (n : ℕ) (U V : Mat K), c.unitary n = some U →
      d.unitary n = some V →
      unitary (c ++ d) n = some (V.mul U)) ∧
    ∀ (c : Circuit A) (n m : ℕ), c.width ≤ n →
      ∃ U : Mat K, c.unitary n = some U ∧
        c.unitary (n + m) = some (U.kron (Mat.identity m)) := by
  refine ⟨fun c n => exists_unitary_iff_width_le,
    fun c d n U V hc hd => unitary_append hc hd, ?_⟩
  intro c n m h
  obtain ⟨U, hU⟩ := (exists_unitary_iff_width_le (K := K)).mpr h
  exact ⟨U, hU, unitary_add hU m⟩

/-- A circuit of width two before one of width three, on a register of three and
on one of five. -/
theorem unitary_composes_and_extends_five :
    ∃ U V : Mat (Amplitude ℝ),
      unitary [.rx (1 : ℝ) 0, .cz 1 0] 3 = some U ∧
        unitary [.rx (2 : ℝ) 1, .cz 2 2] 3 = some V ∧
      unitary [.rx (1 : ℝ) 0, .cz 1 0, .rx 2 1, .cz 2 2] 3 = some (V.mul U) ∧
      unitary [.rx (1 : ℝ) 0, .cz 1 0, .rx 2 1, .cz 2 2] 5
        = some ((V.mul U).kron (Mat.identity 2)) := by
  obtain ⟨hexists, hcompose, hextend⟩ :=
    unitary_composes_and_extends (A := ℝ) (K := Amplitude ℝ)
  obtain ⟨U, hU⟩ := (hexists [.rx 1 0, .cz 1 0] 3).mpr (by decide)
  obtain ⟨V, hV⟩ := (hexists [.rx 2 1, .cz 2 2] 3).mpr (by decide)
  have hUV := hcompose _ _ 3 U V hU hV
  obtain ⟨W, hW, hW'⟩ :=
    hextend [.rx 1 0, .cz 1 0, .rx 2 1, .cz 2 2] 3 2 (by decide)
  obtain rfl : V.mul U = W := Option.some.inj (hUV.symm.trans hW)
  exact ⟨U, V, hU, hV, hUV, hW'⟩

end Circuit

end Gimbal
