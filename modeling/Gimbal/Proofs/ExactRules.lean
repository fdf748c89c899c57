/-
Gimbal/Proofs/ExactRules.lean

Commuting and cancelling keep the operator of a circuit, over any commutative
ring and with no phase or tolerance.  Two entries that meet are both diagonal,
so exchanging them changes nothing; two equal phase flips are each other's
inverse.

A reduction by these two rules is made of such steps only, so its result has the
very unitary of the circuit:

    c.unitary n = some U    gives    (reduce rules c).unitary n = some U    (`reduce_unitary_eq`).
-/
import Mathlib
import Gimbal.Proofs.CircuitOperator
import Gimbal.Proofs.UnitaryCircuit

namespace Gimbal

variable {A K : Type} {n : ℕ} [CommRing K] [Rotations A K] [LawfulRotations A K]

/-! ### Commuting -/

/-- Entries that meet commute. -/
theorem operator_comm_of_meetsCz {a b : Entry A} (ha : a.Fits n) (hb : b.Fits n)
    (h : meetsCz a b) :
    (a.operator n * b.operator n : Matrix _ _ K) =
    b.operator n * a.operator n := by
  -- both operators are diagonal, the one a rotation about z, the other a
  -- controlled sign
  obtain ⟨d, hd⟩ :=
    Entry.exists_operator_eq_diagonal (K := K) ha
      (Or.inl (isZRotation_of_meetsCz h))
  obtain ⟨d', hd'⟩ :=
    Entry.exists_operator_eq_diagonal (K := K) hb (Or.inr (isCz_of_meetsCz h))
  rw [hd, hd', Matrix.diagonal_mul_diagonal, Matrix.diagonal_mul_diagonal]
  congr 1
  funext x
  exact mul_comm _ _

theorem operator_sweepFrom {first : Entry A} {rest : Circuit A}
    (h : Circuit.Fits n (first :: rest)) :
    (Circuit.operator n (sweepFrom first rest) : Matrix _ _ K) =
    Circuit.operator n (first :: rest) := by
  induction rest generalizing first with
  | nil => rfl
  | cons next rest ih =>
    unfold sweepFrom
    split
    · next hmeet =>
      -- the walk goes on with `first` behind `next`, where the two have been
      -- exchanged
      rw [Circuit.operator_cons, ih (Circuit.Fits.cons h.head h.tail.tail)]
      simp only [Circuit.operator_cons, mul_assoc]
      rw [operator_comm_of_meetsCz h.head h.tail.head hmeet]
    · rw [Circuit.operator_cons, ih h.tail, Circuit.operator_cons n first]

theorem operator_commuteThroughCz {c : Circuit A} (h : Circuit.Fits n c) :
    (Circuit.operator n (commuteThroughCz c) : Matrix _ _ K) =
    Circuit.operator n c := by
  fun_induction commuteThroughCz c with
  | case1 c _ ih =>
    rw [ih (h.subset (sweep_perm c).subset)]
    cases c with
    | nil => rfl
    | cons first rest => exact operator_sweepFrom h
  | case2 c _ => rfl

/-! ### Cancelling -/

theorem operator_cancelOnto {e : Entry A} {c : Circuit A}
    (h : Circuit.Fits n (e :: c)) :
    (Circuit.operator n (cancelOnto e c) : Matrix _ _ K) =
    Circuit.operator n (e :: c) := by
  cases c with
  | nil => rfl
  | cons next rest =>
    rw [cancelOnto]
    split
    · next hcancel =>
      -- a sign put on the same pair of qubits twice is no sign at all
      obtain ⟨control, target, rfl, rfl⟩ := cancels_iff.mp hcancel
      rw [Circuit.operator_cons, Circuit.operator_cons, mul_assoc,
        Entry.operator_cz_mul_self h.head, mul_one]
    · rfl

theorem operator_cancelCzPairs {c : Circuit A} (h : Circuit.Fits n c) :
    (Circuit.operator n (cancelCzPairs c) : Matrix _ _ K) =
    Circuit.operator n c := by
  induction c with
  | nil => rfl
  | cons e c ih =>
    have hfits : Circuit.Fits n (e :: cancelCzPairs c) :=
      Circuit.Fits.cons h.head (h.tail.subset (cancelCzPairs_sublist c).subset)
    rw [cancelCzPairs_cons, operator_cancelOnto hfits, Circuit.operator_cons,
      ih h.tail, Circuit.operator_cons]

/-! ### Reductions by these rules -/

/-- `d` fits the register and has the operator of `c`. -/
structure SameOperator (K : Type) [CommRing K] [Rotations A K] (n : ℕ)
    (c d : Circuit A) : Prop where
  fits : Circuit.Fits n d
  operator_eq : (Circuit.operator n d : Matrix _ _ K) = Circuit.operator n c

namespace SameOperator

theorem commuteThroughCz {c d : Circuit A} (h : SameOperator K n c d) :
    SameOperator K n c (commuteThroughCz d) where
  fits := h.fits.subset (commuteThroughCz_perm d).subset
  operator_eq := (operator_commuteThroughCz h.fits).trans h.operator_eq

theorem cancelCzPairs {c d : Circuit A} (h : SameOperator K n c d) :
    SameOperator K n c (cancelCzPairs d) where
  fits := h.fits.subset (cancelCzPairs_sublist d).subset
  operator_eq := (operator_cancelCzPairs h.fits).trans h.operator_eq

end SameOperator

/-- Where no other rules are listed, every enabled rule keeps the operator. -/
theorem rulesKeep_sameOperator [Scalar A] {rules : List Rule}
    (hrules : ∀ rule ∈ rules, rule = .commuteThroughCz ∨ rule = .cancelCzPairs)
    (c : Circuit A) :
    RulesKeep rules (SameOperator K n c) := by
  have hoff : ∀ rule, rule ≠ .commuteThroughCz → rule ≠ .cancelCzPairs →
      ¬ enabled rules rule := by
    -- only the two exact rules can be on, whether named alone or through `all`
    intro rule hcommute hcancel hon
    rw [enabled, Bool.or_eq_true, List.contains_iff_mem,
      List.contains_iff_mem] at hon
    rcases hon with hmem | hall
    · rcases hrules rule hmem with h | h
      · exact hcommute h
      · exact hcancel h
    · rcases hrules .all hall with h | h <;> cases h
  constructor
  · intro hon
    exact absurd hon (hoff .removeIdentities (by decide) (by decide))
  · intro _ d h
    exact h.commuteThroughCz
  · intro hon
    exact absurd hon (hoff .mergeRotations (by decide) (by decide))
  · intro _ d h
    exact h.cancelCzPairs

/-- **Commuting and cancelling are exact**: with no other rules, a reduced
circuit has the unitary of the circuit wherever the circuit has one.  The
entries of the matrices lie in any commutative ring, rotations about the third
axis are any diagonal matrices and those about the first axis any matrices, and
the two qubits of a phase flip may coincide. -/
theorem reduce_unitary_eq [Scalar A] [MulAdd K] [LawfulMulAdd K]
    (rules : List Rule)
    (hrules : ∀ rule ∈ rules, rule = .commuteThroughCz ∨ rule = .cancelCzPairs)
    (c : Circuit A) (n : ℕ) (U : Mat K) (h : c.unitary n = some U) :
    (reduce rules c).unitary n = some U := by
  obtain ⟨hfits, hshape, hop⟩ := Circuit.unitary_eq_some_iff.mp h
  have hself : SameOperator K n c c := ⟨hfits, rfl⟩
  have hsame := (rulesKeep_sameOperator hrules c).reduce hself
  apply Circuit.unitary_eq_some_iff.mpr
  exact ⟨hsame.fits, hshape, hop.trans hsame.operator_eq.symm⟩

/-- Rotations pass a flip whose qubits coincide, and two more that then
cancel. -/
theorem reduce_unitary_eq_degenerate :
    ∃ (c : Circuit ℝ) (U : Mat (Amplitude ℝ)),
      c = [.rx 3 1, .rz 1 0, .cz 0 0, .cz 1 0, .rz 2 0, .cz 1 0] ∧
        c.unitary 2 = some U ∧
      (reduce [.cancelCzPairs, .commuteThroughCz, .cancelCzPairs] c).unitary 2 =
        some U := by
  have hfits :
      Circuit.Fits 2 [.rx (3 : ℝ) 1, .rz 1 0, .cz 0 0, .cz 1 0, .rz 2 0,
        .cz 1 0] := by
    simp [Circuit.Fits, Entry.Fits, Entry.qubits, Entry.rz, Entry.rx]
  obtain ⟨U, hU, -⟩ := hfits.exists_complex
  exact ⟨_, U, rfl, hU, reduce_unitary_eq _ (by decide) _ 2 U hU⟩

end Gimbal
