/-
Gimbal/Proofs/OutOfReach.lean

Targets that no template of two qubits comes near.  At every depth a template is
zero outside the two blocks of its diagonal, so what a target has there stays in
the residual: with `w` the sum of its squared entries outside the blocks, those
that count,

    w ≤ residual of every template                             (`Objective.offBlockWeight_le`).

A minimizer reports the residual of a template, whatever its start and wherever
it stops, and a run is accepted for less than a hundredth.  So where `w` is a
hundredth no run is, and the search goes on until its attempts are used up
(`Synthesizer.synthesize_out_of_reach`).
-/
import Mathlib
import Gimbal.Proofs.ControlledReflection
import Gimbal.Proofs.RoundedResidual
import Gimbal.Proofs.SynthesisTotality

namespace Gimbal

variable {G : Type}

/-! ### The weight outside the blocks -/

/-- The squared entries in the two blocks off the diagonal, those above `1e-12`,
added up. -/
noncomputable def Mat.offBlockWeight (m : Mat (Amplitude ℝ)) : ℝ :=
  ∑ p : Fin 4 × Fin 4 with p.1.val / 2 ≠ p.2.val / 2 ∧
    1e-12 < (m.entry p.1 p.2).norm,
    (m.entry p.1 p.2).normSq

namespace Objective

variable {target u : Mat (Amplitude ℝ)} {depth : ℕ} {o : Objective ℝ}

/-- Outside the blocks the target alone makes up the misfit. -/
theorem normSq_entry_eq_of_isBlockDiagonal (hu : u.IsBlockDiagonal)
    {p : Fin 4 × Fin 4} (hoff : p.1.val / 2 ≠ p.2.val / 2)
    (hcounts : structuralZero < (target.entry p.1 p.2).norm) :
    (target.entry p.1 p.2).normSq = ‖misfit target u 2 p‖ ^ 2 := by
  have hzero : u.complex 2 p.1 p.2 = 0 := by
    show Amplitude.toComplex (u.entry p.1 p.2) = 0
    rw [hu _ _ hoff, map_zero]
  rw [misfit_apply, if_pos hcounts, hzero, sub_zero, Amplitude.normSq_eq]
  rfl

theorem offBlockWeight_le_residual (ho : ofTarget target depth = .ok o)
    (hshape : o.shape = .twoQubit) (hu : u.OnQubits 2)
    (hdiagonal : u.IsBlockDiagonal) : target.offBlockWeight ≤ o.residual u := by
  have hresidual : o.residual u = ‖misfit target u 2‖ ^ 2 := by
    have hmisfit := residual_eq (u := u) ho
    rw [hshape] at hmisfit
    exact hmisfit hu
  calc target.offBlockWeight
      = ∑ p : Fin 4 × Fin 4 with p.1.val / 2 ≠ p.2.val / 2 ∧
        1e-12 < (target.entry p.1 p.2).norm,
          ‖misfit target u 2 p‖ ^ 2 := by
        -- off the blocks the template has zeros, so what is missed there is the
        -- target itself
        refine Finset.sum_congr rfl fun p hp => ?_
        obtain ⟨hoff, hcounts⟩ := (Finset.mem_filter.mp hp).2
        exact normSq_entry_eq_of_isBlockDiagonal hdiagonal hoff hcounts
    _ ≤ ∑ p, ‖misfit target u 2 p‖ ^ 2 :=
      Finset.sum_le_univ_sum_of_nonneg fun p => sq_nonneg _
    _ = o.residual u := by rw [hresidual, EuclideanSpace.norm_sq_eq]

/-- No angles at any depth bring the residual below the weight outside the
blocks. -/
theorem offBlockWeight_le (ho : ofTarget target depth = .ok o)
    (hshape : o.shape = .twoQubit) {x : List ℝ} {r : ℝ}
    (hr : o.evaluate x = .ok r) : target.offBlockWeight ≤ r := by
  obtain ⟨T, hT, rfl⟩ := exists_templateUnitary_of_evaluate hr
  rw [hshape] at hT
  have hreflection := isControlledReflection_of_templateUnitary hT
  exact offBlockWeight_le_residual ho hshape ⟨hreflection.rows_eq,
    hreflection.cols_eq⟩
    hreflection.isBlockDiagonal

end Objective

/-! ### No run is accepted -/

namespace Synthesizer

/-- With minimizers that report the objective, no attempt at a target out of
reach is accepted. -/
theorem not_accepted_of_offBlockWeight [AngleSource G ℝ] {s : Synthesizer G ℝ}
    (hone : s.oneQubit.Reports) (htwo : s.twoQubit.Reports)
    {target : Mat (Amplitude ℝ)} (hfour : target.rows = 4 ∧ target.cols = 4)
    (hweight : 0.01 ≤ target.offBlockWeight) (found : Synthesis ℝ) :
    ¬ s.Accepted target found := by
  intro haccepted
  obtain ⟨o, run, hrounds⟩ := haccepted.exists_rounds hone htwo
  have hshape : o.shape = .twoQubit :=
    Except.ok.inj ((Objective.ofTarget_eq_ok hrounds.ofTarget_eq).1.symm.trans
      (Shape.ofMat_eq_ok_iff.mpr hfour))
  have hreach :=
    Objective.offBlockWeight_le hrounds.ofTarget_eq hshape
      hrounds.evaluate_point
  -- the residual rounds to nothing, yet it is at least the weight off the
  -- blocks
  have hsmall := (floor_hundred_mul_eq_iff.mp hrounds.floor_eq).2
  norm_num at hsmall hweight
  linarith

/-- **A target out of reach uses up all attempts.**  For a target with four rows
and columns whose entries outside the two blocks of the diagonal, those above
`1e-12`, have squares that add up to a hundredth or more, the usual search gives
up after its attempts: with any settings, from the seed in them or any other
state of the keystream. -/
theorem synthesize_out_of_reach (config : Config ℝ) (g : Keystream)
    (target : Mat (Amplitude ℝ)) (hfour : target.rows = 4 ∧ target.cols = 4)
    (hweight : 0.01 ≤ target.offBlockWeight) :
    (({ ofConfig config with source := g } : Synthesizer Keystream ℝ).synthesize
      target).1
      = .error (.exhausted config.maxAttempts) := by
  have hturn : (0 : ℝ) ≤ tau := by
    rw [Exact.tau_eq]
    positivity
  -- of the three ways a synthesis ends only running out is left
  obtain ⟨hinvalid, herror | hexhausted | ⟨found, hfound, -⟩⟩ :=
    (answers_ofConfig config g hturn).outcomes target
  · exact absurd (Or.inr hfour) (hinvalid.mp ⟨_, _, herror⟩)
  · exact hexhausted
  · exact absurd (accepted_of_synthesize hfound)
      (not_accepted_of_offBlockWeight (QuasiNewton.reports_minimizer _)
        (SimplexSearch.reports_minimizer _) hfour hweight found)

end Synthesizer

/-- The matrix that exchanges two qubits. -/
noncomputable def Mat.exchange : Mat (Amplitude ℝ) :=
  .ofFn 4 4 fun i j => if j = [0, 2, 1, 3].getD i 0 then 1 else 0

/-- Exchanging two qubits sends a state with the first one clear to one with it
set. -/
theorem Mat.one_le_offBlockWeight_exchange : 1 ≤ exchange.offBlockWeight := by
  have hentry : exchange.entry 1 2 = 1 := entry_ofFn _ (by decide) (by decide)
  have hone : (1 : Amplitude ℝ).normSq = 1 := by
    rw [Amplitude.normSq_eq, map_one, norm_one, one_pow]
  have hcounts : 1e-12 < (exchange.entry 1 2).norm := by
    rw [hentry, Amplitude.norm_eq, map_one, norm_one]
    norm_num
  calc (1 : ℝ) = (exchange.entry 1 2).normSq := by rw [hentry, hone]
    _ ≤ exchange.offBlockWeight := by
      refine Finset.single_le_sum
        (f := fun p : Fin 4 × Fin 4 => (exchange.entry p.1 p.2).normSq)
        (fun p _ => ?_)
        (Finset.mem_filter.mpr ⟨Finset.mem_univ (1, 2), by decide, hcounts⟩)
      rw [Amplitude.normSq_eq]
      positivity

/-- The usual search for the exchange of two qubits ends after ten attempts. -/
theorem Synthesizer.synthesize_out_of_reach_exchange :
    0.01 ≤ Mat.exchange.offBlockWeight ∧
    ((ofConfig .default).synthesize Mat.exchange).1 =
      .error (.exhausted 10) := by
  have hweight : 0.01 ≤ Mat.exchange.offBlockWeight :=
    le_trans (by norm_num) Mat.one_le_offBlockWeight_exchange
  exact ⟨hweight,
    synthesize_out_of_reach .default (.ofSeed 1) _ ⟨rfl, rfl⟩ hweight⟩

end Gimbal
