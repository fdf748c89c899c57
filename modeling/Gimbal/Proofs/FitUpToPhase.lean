/-
Gimbal/Proofs/FitUpToPhase.lean

Fitting a target that was multiplied by a global phase.

The first angle of a template is a phase that no gate shows.  If the target
turns by `φ` and the first angle does, too, then the same entries count, every
difference between target and template turns by `φ`, and the residual stays:

    residual of M.phased φ at (θ + φ) :: x  =  residual of M at θ :: x,        steps unchanged.

The new first angle may leave the turn that a search looks in, and whole turns
are taken off again.  So a search for `M.phased φ` has the same gates within
reach as one for `M`, each with the same residuals.
-/
import Mathlib
import Gimbal.Proofs.GlobalPhase
import Gimbal.Proofs.SearchBox

namespace Gimbal

open Complex (I)

/-! ### Phases within one turn -/

namespace Mat

theorem phased_toIcoMod (m : Mat (Amplitude ℝ)) (φ : ℝ) :
    m.phased (toIcoMod Real.two_pi_pos 0 φ) = m.phased φ := by
  have hcis :
      (Amplitude.cis (toIcoMod Real.two_pi_pos 0 φ) : Amplitude ℝ) =
        .cis φ := by
    apply Amplitude.toComplex_injective
    rw [Amplitude.toComplex_cis, Amplitude.toComplex_cis, exp_toIcoMod_mul_I]
  rw [phased, phased, hcis]

theorem OnQubits.complex_phased {m : Mat (Amplitude ℝ)} {n : ℕ}
    (h : m.OnQubits n) (φ : ℝ) :
    (m.phased φ).complex n = Complex.exp (φ * I) • m.complex n := by
  rw [phased, h.complex_map_mul, Amplitude.toComplex_cis]

end Mat

namespace Objective

variable {M u : Mat (Amplitude ℝ)} {φ : ℝ} {depth : ℕ} {o o' : Objective ℝ}

/-! ### Residuals -/

/-- The same entries count, and the differences at them turn. -/
theorem misfit_phased {n : ℕ} (hM : M.OnQubits n) (hu : u.OnQubits n) (φ : ℝ) :
    misfit (M.phased φ) (u.phased φ) n =
      Complex.exp (φ * I) • misfit M u n := by
  ext p
  rw [PiLp.smul_apply, misfit_apply, misfit_apply, Mat.entry_phased,
    Amplitude.norm_mul_cis, hM.complex_phased, hu.complex_phased, smul_ite,
    smul_zero, smul_sub]
  rfl

theorem shape_eq_of_phased (ho : ofTarget M depth = .ok o)
    (ho' : ofTarget (M.phased φ) depth = .ok o') : o'.shape = o.shape :=
  Except.ok.inj ((ofTarget_eq_ok ho').1.symm.trans (ofTarget_eq_ok ho).1)

/-- A matrix that turns with the target is as far from it as before. -/
theorem residual_phased (ho : ofTarget M depth = .ok o)
    (ho' : ofTarget (M.phased φ) depth = .ok o')
    (hu : u.OnQubits o.shape.qubitCount) :
    o'.residual (u.phased φ) = o.residual u := by
  have hshape := shape_eq_of_phased ho ho'
  have hM : M.OnQubits o.shape.qubitCount :=
    Shape.ofMat_eq_ok_iff.mp (ofTarget_eq_ok ho).1
  have hu' : (u.phased φ).OnQubits o'.shape.qubitCount := by
    rw [hshape]
    exact hu.map _
  rw [residual_eq ho hu, residual_eq ho' hu', hshape, misfit_phased hM hu,
    norm_smul, Complex.norm_exp_ofReal_mul_I, one_mul]

/-- The phase of the target is added to the first angle. -/
theorem evaluate_phased (ho : ofTarget M depth = .ok o)
    (ho' : ofTarget (M.phased φ) depth = .ok o') {θ : ℝ} {x : List ℝ}
    (h : o.shape.Takes o.depth (θ :: x).length) :
    o'.evaluate (toIcoMod Real.two_pi_pos 0 (θ + φ) :: x) =
      o.evaluate (θ :: x) := by
  -- both objectives have the same shape and depth, so they take the same angles
  have hshape := shape_eq_of_phased ho ho'
  have hdepth : o'.depth = o.depth :=
    (ofTarget_eq_ok ho').2.trans (ofTarget_eq_ok ho).2.symm
  have h' :
      o'.shape.Takes o'.depth
        (toIcoMod Real.two_pi_pos 0 (θ + φ) :: x).length := by
    rw [hshape, hdepth]
    exact h
  rw [evaluate_eq_ok h, evaluate_eq_ok h', hshape, hdepth]
  refine congrArg Except.ok ?_
  show o'.residual
    ((templateProduct o.shape o.depth x).phased
      (toIcoMod Real.two_pi_pos 0 (θ + φ)))
    = o.residual ((templateProduct o.shape o.depth x).phased θ)
  -- the phase of the target is the phase of the template; a whole turn makes no
  -- difference
  rw [Mat.phased_toIcoMod, ← Mat.phased_phased]
  exact residual_phased ho ho'
    ((isUnitary_templateProduct _ _ _).onQubits.map _)

/-! ### Gates within reach -/

/-- The gate sequences with angles in one turn whose residual is below a
threshold. -/
def gatesBelow (o : Objective ℝ) (threshold : ℝ) : Set (Decomposition ℝ) :=
  {d | ∃ x ∈ turnBox, ∃ r < threshold, o.evaluate x = .ok r ∧
    stepsOfAngles o.shape x = .ok d}

/-- Angles in one turn can follow the phase of the target in their first
coordinate. -/
theorem exists_set_evaluate_phased (ho : ofTarget M depth = .ok o)
    (ho' : ofTarget (M.phased φ) depth = .ok o') {x : List ℝ} (hx : x ∈ turnBox)
    (h : o.shape.Takes o.depth x.length) :
    ∃ ψ, x.set 0 ψ ∈ turnBox ∧ o'.evaluate (x.set 0 ψ) = o.evaluate x ∧
      stepsOfAngles o'.shape (x.set 0 ψ) = stepsOfAngles o.shape x := by
  obtain ⟨θ, x, rfl⟩ := List.exists_cons_of_ne_nil h.ne_nil
  have hψ := toIcoMod_mem_turn (θ + φ)
  refine ⟨_, List.forall_mem_cons.mpr ⟨⟨hψ.1, hψ.2.le⟩, ?_⟩,
    evaluate_phased ho ho' h, ?_⟩
  · exact (List.forall_mem_cons.mp hx).2
  · rw [shape_eq_of_phased ho ho']
    rfl

theorem gatesBelow_subset_phased (ho : ofTarget M depth = .ok o)
    (ho' : ofTarget (M.phased φ) depth = .ok o') (threshold : ℝ) :
    o.gatesBelow threshold ⊆ o'.gatesBelow threshold := by
  rintro d ⟨x, hx, r, hlt, hr, hd⟩
  obtain ⟨ψ, hψ, heval, hsteps⟩ :=
    exists_set_evaluate_phased ho ho' hx (takes_of_evaluate_eq_ok hr)
  exact ⟨x.set 0 ψ, hψ, r, hlt, heval.trans hr, hsteps.trans hd⟩

/-- A phase can be taken back, so no gates are lost or gained. -/
theorem gatesBelow_phased (ho : ofTarget M depth = .ok o)
    (ho' : ofTarget (M.phased φ) depth = .ok o') (threshold : ℝ) :
    o'.gatesBelow threshold = o.gatesBelow threshold := by
  have hback : ofTarget ((M.phased φ).phased (-φ)) depth = .ok o := by
    rwa [Mat.phased_phased, add_neg_cancel, Mat.phased_zero]
  exact Set.Subset.antisymm (gatesBelow_subset_phased ho' hback threshold)
    (gatesBelow_subset_phased ho ho' threshold)

end Objective

/-- **Fitting does not depend on the global phase of the target.**  For any two
by two or four by four target and any angles in one turn, of the number that the
template of the depth takes, there is another first angle in that turn with
which the template fits the target times a phase just as well, and the gates of
the two vectors are the same.  So the gate sequences with a residual below a
threshold are the same for both targets, whatever the threshold. -/
theorem fit_invariant_under_phase (M : Mat (Amplitude ℝ)) (φ : ℝ) (depth : ℕ)
    (hM : M.rows = 2 ∧ M.cols = 2 ∨ M.rows = 4 ∧ M.cols = 4) (hpos : 1 ≤ depth)
    (hle : depth ≤ 3) :
    ∃ o o' : Objective ℝ, Objective.ofTarget M depth = .ok o ∧
      Objective.ofTarget (M.phased φ) depth = .ok o' ∧
        o'.dimension = o.dimension ∧
      (∀ x ∈ turnBox, x.length = o.dimension →
        ∃ (ψ r : ℝ) (d : Decomposition ℝ),
        x.set 0 ψ ∈ turnBox ∧ o.evaluate x = .ok r ∧
          o'.evaluate (x.set 0 ψ) = .ok r ∧
        stepsOfAngles o.shape x = .ok d ∧
          stepsOfAngles o'.shape (x.set 0 ψ) = .ok d) ∧
      ∀ threshold, o'.gatesBelow threshold = o.gatesBelow threshold := by
  obtain ⟨hother, -⟩ | ⟨-, shape, hshape⟩ := Shape.ofMat_cases M
  · exact absurd hM hother
  obtain ⟨o, ho, rfl, rfl⟩ := Objective.exists_ofTarget hshape hpos hle
  have hphased : Shape.ofMat (M.phased φ) = .ok o.shape := hshape
  obtain ⟨o', ho', hshape', hdepth'⟩ :=
    Objective.exists_ofTarget hphased hpos hle
  refine ⟨o, o', ho, ho', ?_, ?_, Objective.gatesBelow_phased ho ho'⟩
  · rw [Objective.dimension, Objective.dimension, hshape', hdepth']
  · -- one point serves for both, the residual and the gates
    intro x hx hlength
    have htakes : o.shape.Takes o.depth x.length := ⟨hpos, hle, hlength⟩
    obtain ⟨ψ, hψ, heval, hsteps⟩ :=
      Objective.exists_set_evaluate_phased ho ho' hx htakes
    have hr := Objective.evaluate_eq_ok htakes
    have hd := stepsOfAngles_eq_ok htakes
    exact ⟨ψ, _, _, hψ, hr, heval.trans hr, hd, hsteps.trans hd⟩

/-- The Hadamard gate with a phase that takes the first angle beyond one
turn. -/
theorem fit_invariant_under_phase_hadamard :
    ∃ (o o' : Objective ℝ) (ψ r : ℝ),
      Objective.ofTarget FixedGate.h.matrix 3 = .ok o ∧
      Objective.ofTarget ((FixedGate.h.matrix : Mat (Amplitude ℝ)).phased 0.7) 3
        = .ok o' ∧
      [ψ, 1, 2, 3] ∈ turnBox ∧ o.evaluate [6, 1, 2, 3] = .ok r ∧
      o'.evaluate [ψ, 1, 2, 3] = .ok r ∧
      o'.gatesBelow 0.01 = o.gatesBelow 0.01 := by
  obtain ⟨o, o', ho, ho', -, hfit, hgates⟩ := fit_invariant_under_phase
    FixedGate.h.matrix 0.7 3
    (Or.inl ⟨rfl, rfl⟩) (by decide) le_rfl
  have hbox : [(6 : ℝ), 1, 2, 3] ∈ turnBox := by
    have hpi := Real.pi_gt_three
    intro θ hθ
    rw [Exact.tau_eq]
    simp only [List.mem_cons, List.not_mem_nil, or_false] at hθ
    rcases hθ with rfl | rfl | rfl | rfl <;> constructor <;> linarith
  have hlength : [(6 : ℝ), 1, 2, 3].length = o.dimension := by
    rw [Objective.eq_of_ofTarget ho]
    have hshape : o.shape = .oneQubit :=
      Except.ok.inj (Objective.ofTarget_eq_ok ho).1.symm
    rw [hshape]
    rfl
  obtain ⟨ψ, r, -, hψ, hr, hr', -⟩ := hfit [6, 1, 2, 3] hbox hlength
  exact ⟨o, o', ψ, r, ho, ho', hψ, hr, hr', hgates 0.01⟩

end Gimbal
