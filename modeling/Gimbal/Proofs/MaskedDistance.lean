/-
Gimbal/Proofs/MaskedDistance.lean

What a residual says about the entries that do not count.  It leaves out the
places where the target is zero, and a matrix may hold anything there.  Where
both are unitary it cannot: the squared entries of each add up to the dimension
`d`, so with `m` and `u` the entries in a row

    ‖m - u‖² = ‖m‖² + ‖u‖² - 2 Re ⟨m, u⟩ = 2 Re ⟨m, m - u⟩,

and in this product the target only meets the differences at its own places.
These have norm `√r` for the residual `r`, so that `‖m - u‖² ≤ 2 √(d * r)` for
all entries (`residual_controls_distance`).
-/
import Mathlib
import Gimbal.Proofs.EulerAngles
import Gimbal.Proofs.RoundedResidual

namespace Gimbal

variable {n : ℕ}

/-! ### All entries in a row -/

namespace Mat

/-- The sum of the squared distances between the entries of two matrices. -/
noncomputable def squaredDistance (a b : Mat (Amplitude ℝ)) : ℝ :=
  ∑ i ∈ Finset.range a.rows, ∑ j ∈ Finset.range a.cols,
    (a.entry i j - b.entry i j).normSq

/-- The entries of an operator in a row. -/
noncomputable def vector (m : Mat (Amplitude ℝ)) (n : ℕ) :
    EuclideanSpace ℂ (Fin (2 ^ n) × Fin (2 ^ n)) :=
  WithLp.toLp _ fun p => m.complex n p.1 p.2

theorem vector_apply (m : Mat (Amplitude ℝ)) (n : ℕ)
    (p : Fin (2 ^ n) × Fin (2 ^ n)) :
    m.vector n p = m.complex n p.1 p.2 := rfl

theorem OnQubits.squaredDistance_eq {a : Mat (Amplitude ℝ)} (h : a.OnQubits n)
    (b : Mat (Amplitude ℝ)) :
    a.squaredDistance b = ‖a.vector n - b.vector n‖ ^ 2 := by
  rw [squaredDistance, h.1, h.2, Finset.sum_range, EuclideanSpace.norm_sq_eq,
    Fintype.sum_prod_type]
  refine Finset.sum_congr rfl fun i _ => ?_
  rw [Finset.sum_range]
  refine Finset.sum_congr rfl fun j _ => ?_
  rw [Amplitude.normSq_eq, map_sub]
  rfl

/-- A distance of zero leaves no difference. -/
theorem OnQubits.eq_of_squaredDistance_le {a b : Mat (Amplitude ℝ)}
    (ha : a.OnQubits n) (hb : b.OnQubits n) (h : a.squaredDistance b ≤ 0) :
    a = b := by
  rw [ha.squaredDistance_eq] at h
  -- the bound leaves no difference of the two vectors
  have hzero : a.vector n - b.vector n = 0 :=
    norm_eq_zero.mp
      (pow_eq_zero_iff two_ne_zero |>.mp (le_antisymm h (by positivity)))
  refine ha.eq_of_complex_eq hb ?_
  ext i j
  rw [← vector_apply a n (i, j), ← vector_apply b n (i, j),
    sub_eq_zero.mp hzero]

/-- The squared entries of a unitary matrix add up to the dimension. -/
theorem IsUnitary.norm_vector_sq {m : Mat (Amplitude ℝ)} (h : m.IsUnitary n) :
    ‖m.vector n‖ ^ 2 = 2 ^ n := by
  -- every row has length one, and there are as many rows as states
  have hrow : ∀ i, ∑ j, ‖m.complex n i j‖ ^ 2 = 1 := by
    intro i
    have hright : m.complex n * (m.complex n).conjTranspose = 1 :=
      Unitary.mul_star_self_of_mem h.mem_unitary
    have hdiagonal := congrFun₂ hright i i
    simp only [Matrix.mul_apply, Matrix.conjTranspose_apply, Complex.star_def,
      Complex.mul_conj, Matrix.one_apply_eq,
      Complex.normSq_eq_norm_sq] at hdiagonal
    exact_mod_cast hdiagonal
  rw [EuclideanSpace.norm_sq_eq, Fintype.sum_prod_type]
  simp only [vector_apply, hrow]
  simp

theorem IsUnitary.norm_vector {m : Mat (Amplitude ℝ)} (h : m.IsUnitary n) :
    ‖m.vector n‖ = √(2 ^ n) := by
  rw [← h.norm_vector_sq, Real.sqrt_sq (norm_nonneg _)]

end Mat

/-! ### The target meets only what counts -/

/-- The distance of vectors of one length, from the first one's view. -/
theorem norm_sub_sq_of_norm_eq {E : Type} [NormedAddCommGroup E]
    [InnerProductSpace ℂ E] {a b : E} (h : ‖a‖ = ‖b‖) :
    ‖a - b‖ ^ 2 = 2 * (inner ℂ a (a - b)).re := by
  have hself : (inner ℂ a a).re = ‖a‖ ^ 2 := inner_self_eq_norm_sq (𝕜 := ℂ) a
  rw [@norm_sub_sq ℂ, inner_sub_right, Complex.sub_re, hself, ← h]
  show ‖a‖ ^ 2 - 2 * (inner ℂ a b).re + ‖a‖ ^ 2 = _
  ring

namespace Objective

variable {target u : Mat (Amplitude ℝ)}

/-- A target without small entries does not see the places that do not count. -/
theorem inner_vector_misfit
    (hentries : ∀ i j, target.entry i j = 0 ∨
      structuralZero < (target.entry i j).norm)
    (u : Mat (Amplitude ℝ)) (n : ℕ) :
    inner ℂ (target.vector n) (misfit target u n)
      = inner ℂ (target.vector n) (target.vector n - u.vector n) := by
  rw [PiLp.inner_apply, PiLp.inner_apply]
  refine Finset.sum_congr rfl fun p _ => ?_
  rw [misfit_apply]
  split
  · rfl
  · next hsmall =>
    -- what is not counted is zero in the target, and adds nothing to the
    -- product
    have hzero : target.vector n p = 0 := by
      rw [Mat.vector_apply]
      show Amplitude.toComplex (target.entry p.1 p.2) = 0
      rw [(hentries p.1 p.2).resolve_right hsmall, map_zero]
    rw [hzero, inner_zero_left, inner_zero_left]

/-- The residual bounds the distance at all places. -/
theorem squaredDistance_le {depth : ℕ} {o : Objective ℝ}
    (ho : ofTarget target depth = .ok o)
    (htarget : target.IsUnitary o.shape.qubitCount)
    (hu : u.IsUnitary o.shape.qubitCount)
    (hentries : ∀ i j, target.entry i j = 0 ∨
      structuralZero < (target.entry i j).norm) :
    target.squaredDistance u ≤
      2 * √(2 ^ o.shape.qubitCount * o.residual u) := by
  rw [htarget.onQubits.squaredDistance_eq, residual_eq ho hu.onQubits]
  generalize o.shape.qubitCount = n at htarget hu ⊢
  have hlength : ‖target.vector n‖ = ‖u.vector n‖ :=
    htarget.norm_vector.trans hu.norm_vector.symm
  -- for vectors of one length the squared distance is twice a product with
  -- their difference
  calc ‖target.vector n - u.vector n‖ ^ 2
      = 2 * (inner ℂ (target.vector n) (misfit target u n)).re := by
        rw [norm_sub_sq_of_norm_eq hlength, inner_vector_misfit hentries]
    _ ≤ 2 * (‖target.vector n‖ * ‖misfit target u n‖) := by
        gcongr
        exact re_inner_le_norm (𝕜 := ℂ) _ _
    _ = 2 * √(2 ^ n * ‖misfit target u n‖ ^ 2) := by
        rw [htarget.norm_vector, Real.sqrt_mul (by positivity),
          Real.sqrt_sq (norm_nonneg _)]

end Objective

theorem isUnitary_of_templateUnitary {s : Shape} {depth : ℕ} {x : List ℝ}
    {U : Mat (Amplitude ℝ)} (h : templateUnitary s depth x = .ok U) :
    U.IsUnitary s.qubitCount := by
  obtain ⟨-, rfl⟩ := templateUnitary_eq_ok_iff.mp h
  have hproduct := isUnitary_templateProduct s depth x.tail
  refine ⟨hproduct.onQubits.map _, ?_⟩
  rw [hproduct.onQubits.complex_map_mul, Amplitude.toComplex_cis]
  exact Unitary.smul_mem_of_mem (exp_mem_unitary _) hproduct.mem_unitary

/-- **The masked residual controls the whole distance.**  For a unitary target
of two or four rows, none of whose entries is small without being zero, and
every template with its angles: the residual `r` is not negative, the squared
distance over all entries is at most `2 * √(d * r)`, and the residual is zero
exactly if the template is the target. -/
theorem residual_controls_distance (s : Shape) (M : Mat (Amplitude ℝ))
    (depth : ℕ) (x : List ℝ) (hM : M.IsUnitary s.qubitCount)
    (hentries : ∀ i j, M.entry i j = 0 ∨ 1e-12 < (M.entry i j).norm)
    (hdepth : 1 ≤ depth ∧ depth ≤ 3) (hx : x.length = s.angleCount depth) :
    ∃ (o : Objective ℝ) (U : Mat (Amplitude ℝ)) (r : ℝ),
      Objective.ofTarget M depth = .ok o ∧
      templateUnitary s depth x = .ok U ∧ o.evaluate x = .ok r ∧ 0 ≤ r ∧
      M.squaredDistance U ≤ 2 * √(2 ^ s.qubitCount * r) ∧ (r = 0 ↔ U = M) := by
  have hshape : Shape.ofMat M = .ok s := Shape.ofMat_eq_ok_iff.mpr hM.onQubits
  obtain ⟨o, ho, rfl, rfl⟩ := Objective.exists_ofTarget hshape hdepth.1 hdepth.2
  have hT := templateUnitary_eq_ok_iff.mpr ⟨⟨hdepth.1, hdepth.2, hx⟩, rfl⟩
  have hU := isUnitary_of_templateUnitary hT
  have hr := Objective.evaluate_eq_ok (o := o) ⟨hdepth.1, hdepth.2, hx⟩
  have hdistance := Objective.squaredDistance_le ho hM hU hentries
  refine ⟨o, _, _, ho, hT, hr, Objective.evaluate_nonneg ho hr, hdistance, ?_⟩
  constructor
  · -- the bound is zero, and with it the distance
    intro hzero
    rw [hzero, mul_zero, Real.sqrt_zero, mul_zero] at hdistance
    exact (hM.onQubits.eq_of_squaredDistance_le hU.onQubits hdistance).symm
  · intro hfit
    rw [hfit] at hT
    exact Except.ok.inj (hr.symm.trans (Objective.evaluate_eq_zero ho hT))

theorem Mat.entry_controlledX (i j : ℕ) :
    (Mat.controlledX : Mat (Amplitude ℝ)).entry i j = 0 ∨
    (Mat.controlledX : Mat (Amplitude ℝ)).entry i j = 1 := by
  -- outside the matrix an entry reads as zero
  by_cases hin : i < 4 ∧ j < 4
  · rw [Mat.controlledX, Mat.entry_ofFn _ hin.1 hin.2]
    split
    · exact Or.inr rfl
    · exact Or.inl rfl
  · refine Or.inl (Mat.entry_of_ge _ ?_)
    show 4 ≤ i ∨ 4 ≤ j
    omega

/-- The controlled flip, which is mostly zeros, and a template of depth two. -/
theorem residual_controls_distance_controlled_flip :
    ∃ (o : Objective ℝ) (U : Mat (Amplitude ℝ)) (r : ℝ),
      Objective.ofTarget FixedGate.cnot.matrix 2 = .ok o ∧
      templateUnitary .twoQubit 2 [1, 2, 3, 4, 5] = .ok U ∧
      o.evaluate [1, 2, 3, 4, 5] = .ok r ∧
      0 ≤ r ∧ FixedGate.cnot.matrix.squaredDistance U ≤ 2 * √(2 ^ 2 * r) ∧
      (r = 0 ↔ U = FixedGate.cnot.matrix) := by
  refine residual_controls_distance .twoQubit _ 2 _
    (FixedGate.isUnitary_matrix .cnot) ?_ (by decide) rfl
  intro i j
  rcases Mat.entry_controlledX i j with hzero | hone
  · exact Or.inl hzero
  · refine Or.inr ?_
    show 1e-12 < ((Mat.controlledX : Mat (Amplitude ℝ)).entry i j).norm
    rw [hone, Amplitude.norm_eq, map_one, norm_one]
    norm_num

end Gimbal
