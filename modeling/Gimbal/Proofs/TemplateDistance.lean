/-
Gimbal/Proofs/TemplateDistance.lean

How far a residual moves with the angles.  Over exact numbers the residual of a
matrix is the square of a Euclidean norm, that of its differences from the
target at the entries that count (`misfit`), so square roots of residuals obey
the triangle inequality:

    √(residual u) ≤ √(residual u') + √(2 ^ n) * ‖u - u'‖        (`Objective.sqrt_residual_le`).

The norm on the right is that of operators, where templates are easy to compare:
every factor is unitary, so moving each angle by at most `δ` costs half of `δ`
for each rotation and `δ` for the phase.
-/
import Mathlib
import Gimbal.Proofs.PhaseCheck
import Gimbal.Proofs.SynthesisOutcome
import Gimbal.Proofs.Unitarity

namespace Gimbal

open scoped Matrix.Norms.L2Operator

variable {n : ℕ}

/-! ### Residuals as Euclidean norms -/

theorem Amplitude.normSq_eq (a : Amplitude ℝ) :
    a.normSq = ‖a.toComplex‖ ^ 2 := by
  rw [← Complex.normSq_eq_norm_sq, Complex.normSq_apply]
  rfl

/-- The sum over a filtered list is a sum with zeros in between. -/
theorem sum_filterMap_ite {α : Type} (p : α → Bool) (f : α → ℝ) (l : List α) :
    sum (l.filterMap fun a => if p a then some (f a) else none)
      = (l.map fun a => if p a then f a else 0).sum := by
  refine List.sum_eq_foldl.symm.trans ?_
  induction l with
  | nil => rfl
  | cons a l ih =>
    rw [List.filterMap_cons, List.map_cons, List.sum_cons]
    cases p a with
    | true => exact congrArg (f a + ·) ih
    | false => exact ih.trans (zero_add _).symm

/-- The stored entries, each at its quotient and remainder. -/
theorem Mat.OnQubits.toList_entries {K : Type} [Zero K] {m : Mat K}
    (h : m.OnQubits n) :
    m.entries.toList
      = (List.finRange (2 ^ n * 2 ^ n)).map fun k =>
        m.entry k.divNat.val k.modNat.val := by
  -- the entries are stored row by row
  have hsize : m.entries.toList.length = 2 ^ n * 2 ^ n := by
    rw [Array.length_toList, m.size_eq, h.1, h.2]
  apply List.ext_getElem
  · rw [hsize, List.length_map, List.length_finRange]
  · intro k hk _
    rw [hsize] at hk
    have hrow : k / 2 ^ n < m.rows :=
      (Nat.div_lt_of_lt_mul hk).trans_eq h.1.symm
    have hcol : k % 2 ^ n < m.cols :=
      (Nat.mod_lt k (Nat.two_pow_pos n)).trans_eq h.2.symm
    have hentry := m.getElem?_entries hrow hcol
    rw [h.2, Nat.div_add_mod'] at hentry
    rw [List.getElem_map, List.getElem_finRange, Array.getElem_toList]
    exact Option.some.inj ((Array.getElem?_eq_getElem _).symm.trans hentry)

namespace Objective

/-- The differences of a matrix from the target at the entries that count. -/
noncomputable def misfit (target u : Mat (Amplitude ℝ)) (n : ℕ) :
    EuclideanSpace ℂ (Fin (2 ^ n) × Fin (2 ^ n)) :=
  (EuclideanSpace.equiv _ ℂ).symm fun p =>
    if structuralZero < (target.entry p.1 p.2).norm then
      target.complex n p.1 p.2 - u.complex n p.1 p.2
    else 0

theorem misfit_apply (target u : Mat (Amplitude ℝ)) (n : ℕ)
    (p : Fin (2 ^ n) × Fin (2 ^ n)) :
    misfit target u n p = if structuralZero < (target.entry p.1 p.2).norm then
      target.complex n p.1 p.2 - u.complex n p.1 p.2 else 0 := rfl

variable {target u v : Mat (Amplitude ℝ)} {depth : ℕ} {o : Objective ℝ}

/-- **The residual is a squared distance** from the target. -/
theorem residual_eq (ho : ofTarget target depth = .ok o)
    (hu : u.OnQubits o.shape.qubitCount) :
    o.residual u = ‖misfit target u o.shape.qubitCount‖ ^ 2 := by
  obtain ⟨hshape, -⟩ := ofTarget_eq_ok ho
  have htarget := Shape.ofMat_eq_ok_iff.mp hshape
  have heq := eq_of_ofTarget ho
  generalize o.shape.qubitCount = n at hu htarget ⊢
  rw [heq, residual, htarget.toList_entries, hu.toList_entries, List.map_map,
    List.zip_map', List.zip_map', List.filterMap_map]
  -- the stored entries one after another are the pairs of a row and a column
  refine (sum_filterMap_ite _ _ _).trans ?_
  rw [← Fin.sum_univ_def, EuclideanSpace.norm_sq_eq, ← finProdFinEquiv.sum_comp]
  refine Finset.sum_congr rfl fun p _ => ?_
  have hp : ((finProdFinEquiv p).divNat, (finProdFinEquiv p).modNat) = p :=
    finProdFinEquiv.symm_apply_apply p
  have hrow : (finProdFinEquiv p).divNat = p.1 := congrArg Prod.fst hp
  have hcol : (finProdFinEquiv p).modNat = p.2 := congrArg Prod.snd hp
  simp only [Function.comp_apply, decide_eq_true_eq, hrow, hcol,
    Amplitude.normSq_eq, map_sub, misfit_apply]
  split
  · rfl
  · simp

theorem residual_nonneg (ho : ofTarget target depth = .ok o)
    (hu : u.OnQubits o.shape.qubitCount) :
    0 ≤ o.residual u := by
  rw [residual_eq ho hu]
  positivity

end Objective

/-! ### The triangle inequality -/

/-- The squared entries add up to at most the dimension times the squared
norm. -/
theorem sum_norm_sq_le (A : Matrix (Fin (2 ^ n)) (Fin (2 ^ n)) ℂ) :
    ∑ p : Fin (2 ^ n) × Fin (2 ^ n), ‖A p.1 p.2‖ ^ 2 ≤ 2 ^ n * ‖A‖ ^ 2 := by
  -- a column is the image of a basis vector
  have hcol : ∀ j, ∑ i, ‖A i j‖ ^ 2 ≤ ‖A‖ ^ 2 := by
    intro j
    have himage := Matrix.l2_opNorm_mulVec A (PiLp.single 2 j (1 : ℂ))
    rw [PiLp.norm_single, norm_one, mul_one] at himage
    have hsq := pow_le_pow_left₀ (norm_nonneg _) himage 2
    rw [EuclideanSpace.norm_sq_eq] at hsq
    refine le_trans (le_of_eq ?_) hsq
    refine Finset.sum_congr rfl fun i _ => ?_
    have hentry : A.mulVec (Pi.single j 1) i = A i j := by
      rw [Matrix.mulVec_single_one, Matrix.col_apply]
    rw [← hentry]
    rfl
  calc ∑ p : Fin (2 ^ n) × Fin (2 ^ n), ‖A p.1 p.2‖ ^ 2
      = ∑ j, ∑ i, ‖A i j‖ ^ 2 := Fintype.sum_prod_type_right _
    _ ≤ ∑ _j : Fin (2 ^ n), ‖A‖ ^ 2 := Finset.sum_le_sum fun j _ => hcol j
    _ = 2 ^ n * ‖A‖ ^ 2 := by
        rw [Finset.sum_const, Finset.card_univ, Fintype.card_fin, nsmul_eq_mul]
        push_cast
        rfl

namespace Objective

variable {target u v : Mat (Amplitude ℝ)} {depth : ℕ} {o : Objective ℝ}

theorem norm_misfit_sub_le (target u v : Mat (Amplitude ℝ)) (n : ℕ) :
    ‖misfit target u n - misfit target v n‖ ≤
      √(2 ^ n) * ‖u.complex n - v.complex n‖ := by
  -- an entry counts in both misfits or in neither
  have hsq : ‖misfit target u n - misfit target v n‖ ^ 2
      ≤ 2 ^ n * ‖u.complex n - v.complex n‖ ^ 2 := by
    rw [EuclideanSpace.norm_sq_eq]
    refine le_trans (Finset.sum_le_sum fun p _ => ?_)
      (sum_norm_sq_le (u.complex n - v.complex n))
    -- an entry that does not count adds nothing
    rw [PiLp.sub_apply, misfit_apply, misfit_apply]
    split
    · rw [sub_sub_sub_cancel_left, norm_sub_rev]
      rfl
    · rw [sub_self, norm_zero, zero_pow two_ne_zero]
      positivity
  refine abs_le_of_sq_le_sq' ?_ (by positivity) |>.2
  rwa [mul_pow, Real.sq_sqrt (by positivity)]

/-- Square roots of residuals differ by no more than the operators do, up to the
dimension. -/
theorem sqrt_residual_le (ho : ofTarget target depth = .ok o)
    (hu : u.OnQubits o.shape.qubitCount) (hv : v.OnQubits o.shape.qubitCount) :
    √(o.residual u) ≤ √(o.residual v) + √(2 ^ o.shape.qubitCount) *
      ‖u.complex o.shape.qubitCount - v.complex o.shape.qubitCount‖ := by
  rw [residual_eq ho hu, residual_eq ho hv, Real.sqrt_sq (norm_nonneg _),
    Real.sqrt_sq (norm_nonneg _)]
  generalize o.shape.qubitCount = n
  calc ‖misfit target u n‖
      ≤ ‖misfit target v n‖ + ‖misfit target u n - misfit target v n‖ :=
        norm_le_norm_add_norm_sub' _ _
    _ ≤ _ := by
        gcongr
        exact norm_misfit_sub_le target u v n

end Objective

/-! ### Templates with nearby angles -/

/-- Up to no factor but one, closeness is a bound on the distance. -/
theorem closeUpTo_bot_iff {δ : ℝ} {A B : Matrix (Fin (2 ^ n)) (Fin (2 ^ n)) ℂ} :
    CloseUpTo ⊥ δ A B ↔ ‖A - B‖ ≤ δ := by
  constructor
  · rintro ⟨s, hs, hle⟩
    rwa [Submonoid.mem_bot.mp hs, one_smul] at hle
  · intro hle
    exact ⟨1, one_mem _, by rwa [one_smul]⟩

namespace Mat

theorem IsUnitary.mul {a b : Mat (Amplitude ℝ)} (ha : a.IsUnitary n)
    (hb : b.IsUnitary n) :
    (a.mul b).IsUnitary n := by
  refine ⟨ha.onQubits.mul hb.onQubits, ?_⟩
  rw [ha.onQubits.complex_mul hb.onQubits]
  exact mul_mem ha.mem_unitary hb.mem_unitary

theorem IsUnitary.norm_le_one {a : Mat (Amplitude ℝ)} (h : a.IsUnitary n) :
    ‖a.complex n‖ ≤ 1 :=
  (CStarRing.norm_of_mem_unitary h.mem_unitary).le

theorem isUnitary_identity (n : ℕ) :
    (identity n : Mat (Amplitude ℝ)).IsUnitary n := by
  refine ⟨onQubits_identity n, ?_⟩
  rw [complex_identity]
  exact one_mem _

theorem OnQubits.complex_lift {m : Mat (Amplitude ℝ)} (h : m.OnQubits 1) :
    m.lift.complex 2 = place (fun _ : Fin 1 => (1 : Fin 2)) (m.complex 1) := by
  rw [complex, (toMatrix_lift h).2, place_map _ _ _ (map_zero _)]
  rfl

theorem IsUnitary.lift {m : Mat (Amplitude ℝ)} (h : m.IsUnitary 1) :
    m.lift.IsUnitary 2 := by
  refine ⟨(toMatrix_lift h.onQubits).1, ?_⟩
  rw [h.onQubits.complex_lift]
  exact Unitary.map_mem (placeHom _ (Function.injective_of_subsingleton _))
    h.mem_unitary

/-- Products of nearby unitaries. -/
theorem IsUnitary.closeUpTo_mul {a a' b b' : Mat (Amplitude ℝ)} {δ ε : ℝ}
    (ha : a.IsUnitary n) (ha' : a'.IsUnitary n) (hb : b.IsUnitary n)
    (hb' : b'.IsUnitary n) (h : CloseUpTo ⊥ δ (a.complex n) (a'.complex n))
    (h' : CloseUpTo ⊥ ε (b.complex n) (b'.complex n)) :
    CloseUpTo ⊥ (δ + ε) ((a.mul b).complex n) ((a'.mul b').complex n) := by
  rw [ha.onQubits.complex_mul hb.onQubits,
    ha'.onQubits.complex_mul hb'.onQubits]
  exact h.mul bot_le ha.norm_le_one hb'.norm_le_one h'

end Mat

/-- The same number of angles, each within `δ` of the other. -/
abbrev Nearby (δ : ℝ) : List ℝ → List ℝ → Prop :=
  List.Forall₂ fun a b => |a - b| ≤ δ

theorem isUnitary_runMatrixFrom (k : ℕ) {m : Mat (Amplitude ℝ)}
    (hm : m.IsUnitary 1) (x : List ℝ) : (runMatrixFrom k m x).IsUnitary 1 := by
  induction x generalizing k m with
  | nil => exact hm
  | cons θ x ih => exact ih (k + 1) ((Direction.isUnitary_rotation _ θ).mul hm)

/-- Each rotation of a run adds half of what its angle was moved by. -/
theorem closeUpTo_runMatrixFrom {δ ε : ℝ} (k : ℕ) {m m' : Mat (Amplitude ℝ)}
    (hm : m.IsUnitary 1) (hm' : m'.IsUnitary 1)
    (h : CloseUpTo ⊥ ε (m.complex 1) (m'.complex 1)) {x y : List ℝ}
    (hxy : Nearby δ x y) :
    CloseUpTo ⊥ (x.length * (δ / 2) + ε) ((runMatrixFrom k m x).complex 1)
      ((runMatrixFrom k m' y).complex 1) := by
  -- induction on the rotations, for any matrices already close
  induction hxy generalizing k m m' ε with
  | nil => exact h.mono (by simp)
  | @cons θ φ x y hθφ hxy ih =>
    have hθ := Direction.isUnitary_rotation (runAxis k).direction θ
    have hφ := Direction.isUnitary_rotation (runAxis k).direction φ
    have hturn :
        CloseUpTo ⊥ (δ / 2) (((runAxis k).direction.rotation θ).complex 1)
        (((runAxis k).direction.rotation φ).complex 1) := by
      rw [closeUpTo_bot_iff, Direction.complex_rotation,
        Direction.complex_rotation]
      exact (Direction.norm_turn_sub_le _ θ φ).trans (by linarith)
    have hrest :=
      ih (k + 1) (hθ.mul hm) (hφ.mul hm') (hθ.closeUpTo_mul hφ hm hm' hturn h)
    refine hrest.mono (le_of_eq ?_)
    rw [List.length_cons]
    push_cast
    ring

theorem isUnitary_runMatrix (x : List ℝ) : (runMatrix x).IsUnitary 1 :=
  isUnitary_runMatrixFrom 0 (Mat.isUnitary_identity 1) x

theorem closeUpTo_runMatrix {δ : ℝ} {x y : List ℝ} (hxy : Nearby δ x y) :
    CloseUpTo ⊥ (x.length * (δ / 2)) ((runMatrix x).complex 1)
      ((runMatrix y).complex 1) := by
  have hone := Mat.isUnitary_identity 1
  exact (closeUpTo_runMatrixFrom 0 hone hone (.refl _ _) hxy).mono
    (add_zero _).le

theorem closeUpTo_lift_runMatrix {δ : ℝ} {x y : List ℝ} (hxy : Nearby δ x y) :
    CloseUpTo ⊥ (x.length * (δ / 2)) ((runMatrix x).lift.complex 2)
      ((runMatrix y).lift.complex 2) := by
  rw [(isUnitary_runMatrix x).onQubits.complex_lift,
    (isUnitary_runMatrix y).onQubits.complex_lift]
  exact (closeUpTo_runMatrix hxy).place (Function.injective_of_subsingleton _)

theorem isUnitary_templateProduct (s : Shape) (depth : ℕ) (x : List ℝ) :
    (templateProduct s depth x).IsUnitary s.qubitCount := by
  cases s with
  | oneQubit => exact isUnitary_runMatrix x
  | twoQubit =>
    exact ((isUnitary_runMatrix _).lift.mul
      (FixedGate.isUnitary_matrix .cz)).mul
      (isUnitary_runMatrix _).lift

theorem closeUpTo_templateProduct (s : Shape) (depth : ℕ) {δ : ℝ} {x y : List ℝ}
    (hxy : Nearby δ x y) :
    CloseUpTo ⊥ (x.length * (δ / 2))
      ((templateProduct s depth x).complex s.qubitCount)
      ((templateProduct s depth y).complex s.qubitCount) := by
  cases s with
  | oneQubit => exact closeUpTo_runMatrix hxy
  | twoQubit =>
    have hflip := FixedGate.isUnitary_matrix .cz
    have hrun : ∀ z, (runMatrix z).lift.IsUnitary 2 :=
      fun z => (isUnitary_runMatrix z).lift
    have hbefore := closeUpTo_lift_runMatrix (List.forall₂_take depth hxy)
    have hafter := closeUpTo_lift_runMatrix (List.forall₂_drop depth hxy)
    have hmiddle :=
      (hrun _).closeUpTo_mul (hrun _) hflip hflip hafter (.refl _ _)
    have hall := ((hrun _).mul hflip).closeUpTo_mul ((hrun _).mul hflip)
      (hrun _) (hrun _) hmiddle
      hbefore
    refine hall.mono (le_of_eq ?_)
    -- the two runs share the angles between them
    have hlength :
        x.length = (x.drop depth).length + (x.take depth).length := by
      rw [List.length_drop, List.length_take]
      omega
    rw [hlength]
    push_cast
    ring

/-! ### Templates with their phase -/

/-- Points of the circle are no further apart than their angles. -/
theorem norm_cis_sub_le (a b : ℝ) :
    ‖(Amplitude.cis a).toComplex - (Amplitude.cis b).toComplex‖ ≤ |a - b| := by
  have hfactor : (Amplitude.cis a).toComplex - (Amplitude.cis b).toComplex
      = Complex.exp (b * Complex.I) *
        (Complex.exp (Complex.I * (a - b : ℝ)) - 1) := by
    rw [Amplitude.toComplex_cis, Amplitude.toComplex_cis, mul_sub, mul_one,
      ← Complex.exp_add]
    push_cast
    ring_nf
  rw [hfactor, norm_mul, Complex.norm_exp_ofReal_mul_I, one_mul]
  exact Real.norm_exp_I_mul_ofReal_sub_one_le

theorem Mat.OnQubits.complex_map_mul {m : Mat (Amplitude ℝ)} (h : m.OnQubits n)
    (phase : Amplitude ℝ) :
    (m.map fun v => v * phase).complex n = phase.toComplex • m.complex n := by
  rw [complex, h.toMatrix_map]
  ext i j
  show Amplitude.toComplex (_ * phase) = phase.toComplex * _
  rw [map_mul, mul_comm]
  rfl

/-- The phase counts for as much as two rotations. -/
theorem norm_template_sub_le (s : Shape) (depth : ℕ) {δ : ℝ} {x y : List ℝ}
    (hxy : Nearby δ x y) (hx : x ≠ []) :
    ‖((templateProduct s depth x.tail).map fun v =>
      v * Amplitude.cis (x.headD 0)).complex s.qubitCount
      - ((templateProduct s depth y.tail).map fun v =>
        v * Amplitude.cis (y.headD 0)).complex
        s.qubitCount‖ ≤ (x.length + 1) * (δ / 2) := by
  cases hxy with
  | nil => exact absurd rfl hx
  | @cons a b x y hab hxy =>
    have hA := isUnitary_templateProduct s depth x
    have hB := isUnitary_templateProduct s depth y
    have hAB := closeUpTo_bot_iff.mp (closeUpTo_templateProduct s depth hxy)
    have hphase := norm_cis_sub_le a b
    have hone : ‖(Amplitude.cis b).toComplex‖ = 1 := by
      rw [Amplitude.toComplex_cis, Complex.norm_exp_ofReal_mul_I]
    simp only [List.tail_cons, List.headD_cons]
    rw [hA.onQubits.complex_map_mul, hB.onQubits.complex_map_mul]
    have hnorm := hA.norm_le_one
    generalize (Amplitude.cis a).toComplex = p,
      (Amplitude.cis b).toComplex = q at *
    generalize (templateProduct s depth x).complex s.qubitCount = A,
      (templateProduct s depth y).complex s.qubitCount = B at *
    -- exchange the phase first, then the product
    calc ‖p • A - q • B‖ = ‖(p - q) • A + q • (A - B)‖ := by
          rw [sub_smul, smul_sub, sub_add_sub_cancel]
      _ ≤ ‖p - q‖ * ‖A‖ + ‖q‖ * ‖A - B‖ := by
          refine (norm_add_le _ _).trans ?_
          rw [norm_smul, norm_smul]
      _ ≤ δ * 1 + 1 * (x.length * (δ / 2)) := by
          rw [hone]
          have hδ : 0 ≤ δ := (abs_nonneg _).trans hab
          gcongr
          exact hphase.trans hab
      _ = ((a :: x).length + 1) * (δ / 2) := by
          rw [List.length_cons]
          push_cast
          ring

/-- Moving each angle by at most `δ` moves the square root of the residual by
half of `δ` for each rotation and `δ` for the phase, times the square root of
the dimension. -/
theorem Objective.sqrt_evaluate_le {target : Mat (Amplitude ℝ)} {depth : ℕ}
    {o : Objective ℝ} (ho : ofTarget target depth = .ok o) {δ : ℝ}
    {x y : List ℝ} {r r' : ℝ} (hr : o.evaluate x = .ok r)
    (hr' : o.evaluate y = .ok r') (hxy : Nearby δ x y) :
    √r ≤ √r' + √(2 ^ o.shape.qubitCount) * ((x.length + 1) * (δ / 2)) := by
  have hx := takes_of_evaluate_eq_ok hr
  have hy := takes_of_evaluate_eq_ok hr'
  rw [evaluate_eq_ok hx] at hr
  rw [evaluate_eq_ok hy] at hr'
  obtain rfl := Except.ok.inj hr
  obtain rfl := Except.ok.inj hr'
  have hshape : ∀ z : List ℝ, ((templateProduct o.shape o.depth z.tail).map
      fun v => v * Amplitude.cis (z.headD 0)).OnQubits o.shape.qubitCount :=
    fun z => (isUnitary_templateProduct _ _ _).onQubits.map _
  -- the residual moves no faster than the template
  refine (sqrt_residual_le ho (hshape x) (hshape y)).trans ?_
  gcongr
  exact norm_template_sub_le o.shape o.depth hxy hx.ne_nil

end Gimbal
