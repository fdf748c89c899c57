/-
Gimbal/Proofs/SearchBox.lean

What a search loses by drawing its angles from one turn, and what it gains with
the depth.

Without its phase a template is the operator `templateTurns`, made of one run of
rotations or of two.  Taking whole turns off the angles of a run changes its
sign, and a rotation by nothing changes nothing, wherever it stands:

    templateTurns s depth x = ± templateTurns s depth (angles of x in one turn)
    templateTurns s (depth + m) (x with m zeros behind each run) = templateTurns s depth x.

The phase takes up the sign.  So every template is one of any greater depth with
angles in one turn (`exists_templateUnitary_in_turn`), the residuals that the
box has room for are all residuals there are, and their infimum does not
increase with the depth.
-/
import Mathlib
import Gimbal.Proofs.EulerAngles
import Gimbal.Proofs.RoundedResidual

namespace Gimbal

open Complex (I)

/-! ### Runs with neutral rotations -/

theorem runTurns_append (k : ℕ) (x y : List ℝ) :
    runTurns k (x ++ y) = runTurns (k + x.length) y * runTurns k x := by
  induction x generalizing k with
  | nil => exact (mul_one _).symm
  | cons θ x ih =>
    rw [List.cons_append, runTurns, ih, runTurns, List.length_cons, mul_assoc,
      add_assoc, add_comm 1 x.length]

theorem runTurns_replicate_zero (k m : ℕ) :
    runTurns k (List.replicate m 0) = 1 := by
  induction m generalizing k with
  | zero => rfl
  | succ m ih =>
    rw [List.replicate_succ, runTurns, ih, Direction.turn_zero, mul_one]

/-- Rotations by nothing behind a run. -/
theorem runTurns_append_replicate_zero (k m : ℕ) (x : List ℝ) :
    runTurns k (x ++ List.replicate m 0) = runTurns k x := by
  rw [runTurns_append, runTurns_replicate_zero, one_mul]

/-! ### Templates as operators -/

/-- The second of two qubits. -/
def targetQubit : Fin 1 → Fin 2 := fun _ => 1

/-- The operator of a template without its phase. -/
noncomputable def templateTurns (s : Shape) (depth : ℕ) (x : List ℝ) :
    Matrix (Fin (2 ^ s.qubitCount)) (Fin (2 ^ s.qubitCount)) ℂ :=
  match s with
  | .oneQubit => runTurns 0 x
  | .twoQubit =>
    place targetQubit (runTurns 0 (x.drop depth)) * Mat.controlledZ.complex 2 *
      place targetQubit (runTurns 0 (x.take depth))

theorem complex_lift_runMatrix (x : List ℝ) :
    (runMatrix x).lift.complex 2 = place targetQubit (runTurns 0 x) := by
  rw [(isUnitary_runMatrix x).onQubits.complex_lift, complex_runMatrix]
  rfl

theorem complex_templateProduct (s : Shape) (depth : ℕ) (x : List ℝ) :
    (templateProduct s depth x).complex s.qubitCount =
      templateTurns s depth x := by
  cases s with
  | oneQubit => exact complex_runMatrix x
  | twoQubit =>
    -- a run on the target stands on either side of the flip
    have hafter := (isUnitary_runMatrix (x.drop depth)).lift.onQubits
    have hbefore := (isUnitary_runMatrix (x.take depth)).lift.onQubits
    have hflip := hafter.mul Mat.onQubits_controlledZ
    refine (hflip.complex_mul hbefore).trans ?_
    rw [hafter.complex_mul Mat.onQubits_controlledZ, complex_lift_runMatrix,
      complex_lift_runMatrix]
    rfl

/-- A template with its phase, by its operator. -/
theorem templateUnitary_cons_eq_ok_iff {s : Shape} {depth : ℕ} {φ : ℝ}
    {x : List ℝ} {T : Mat (Amplitude ℝ)} :
    templateUnitary s depth (φ :: x) = .ok T ↔ s.Takes depth (φ :: x).length ∧
      T.OnQubits s.qubitCount ∧
      T.complex s.qubitCount =
        Complex.exp (φ * I) • templateTurns s depth x := by
  have hshape := (isUnitary_templateProduct s depth x).onQubits
  have hphase := hshape.complex_map_mul (Amplitude.cis φ)
  rw [Amplitude.toComplex_cis, complex_templateProduct] at hphase
  rw [templateUnitary_eq_ok_iff, List.tail_cons, List.headD_cons]
  -- the shape of a template is known, so its operator decides
  refine and_congr_right fun _ => ?_
  constructor
  · rintro rfl
    exact ⟨hshape.map _, hphase⟩
  · rintro ⟨hT, hop⟩
    exact (hshape.map _).eq_of_complex_eq hT (hphase.trans hop.symm)

/-! ### Angles in one turn -/

/-- Reducing the angles of a template changes its sign as often as whole turns
are taken off. -/
theorem templateTurns_eq_smul_toIcoMod (s : Shape) (depth : ℕ) (x : List ℝ) :
    templateTurns s depth x =
      ((-1) ^ (x.map (toIcoDiv Real.two_pi_pos 0)).sum : ℂ) •
      templateTurns s depth (x.map (toIcoMod Real.two_pi_pos 0)) := by
  cases s with
  | oneQubit => exact runTurns_eq_smul_toIcoMod 0 x
  | twoQubit =>
    -- the signs of both runs come together, in whichever order they are counted
    have hsum : (x.map (toIcoDiv Real.two_pi_pos 0)).sum
        = ((x.drop depth).map (toIcoDiv Real.two_pi_pos 0)).sum
          + ((x.take depth).map (toIcoDiv Real.two_pi_pos 0)).sum := by
      rw [add_comm, ← List.sum_append, ← List.map_append, List.take_append_drop]
    simp only [templateTurns, ← List.map_drop, ← List.map_take]
    rw [runTurns_eq_smul_toIcoMod 0 (x.drop depth),
      runTurns_eq_smul_toIcoMod 0 (x.take depth), place_smul, place_smul,
      Matrix.smul_mul, Matrix.smul_mul, Matrix.mul_smul, smul_smul, hsum,
      zpow_add₀ (neg_ne_zero.mpr one_ne_zero)]
    rfl

/-! ### Deeper templates -/

/-- The angles of a template with so many zeros behind each of its runs. -/
def Shape.padRuns (s : Shape) (depth m : ℕ) (x : List ℝ) : List ℝ :=
  match s with
  | .oneQubit => x ++ List.replicate m 0
  | .twoQubit =>
    (x.take depth ++ List.replicate m 0) ++ (x.drop depth ++ List.replicate m 0)

theorem Shape.length_padRuns {s : Shape} {depth : ℕ} {x : List ℝ}
    (hx : x.length + 1 = s.angleCount depth) (m : ℕ) :
    (s.padRuns depth m x).length + 1 = s.angleCount (depth + m) := by
  cases s with
  | oneQubit =>
    simp only [angleCount, padRuns, List.length_append,
      List.length_replicate] at hx ⊢
    omega
  | twoQubit =>
    simp only [angleCount, padRuns, List.length_append, List.length_replicate,
      List.length_take, List.length_drop] at hx ⊢
    omega

theorem templateTurns_padRuns {s : Shape} {depth : ℕ} {x : List ℝ}
    (hx : x.length + 1 = s.angleCount depth) (m : ℕ) :
    templateTurns s (depth + m) (s.padRuns depth m x) =
      templateTurns s depth x := by
  cases s with
  | oneQubit => exact runTurns_append_replicate_zero 0 m x
  | twoQubit =>
    -- the zeros stand behind the first run, so the second one begins after them
    have hlength : (x.take depth ++ List.replicate m 0).length = depth + m := by
      simp only [Shape.angleCount, List.length_append, List.length_replicate,
        List.length_take] at hx ⊢
      omega
    simp only [templateTurns, Shape.padRuns]
    rw [List.take_left' hlength, List.drop_left' hlength,
      runTurns_append_replicate_zero, runTurns_append_replicate_zero]

/-- **Every template is in the box of each depth from its own on.** -/
theorem exists_templateUnitary_in_turn {s : Shape} {depth depth' : ℕ}
    {x : List ℝ} {T : Mat (Amplitude ℝ)}
    (hT : templateUnitary s depth x = .ok T) (hle : depth ≤ depth')
    (hdepth : depth' ≤ 3) :
    ∃ x' : List ℝ, (∀ θ ∈ x', 0 ≤ θ ∧ θ < tau) ∧
      templateUnitary s depth' x' = .ok T := by
  have hne := (templateUnitary_eq_ok_iff.mp hT).1.ne_nil
  obtain ⟨φ, x, rfl⟩ := List.exists_cons_of_ne_nil hne
  obtain ⟨⟨hpos, -, hcount⟩, hshape, hop⟩ :=
    templateUnitary_cons_eq_ok_iff.mp hT
  obtain ⟨m, rfl⟩ := Nat.exists_eq_add_of_le hle
  -- pad the runs first, then bring every angle into one turn
  obtain ⟨ψ, hψ, hturn⟩ := exists_phase_in_turn φ
    (templateTurns_eq_smul_toIcoMod s (depth + m) (s.padRuns depth m x))
  rw [templateTurns_padRuns hcount] at hturn
  refine ⟨ψ :: (s.padRuns depth m x).map (toIcoMod Real.two_pi_pos 0), ?_, ?_⟩
  · rw [List.forall_mem_cons, List.forall_mem_map]
    exact ⟨hψ, fun θ _ => toIcoMod_mem_turn θ⟩
  · refine templateUnitary_cons_eq_ok_iff.mpr ⟨⟨by omega, hdepth, ?_⟩, hshape,
      hop.trans hturn⟩
    rw [List.length_cons, List.length_map]
    exact Shape.length_padRuns hcount m

/-! ### Residuals over a box -/

/-- The vectors of angles that lie in one turn, its end included. -/
def turnBox : Set (List ℝ) := {x | ∀ θ ∈ x, 0 ≤ θ ∧ θ ≤ tau}

namespace Objective

/-- The residuals of the templates with angles in a given set. -/
def residualsOver (o : Objective ℝ) (A : Set (List ℝ)) : Set ℝ :=
  {r | ∃ x ∈ A, o.evaluate x = .ok r}

variable {target : Mat (Amplitude ℝ)} {depth depth' : ℕ} {o o' : Objective ℝ}

theorem residualsOver_mono (o : Objective ℝ) {A B : Set (List ℝ)} (h : A ⊆ B) :
    o.residualsOver A ⊆ o.residualsOver B := by
  rintro r ⟨x, hx, hr⟩
  exact ⟨x, h hx, hr⟩

theorem exists_templateUnitary_of_evaluate {x : List ℝ} {r : ℝ}
    (hr : o.evaluate x = .ok r) :
    ∃ T, templateUnitary o.shape o.depth x = .ok T ∧ o.residual T = r := by
  rw [evaluate] at hr
  -- without a template there is no residual
  cases hT : templateUnitary o.shape o.depth x with
  | error e =>
    rw [hT] at hr
    cases hr
  | ok T =>
    rw [hT] at hr
    exact ⟨T, rfl, Except.ok.inj hr⟩

/-- A residual belongs to the template and not to the angles or the depth. -/
theorem evaluate_congr (ho : ofTarget target depth = .ok o)
    (ho' : ofTarget target depth' = .ok o') {x x' : List ℝ}
    {T : Mat (Amplitude ℝ)} (hT : templateUnitary o.shape depth x = .ok T)
    (hT' : templateUnitary o.shape depth' x' = .ok T) :
    o'.evaluate x' = o.evaluate x := by
  obtain ⟨hshape, hdepth⟩ := ofTarget_eq_ok ho
  obtain ⟨hshape', hdepth'⟩ := ofTarget_eq_ok ho'
  have hsame : o'.shape = o.shape := Except.ok.inj (hshape'.symm.trans hshape)
  -- the residual reads the target and its mask, and neither depends on the
  -- depth
  have hresidual : o'.residual T = o.residual T := by
    rw [eq_of_ofTarget ho', eq_of_ofTarget ho]
    rfl
  rw [evaluate, evaluate, hsame, hdepth, hdepth', hT, hT']
  exact congrArg Except.ok hresidual

/-- What any angles achieve, angles in one turn achieve at every greater
depth. -/
theorem residualsOver_univ_subset (ho : ofTarget target depth = .ok o)
    (ho' : ofTarget target depth' = .ok o') (hle : depth ≤ depth')
    (hdepth : depth' ≤ 3) :
    o.residualsOver Set.univ ⊆ o'.residualsOver turnBox := by
  rintro r ⟨x, -, hr⟩
  obtain ⟨T, hT, -⟩ := exists_templateUnitary_of_evaluate hr
  rw [(ofTarget_eq_ok ho).2] at hT
  obtain ⟨x', hturn, hT'⟩ := exists_templateUnitary_in_turn hT hle hdepth
  refine ⟨x', fun θ hθ => ⟨(hturn θ hθ).1, (hturn θ hθ).2.le⟩, ?_⟩
  rw [evaluate_congr ho ho' hT hT', hr]

theorem residualsOver_turnBox (ho : ofTarget target depth = .ok o)
    (hdepth : depth ≤ 3) :
    o.residualsOver turnBox = o.residualsOver Set.univ :=
  Set.Subset.antisymm (o.residualsOver_mono (Set.subset_univ _))
    (residualsOver_univ_subset ho ho le_rfl hdepth)

/-- There are residuals, and none is negative. -/
theorem exists_isGLB_residualsOver (ho : ofTarget target depth = .ok o)
    (hpos : 1 ≤ depth) (hdepth : depth ≤ 3) :
    ∃ m, IsGLB (o.residualsOver turnBox) m := by
  have htakes :
      o.shape.Takes o.depth
        (List.replicate (o.shape.angleCount depth) (0 : ℝ)).length := by
    rw [List.length_replicate, (ofTarget_eq_ok ho).2]
    exact ⟨hpos, hdepth, rfl⟩
  have hnonempty : (o.residualsOver Set.univ).Nonempty :=
    ⟨_, _, Set.mem_univ _, evaluate_eq_ok htakes⟩
  -- no residual is negative, so the infimum is there
  have hbelow : BddBelow (o.residualsOver Set.univ) := by
    refine ⟨0, ?_⟩
    rintro r ⟨x, -, hr⟩
    exact evaluate_nonneg ho hr
  rw [residualsOver_turnBox ho hdepth]
  exact ⟨_, isGLB_csInf hnonempty hbelow⟩

end Objective

/-- **The box loses nothing, and depth only gains.**  The template with any real
angles is also one of each depth from its own to three, with all angles in one
turn.  So for every target the residuals over the box have the same infimum as
those over all angles, and at a greater depth it is not greater. -/
theorem search_box_complete :
    (∀ (s : Shape) (depth depth' : ℕ) (x : List ℝ), 1 ≤ depth → depth ≤ depth' →
      depth' ≤ 3 →
      x.length = s.angleCount depth →
      ∃ (x' : List ℝ) (T : Mat (Amplitude ℝ)), x'.length = s.angleCount depth' ∧
        (∀ θ ∈ x', 0 ≤ θ ∧ θ < tau) ∧ templateUnitary s depth x = .ok T ∧
        templateUnitary s depth' x' = .ok T) ∧
    ∀ (target : Mat (Amplitude ℝ)) (depth depth' : ℕ),
      target.rows = 2 ∧ target.cols = 2 ∨ target.rows = 4 ∧ target.cols = 4 →
      1 ≤ depth → depth ≤ depth' → depth' ≤ 3 →
      ∃ (o o' : Objective ℝ) (m m' : ℝ),
        Objective.ofTarget target depth = .ok o ∧
        Objective.ofTarget target depth' = .ok o' ∧
        IsGLB (o.residualsOver turnBox) m ∧ IsGLB (o.residualsOver Set.univ) m ∧
        IsGLB (o'.residualsOver turnBox) m' ∧
        IsGLB (o'.residualsOver Set.univ) m' ∧ m' ≤ m := by
  constructor
  · intro s depth depth' x hpos hle hdepth hlength
    have hT :=
      templateUnitary_eq_ok_iff.mpr ⟨⟨hpos, hle.trans hdepth, hlength⟩, rfl⟩
    obtain ⟨x', hturn, hT'⟩ := exists_templateUnitary_in_turn hT hle hdepth
    exact ⟨x', _, (templateUnitary_eq_ok_iff.mp hT').1.2.2, hturn, hT, hT'⟩
  · intro target depth depth' hsquare hpos hle hdepth
    obtain ⟨hother, -⟩ | ⟨-, shape, hshape⟩ := Shape.ofMat_cases target
    · exact absurd hsquare hother
    · obtain ⟨o, ho, -⟩ :=
        Objective.exists_ofTarget hshape hpos (hle.trans hdepth)
      obtain ⟨o', ho', -⟩ :=
        Objective.exists_ofTarget hshape (hpos.trans hle) hdepth
      obtain ⟨m, hm⟩ :=
        Objective.exists_isGLB_residualsOver ho hpos (hle.trans hdepth)
      obtain ⟨m', hm'⟩ :=
        Objective.exists_isGLB_residualsOver ho' (hpos.trans hle) hdepth
      -- at either depth the box has all the residuals that there are
      have hall := Objective.residualsOver_turnBox ho (hle.trans hdepth)
      have hall' := Objective.residualsOver_turnBox ho' hdepth
      refine ⟨o, o', m, m', ho, ho', hm, hall ▸ hm, hm', hall' ▸ hm', ?_⟩
      exact (hall ▸ hm).mono hm'
        (Objective.residualsOver_univ_subset ho ho' hle hdepth)

/-- A template of depth one with angles out of the box, at depth three, and the
residuals of the controlled flip at these depths. -/
theorem search_box_complete_deepest :
    (∃ (x' : List ℝ) (T : Mat (Amplitude ℝ)), x'.length = 7 ∧
      (∀ θ ∈ x', 0 ≤ θ ∧ θ < tau) ∧
      templateUnitary .twoQubit 1 [-1, 7, 20] = .ok T ∧
      templateUnitary .twoQubit 3 x' = .ok T) ∧
    ∃ (o o' : Objective ℝ) (m m' : ℝ),
      Objective.ofTarget FixedGate.cnot.matrix 1 = .ok o ∧
      Objective.ofTarget FixedGate.cnot.matrix 3 = .ok o' ∧
      IsGLB (o.residualsOver turnBox) m ∧
      IsGLB (o'.residualsOver turnBox) m' ∧ m' ≤ m := by
  refine ⟨search_box_complete.1 .twoQubit 1 3 [-1, 7, 20] le_rfl (by decide)
    le_rfl rfl, ?_⟩
  obtain ⟨o, o', m, m', ho, ho', hm, -, hm', -, hle⟩ :=
    search_box_complete.2 FixedGate.cnot.matrix 1 3 (Or.inr ⟨rfl, rfl⟩) le_rfl
      (by decide) le_rfl
  exact ⟨o, o', m, m', ho, ho', hm, hm', hle⟩

end Gimbal
