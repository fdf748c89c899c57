/-
Gimbal/Proofs/TemplateMeaning.lean

The two readings of a template's angles agree.  `templateUnitary` multiplies
matrices and `stepsOfAngles` lists steps; bound to qubits of a register, the
steps have the operator of the matrix on those qubits, up to the phase that the
first angle stands for:

    embed (templateUnitary s depth x) = exp (i * x₀) * unitary (steps of x)    (`template_eq_steps`).

A run of rotations is compared on a register of one qubit
(`toMatrix_runMatrix`), and `lift` is placement on the second of two
(`toMatrix_lift`); all other registers follow by placement.

Both readings accept exactly the angle counts of the depths 1, 2 and 3, over any
numbers.
-/
import Mathlib
import Gimbal.Proofs.Binding
import Gimbal.Proofs.KroneckerBlocks
import Gimbal.Proofs.UnitaryCircuit
import Gimbal.Template

namespace Gimbal

variable {R : Type}

/-! ### Angle counts -/

/-- There is a template of this depth, and it has so many angles. -/
def Shape.Takes (s : Shape) (depth count : ℕ) : Prop :=
  1 ≤ depth ∧ depth ≤ 3 ∧ count = s.angleCount depth

theorem Shape.depthOfCount?_eq_some_iff {s : Shape} {count depth : ℕ} :
    s.depthOfCount? count = some depth ↔ s.Takes depth count := by
  constructor
  · intro h
    unfold depthOfCount? at h
    split at h <;> cases h <;> exact ⟨by decide, by decide, rfl⟩
  · rintro ⟨hpos, hle, rfl⟩
    interval_cases depth <;> cases s <;> rfl

theorem checkTemplate_eq_ok_iff {s : Shape} {depth count : ℕ} :
    checkTemplate s depth count = .ok () ↔ s.Takes depth count := by
  have hdepth : isTemplateDepth depth = true ↔ 1 ≤ depth ∧ depth ≤ 3 := by
    rw [isTemplateDepth, Bool.and_eq_true, decide_eq_true_iff,
      decide_eq_true_iff, maxTemplateDepth]
  rw [checkTemplate, Shape.Takes, ← and_assoc, ← hdepth]
  cases isTemplateDepth depth <;> simp

/-- There is a phase in front of the other angles. -/
theorem Shape.Takes.ne_nil {s : Shape} {depth : ℕ} {x : List R}
    (h : s.Takes depth x.length) :
    x ≠ [] := by
  rintro rfl
  have hcount : 0 = s.angleCount depth := h.2.2
  cases s <;> simp [angleCount] at hcount

/-- What multiplying out gives, and when. -/
theorem templateUnitary_eq_ok_iff [Scalar R] {s : Shape} {depth : ℕ}
    {x : List R} {T : Mat (Amplitude R)} :
    templateUnitary s depth x = .ok T ↔ s.Takes depth x.length ∧
      (templateProduct s depth x.tail).map
        (fun v => v * Amplitude.cis (x.headD 0)) = T := by
  rw [templateUnitary, ← checkTemplate_eq_ok_iff]
  cases hcheck : checkTemplate s depth x.length with
  | error e => simp [bind, Except.bind]
  | ok u => simp [bind, Except.bind, pure, Except.pure]

/-- The steps of a template from the angles behind the phase. -/
def templateSteps (s : Shape) (depth : ℕ) (angles : List R) : Decomposition R :=
  match s with
  | .oneQubit => runSteps angles
  | .twoQubit =>
    runSteps (angles.take depth) ++ .cz :: runSteps (angles.drop depth)

theorem stepsOfAngles_eq_ok {s : Shape} {depth : ℕ} {x : List R}
    (h : s.Takes depth x.length) :
    stepsOfAngles s x = .ok (templateSteps s depth x.tail) := by
  rw [stepsOfAngles, Shape.depthOfCount?_eq_some_iff.mpr h]
  cases s <;> simp [templateSteps]

theorem stepsOfAngles_eq_error {s : Shape} {x : List R}
    (h : ¬ ∃ depth, s.Takes depth x.length) :
    stepsOfAngles s x = .error (.unsupportedAngleCount x.length) := by
  have hnone : s.depthOfCount? x.length = none := by
    refine Option.eq_none_iff_forall_ne_some.mpr fun depth hsome =>
      h ⟨depth, ?_⟩
    exact Shape.depthOfCount?_eq_some_iff.mp hsome
  rw [stepsOfAngles, hnone]

theorem exists_stepsOfAngles_eq_ok_iff {s : Shape} {x : List R} :
    (∃ d, stepsOfAngles s x = .ok d) ↔ ∃ depth, s.Takes depth x.length := by
  constructor
  · rintro ⟨d, hd⟩
    by_contra hnone
    rw [stepsOfAngles_eq_error hnone] at hd
    cases hd
  · rintro ⟨depth, h⟩
    exact ⟨_, stepsOfAngles_eq_ok h⟩

/-! ### Runs of rotations -/

/-- A run has rotations only, so it is bound to a target without regard to the
control. -/
theorem map_bindControlled_runSteps (c c' t : ℕ) (angles : List R) :
    (runSteps angles).map (Step.bindControlled c t)
      = (runSteps angles).map (Step.bindControlled c' t) := by
  rw [runSteps, List.map_map, List.map_map]
  rfl

theorem any_entangles_runSteps (angles : List R) :
    (runSteps angles).any Step.entangles = false := by
  rw [List.any_eq_false]
  intro s hs
  obtain ⟨p, -, rfl⟩ := List.mem_map.mp hs
  exact Bool.false_ne_true

/-- The product of a run, behind `m`, is the operator of its steps behind that
of `m`. -/
theorem toMatrix_runMatrixFrom (k : ℕ) {m : Mat (Amplitude ℝ)}
    (hm : m.OnQubits 1) (angles : List ℝ) :
    (runMatrixFrom k m angles).OnQubits 1 ∧
      (runMatrixFrom k m angles).toMatrix 1
        = Circuit.operator 1
          ((angles.zipIdx k).map fun p => .rotation (runAxis p.2) p.1 0)
          * m.toMatrix 1 := by
  -- the axis depends on how many rotations have gone before, so both `k` and
  -- `m` are general
  induction angles generalizing k m with
  | nil => exact ⟨hm, (one_mul _).symm⟩
  | cons θ angles ih =>
    have hrot :
        (Rotations.rotation (runAxis k) θ : Mat (Amplitude ℝ)).OnQubits 1 :=
      LawfulRotations.onQubits_rotation _ θ
    obtain ⟨hshape, hmat⟩ := ih (k + 1) (hrot.mul hm)
    refine ⟨hshape, hmat.trans ?_⟩
    rw [hrot.toMatrix_mul hm, List.zipIdx_cons, List.map_cons,
      Circuit.operator_cons, Entry.operator_rotation_zero, mul_assoc]

/-- A run on a register of one qubit. -/
theorem toMatrix_runMatrix (angles : List ℝ) :
    (runMatrix angles).OnQubits 1 ∧ (runMatrix angles).toMatrix 1
      = Circuit.operator 1
        ((runSteps angles).map (Step.bindControlled 0 0)) := by
  obtain ⟨hshape, hmat⟩ :=
    toMatrix_runMatrixFrom 0 (Mat.onQubits_identity 1) angles
  refine ⟨hshape, hmat.trans ?_⟩
  rw [Mat.toMatrix_identity, mul_one, runSteps, List.map_map]
  rfl

/-! ### Templates -/

/-- Lifting a matrix places it on the second of two qubits. -/
theorem Mat.toMatrix_lift {K : Type} [CommRing K] {m : Mat K}
    (hm : m.OnQubits 1) :
    m.lift.OnQubits 2 ∧
      m.lift.toMatrix 2 =
        place (fun _ : Fin 1 => (1 : Fin 2)) (m.toMatrix 1) := by
  have hlast : (fun _ : Fin 1 => (1 : Fin 2)) = Fin.natAdd 1 := by
    funext i
    match i with
    | ⟨0, _⟩ => rfl
  rw [hlast]
  exact ⟨(onQubits_identity 1).kron hm, hm.toMatrix_identity_kron 1⟩

/-- A run on the target of two qubits. -/
theorem operator_runSteps_target (c : ℕ) (angles : List ℝ) :
    Circuit.operator 2 ((runSteps angles).map (Step.bindControlled c 1))
      = (runMatrix angles).lift.toMatrix 2 := by
  obtain ⟨hshape, hmat⟩ := toMatrix_runMatrix angles
  have hone : ∀ q ∈ [1], q < 2 := by decide
  have hwires : (wires [1] hone : Fin 1 → Fin 2) = fun _ => 1 := by
    funext i
    match i with
    | ⟨0, _⟩ => rfl
  rw [(Mat.toMatrix_lift hshape).2, hmat, map_bindControlled_runSteps c 1]
  refine (operator_bindControlled hone (List.nodup_singleton 1) Nat.one_pos
    Nat.one_pos _).2.trans ?_
  exact congrArg (fun w : Fin 1 → Fin 2 => place w _) hwires

/-- The number of qubits of a shape. -/
def Shape.qubitCount : Shape → ℕ
  | .oneQubit => 1
  | .twoQubit => 2

/-- The matrix of a template without its phase is the operator of its steps
alone. -/
theorem toMatrix_templateProduct (s : Shape) (depth : ℕ) (angles : List ℝ) :
    (templateProduct s depth angles).OnQubits s.qubitCount ∧
      (templateProduct s depth angles).toMatrix s.qubitCount =
        Circuit.operator s.qubitCount
        ((templateSteps s depth angles).map
          (Step.bindControlled 0 (s.qubitCount - 1))) := by
  cases s with
  | oneQubit => exact toMatrix_runMatrix angles
  | twoQubit =>
    -- the run that acts last stands on the left of the flip
    have hafter :=
      (Mat.toMatrix_lift (toMatrix_runMatrix (angles.drop depth)).1).1
    have hbefore :=
      (Mat.toMatrix_lift (toMatrix_runMatrix (angles.take depth)).1).1
    have hflip := hafter.mul Mat.onQubits_controlledZ
    refine ⟨hflip.mul hbefore, (hflip.toMatrix_mul hbefore).trans ?_⟩
    rw [hafter.toMatrix_mul Mat.onQubits_controlledZ,
      ← operator_runSteps_target 0, ← operator_runSteps_target 0,
      ← Entry.operator_cz_zero_one (A := ℝ), ← Circuit.operator_cons,
      ← Circuit.operator_append]
    show _ = Circuit.operator 2 ((runSteps (angles.take depth) ++
      .cz :: runSteps (angles.drop depth)).map (Step.bindControlled 0 1))
    rw [List.map_append]
    rfl

/-! ### Templates on a register -/

/-- The steps of a template, bound to as many qubits as its shape has. -/
def Shape.bind? (s : Shape) (d : Decomposition R) (qs : List ℕ) :
    Option (Circuit R) :=
  match s, qs with
  | .oneQubit, [q] => d.mapM (Step.bindSingle? q)
  | .twoQubit, [c, t] => some (d.map (Step.bindControlled c t))
  | _, _ => none

theorem bind?_templateSteps {s : Shape} {qs : List ℕ}
    (hlen : qs.length = s.qubitCount) (depth : ℕ) (angles : List R) :
    s.bind? (templateSteps s depth angles) qs =
      some ((templateSteps s depth angles).map
      (Step.bindControlled (qs.getD 0 0) (qs.getD (s.qubitCount - 1) 0))) := by
  -- on one qubit no step entangles, on two every step is bound
  cases s with
  | oneQubit =>
    obtain ⟨q, rfl⟩ := List.length_eq_one_iff.mp hlen
    show (runSteps angles).mapM (Step.bindSingle? q) = _
    rw [Step.mapM_bindSingle?, any_entangles_runSteps,
      if_neg Bool.false_ne_true]
    rfl
  | twoQubit =>
    obtain ⟨c, t, rfl⟩ := List.length_eq_two.mp hlen
    rfl

/-- The bound steps of a template and the template on the same qubits of a
register. -/
theorem exists_unitary_template {s : Shape} {n : ℕ} {qs : List ℕ}
    (hlen : qs.length = s.qubitCount) (hnd : qs.Nodup) (hqs : ∀ q ∈ qs, q < n)
    (depth : ℕ) (angles : List ℝ) (phase : Amplitude ℝ) :
    ∃ c U E, s.bind? (templateSteps s depth angles) qs = some c ∧
      c.unitary n = some U ∧
      ((templateProduct s depth angles).map fun v => v * phase).embed n qs =
        some E ∧
      phase.toComplex • U.complex n = E.complex n := by
  obtain ⟨hshape, hmat⟩ := toMatrix_templateProduct s depth angles
  rw [← hlen] at hshape hmat
  have hpos : 0 < qs.length := by
    rw [hlen]
    cases s <;> exact Nat.succ_pos _
  obtain ⟨hfits, hop⟩ := operator_bindControlled (K := Amplitude ℝ) hqs hnd hpos
    (Nat.sub_lt hpos Nat.one_pos) (templateSteps s depth angles)
  obtain ⟨U, hU, -⟩ := hfits.exists_unitary (K := Amplitude ℝ)
  obtain ⟨E, hE, -, hplace⟩ :=
    Mat.embed_eq_some (hshape.map fun v => v * phase) hqs
  refine ⟨_, U, E, bind?_templateSteps hlen depth angles, hlen ▸ hU, hE, ?_⟩
  -- the phase comes out of the template and out of the placement
  have hscale :
      phase.toComplex •
        ((templateProduct s depth angles).toMatrix qs.length).map
      Amplitude.toComplex = (((templateProduct s depth angles).map
        fun v => v * phase).toMatrix qs.length).map Amplitude.toComplex := by
    rw [hshape.toMatrix_map]
    ext i j
    show phase.toComplex * _ = Amplitude.toComplex (_ * phase)
    rw [map_mul, mul_comm]
    rfl
  rw [Circuit.complex_of_unitary hU, Circuit.complex, hop, ← hmat,
    Mat.complex, hplace, place_map _ _ _ (map_zero _),
    place_map _ _ _ (map_zero _), ← place_smul, hscale]

/-- **A template and its gates are the same operator.**  Angles are listed as
steps exactly if they are as many as a template of some depth has, and
multiplied out exactly if the template of the given depth has as many.  Over
exact numbers the steps, bound to distinct qubits of any register, then have a
unitary, and times the phase of the first angle it is the template on these
qubits. -/
theorem template_eq_steps (s : Shape) :
    (∀ {R : Type} (x : List R),
      ((∃ d, stepsOfAngles s x = .ok d) ↔ ∃ depth, s.Takes depth x.length) ∧
      ((¬ ∃ depth, s.Takes depth x.length) →
        stepsOfAngles s x = .error (.unsupportedAngleCount x.length))) ∧
    (∀ {R : Type} [Scalar R] (depth : ℕ) (x : List R),
      (∃ T, templateUnitary s depth x = .ok T) ↔ s.Takes depth x.length) ∧
    ∀ (depth : ℕ) (x : List ℝ) (T : Mat (Amplitude ℝ)),
      templateUnitary s depth x = .ok T →
      ∃ (d : Decomposition ℝ) (φ : ℝ), stepsOfAngles s x = .ok d ∧
        x[0]? = some φ ∧
        ∀ (n : ℕ) (qs : List ℕ), qs.length = s.qubitCount → qs.Nodup →
          (∀ q ∈ qs, q < n) →
          ∃ c U E, s.bind? d qs = some c ∧ c.unitary n = some U ∧
            T.embed n qs = some E ∧
            Complex.exp (φ * Complex.I) • U.complex n = E.complex n := by
  refine ⟨fun x => ⟨exists_stepsOfAngles_eq_ok_iff, stepsOfAngles_eq_error⟩, ?_,
    ?_⟩
  · intro R _ depth x
    constructor
    · rintro ⟨T, hT⟩
      exact (templateUnitary_eq_ok_iff.mp hT).1
    · intro h
      exact ⟨_, templateUnitary_eq_ok_iff.mpr ⟨h, rfl⟩⟩
  · intro depth x T hT
    obtain ⟨htakes, rfl⟩ := templateUnitary_eq_ok_iff.mp hT
    obtain ⟨φ, angles, rfl⟩ := List.exists_cons_of_ne_nil htakes.ne_nil
    -- the first angle is the phase, the others are the steps
    refine ⟨_, φ, stepsOfAngles_eq_ok htakes, rfl, ?_⟩
    intro n qs hlen hnd hqs
    rw [← Amplitude.toComplex_cis]
    exact exists_unitary_template hlen hnd hqs depth angles (Amplitude.cis φ)

/-- The deepest template for two qubits, with its control behind its target. -/
theorem template_eq_steps_deepest :
    ∃ T U E : Mat (Amplitude ℝ),
      templateUnitary .twoQubit 3 [0.7, 0.1, 0.2, 0.3, 0.4, 0.5, 0.6] = .ok T ∧
      Circuit.unitary [.rz (0.1 : ℝ) 0, .rx 0.2 0, .rz 0.3 0, .cz 2 0,
        .rz 0.4 0, .rx 0.5 0,
        .rz 0.6 0] 3 = some U ∧
      T.embed 3 [2, 0] = some E ∧
        Complex.exp ((0.7 : ℝ) * Complex.I) • U.complex 3 = E.complex 3 := by
  obtain ⟨T, hT⟩ := ((template_eq_steps .twoQubit).2.1 3
    [(0.7 : ℝ), 0.1, 0.2, 0.3, 0.4, 0.5, 0.6]).mpr ⟨by decide, by decide, rfl⟩
  obtain ⟨d, φ, hd, hφ, h⟩ := (template_eq_steps .twoQubit).2.2 3 _ T hT
  obtain ⟨c, U, E, hc, hU, hE, heq⟩ := h 3 [2, 0] rfl (by decide) (by decide)
  obtain rfl := Except.ok.inj hd
  obtain rfl := Option.some.inj hφ
  obtain rfl := Option.some.inj hc
  exact ⟨T, U, E, hT, hU, hE, heq⟩

end Gimbal
