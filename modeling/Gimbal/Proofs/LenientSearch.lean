/-
Gimbal/Proofs/LenientSearch.lean

A search that keeps what it draws.  A quasi-Newton search whose gradient
tolerance exceeds every difference quotient of the residual converges at its
start (`minimize_lenient`).  So the first run of a synthesis is accepted with
the drawn angles, if these leave no full hundredth, and the synthesis has them
rounded (`synthesize_lenient_of_draw`).

The target is the phase flip of one qubit, times a phase; with templates of
depth one its residual is a sum of two cosines (`flipResidual_eq`).
-/
import Mathlib
import Gimbal.Proofs.BoxedSearch
import Gimbal.Proofs.MinimizerRuns
import Gimbal.Proofs.SynthesisOutcome
import Gimbal.Proofs.TemplateDistance

namespace Gimbal

/-! ### Hundredths -/

theorem floor_hundred_mul_eq_iff {r : ℝ} {k : ℤ} :
    ⌊100 * r⌋ = k ↔ (k : ℝ) / 100 ≤ r ∧ r < (k + 1) / 100 := by
  rw [Int.floor_eq_iff, div_le_iff₀ (by norm_num), lt_div_iff₀ (by norm_num),
    mul_comm]

/-- What is accepted has no full hundredth. -/
theorem Synthesizer.acceptable_iff {r : ℝ} : acceptable r = true ↔
      ⌊100 * r⌋ = 0 := by
  have hfloor : Scalar.floor (r * 100.0) = ((⌊100 * r⌋ : ℤ) : ℝ) := by
    show ((⌊r * 100.0⌋ : ℤ) : ℝ) = _
    norm_num [mul_comm]
  rw [acceptable, hfloor]
  show ((⌊100 * r⌋ : ℤ) : ℝ) == 0 ↔ _
  rw [beq_iff_eq, Int.cast_eq_zero]

/-! ### A flip with a phase -/

/-- The phase flip of one qubit, times a phase. -/
noncomputable def phasedFlip (phase : ℝ) : Mat (Amplitude ℝ) :=
  FixedGate.z.matrix.map fun v => v * Amplitude.cis phase

theorem phasedFlip_eq (phase : ℝ) :
    phasedFlip phase = .square (.cis phase) 0 0 (-.cis phase) := by
  simp [phasedFlip, FixedGate.matrix, Mat.map, Mat.square]

/-- Only the entries on its diagonal count. -/
noncomputable def flipObjective (phase : ℝ) : Objective ℝ :=
  ⟨phasedFlip phase, .oneQubit, 1, [true, false, false, true]⟩

theorem ofTarget_phasedFlip (phase : ℝ) :
    Objective.ofTarget (phasedFlip phase) 1 = .ok (flipObjective phase) := by
  have hpos : (0 : ℝ) < structuralZero := by
    show (0 : ℝ) < 1e-12
    norm_num
  have hone : (structuralZero : ℝ) < 1 := by
    show (1e-12 : ℝ) < 1
    norm_num
  have hmask :
      (phasedFlip phase).entries.toList.map
        (fun v => decide (structuralZero < v.norm))
      = [true, false, false, true] := by
    rw [phasedFlip_eq]
    simp [Mat.square, Amplitude.norm_eq, Amplitude.toComplex_cis,
      Complex.norm_exp_ofReal_mul_I, hone, hpos.le]
  show Except.ok (⟨phasedFlip phase, .oneQubit, 1, _⟩ : Objective ℝ) = _
  rw [hmask]
  rfl

namespace Amplitude

theorem neg_cis (x : ℝ) : (-cis x : Amplitude ℝ) = cis (x + Real.pi) := by
  apply Amplitude.ext
  · exact (Real.cos_add_pi x).symm
  · exact (Real.sin_add_pi x).symm

/-- The squared distance of two points of the circle. -/
theorem normSq_cis_sub (x y : ℝ) :
    (cis x - cis y : Amplitude ℝ).normSq = 2 - 2 * Real.cos (x - y) := by
  show (Real.cos x - Real.cos y) * (Real.cos x - Real.cos y)
    + (Real.sin x - Real.sin y) * (Real.sin x - Real.sin y) = _
  rw [Real.cos_sub]
  linear_combination Real.sin_sq_add_cos_sq x + Real.sin_sq_add_cos_sq y

end Amplitude

theorem runMatrix_singleton (b : ℝ) :
    runMatrix [b] = Mat.square (.cis (-b / 2.0)) 0 0 (.cis (b / 2.0)) := by
  have hone := Mat.onQubits_identity (K := Amplitude ℝ) 1
  have hrotation := (Direction.isUnitary_rotation .z b).onQubits
  have hmul :
      (Direction.z.rotation b).mul (.identity 1) = Direction.z.rotation b := by
    apply (hrotation.mul hone).eq_of_toMatrix_eq hrotation
    rw [hrotation.toMatrix_mul hone, Mat.toMatrix_identity, mul_one]
  exact hmul

/-- How far a phase and a rotation about the third axis are from a flip with a
phase. -/
noncomputable def flipResidual (phase a b : ℝ) : ℝ :=
  (Amplitude.cis phase - .cis (-b / 2.0 + a)).normSq
    + (-Amplitude.cis phase - .cis (b / 2.0 + a)).normSq

theorem flipResidual_eq (phase a b : ℝ) :
    flipResidual phase a b = 2 - 2 * Real.cos (phase - a + b / 2)
      + (2 - 2 * Real.cos (phase - a - b / 2 + Real.pi)) := by
  have hhalf : (2.0 : ℝ) = 2 := by norm_num
  rw [flipResidual, hhalf, Amplitude.neg_cis, Amplitude.normSq_cis_sub,
    Amplitude.normSq_cis_sub]
  ring_nf

theorem evaluate_flipObjective (phase a b : ℝ) :
    (flipObjective phase).evaluate [a, b] = .ok (flipResidual phase a b) := by
  have htakes :
      (flipObjective phase).shape.Takes (flipObjective phase).depth
        [a, b].length :=
    ⟨le_rfl, show 1 ≤ 3 by decide, rfl⟩
  have hproduct :
      (templateProduct .oneQubit 1 [b]).map (fun v => v * Amplitude.cis a)
      = Mat.square (.cis (-b / 2.0 + a)) 0 0 (.cis (b / 2.0 + a)) := by
    show (runMatrix [b]).map _ = _
    rw [runMatrix_singleton]
    simp [Mat.map, Mat.square, Amplitude.cis_mul_cis]
  rw [Objective.evaluate_eq_ok htakes]
  refine congrArg Except.ok ?_
  show (flipObjective phase).residual
    ((templateProduct .oneQubit 1 [b]).map fun v => v * .cis a) = _
  rw [hproduct]
  unfold flipObjective
  rw [phasedFlip_eq]
  -- the sum starts from zero
  exact congrArg (· + _) (zero_add _)

theorem score_flipObjective (phase a b : ℝ) :
    (flipObjective phase).score [a, b] = flipResidual phase a b := by
  rw [Objective.score, evaluate_flipObjective]

theorem score_flipObjective_mem (phase : ℝ) (x : List ℝ) :
    0 ≤ (flipObjective phase).score x ∧ (flipObjective phase).score x ≤ 8 := by
  -- angles of another number score one, two angles score the residual
  rcases hr : (flipObjective phase).evaluate x with e | r
  · rw [Objective.score, hr]
    show (0 : ℝ) ≤ 1 ∧ (1 : ℝ) ≤ 8
    norm_num
  · have hlength : x.length = 2 := (Objective.takes_of_evaluate_eq_ok hr).2.2
    obtain ⟨a, b, rfl⟩ := List.length_eq_two.mp hlength
    rw [score_flipObjective, flipResidual_eq]
    have hfirst := abs_le.mp (Real.abs_cos_le_one (phase - a + b / 2))
    have hsecond :=
      abs_le.mp (Real.abs_cos_le_one (phase - a - b / 2 + Real.pi))
    constructor <;> linarith

/-- Two minus twice the cosine is close to the square. -/
theorem two_sub_two_mul_cos_mem {u : ℝ} (hu : |u| ≤ 1) :
    u ^ 2 - u ^ 4 / 8 ≤ 2 - 2 * Real.cos u ∧ 2 - 2 * Real.cos u ≤ u ^ 2 := by
  have hlower := @Real.one_sub_sq_div_two_le_cos u
  have hbound := (abs_le.mp (Real.cos_bound hu)).2
  have hfourth : |u| ^ 4 = u ^ 4 := Even.pow_abs (by decide) u
  rw [hfourth] at hbound
  have hpos : 0 ≤ u ^ 4 := by positivity
  constructor <;> linarith

/-! ### A start that is the answer -/

/-- The difference quotients of a bounded objective. -/
theorem abs_le_of_mem_gradient {f : List ℝ → ℝ} {bound step : ℝ}
    (hf : ∀ x, 0 ≤ f x ∧ f x ≤ bound) (hstep : 0 < step) {x : List ℝ} {g : ℝ}
    (hg : g ∈ gradient f x step) :
    |g| ≤ bound / (2 * step) := by
  obtain ⟨p, -, rfl⟩ := List.mem_map.mp hg
  have hwidth : (2.0 : ℝ) * step = 2 * step := by norm_num
  have hdiff : ∀ y z, |f y - f z| ≤ bound := by
    intro y z
    rw [abs_le]
    constructor <;> linarith [hf y, hf z]
  show |(f _ - f _) / (2.0 * step)| ≤ _
  rw [hwidth, abs_div, abs_of_pos (by positivity : 0 < 2 * step)]
  gcongr
  exact hdiff _ _

theorem QuasiNewton.maxAbs_freePart_le {it : Iterate ℝ} {bound : ℝ}
    (hbound : 0 ≤ bound) (h : ∀ g ∈ it.gradient, |g| ≤ bound)
    (box : List (Interval ℝ)) :
    maxAbs (freePart box it) ≤ bound := by
  refine maxAbs_le_iff.mpr ⟨hbound, ?_⟩
  intro v hv
  obtain ⟨i, hi, rfl⟩ := List.mem_iff_getElem.mp hv
  simp only [freePart, release, List.getElem_zipWith]
  split
  · show |(0 : ℝ)| ≤ bound
    rwa [abs_zero]
  · exact h _ (List.getElem_mem _)

theorem project_replicate {lower upper : ℝ} {x : List ℝ}
    (h : ∀ a ∈ x, lower ≤ a ∧ a ≤ upper) (n : ℕ) :
    project (List.replicate n ⟨lower, upper⟩) x = x := by
  induction n generalizing x with
  | zero => rfl
  | succ n ih =>
    cases x with
    | nil => rfl
    | cons a x =>
      obtain ⟨⟨hlower, hupper⟩, hx⟩ := List.forall_mem_cons.mp h
      rw [List.replicate_succ, project, ih hx, Interval.clamp,
        if_neg (not_lt.mpr hlower), if_neg (not_lt.mpr hupper)]

/-- One run from one start at the least depth, with a tolerance that no gradient
here exceeds. -/
noncomputable def Config.lenient : Config ℝ :=
  { Config.default with
    seed := 316, maxDepth := 1, maxAttempts := 1, maxRestarts := 1,
    gradientTolerance := 1000000000 }

theorem minimize_lenient (seed : UInt64) (phase : ℝ) {x : List ℝ}
    (hx : ∀ a ∈ x, 0 ≤ a ∧ a ≤ tau) (n : ℕ) :
    (Synthesizer.ofConfig (Config.lenient.withSeed seed)).oneQubit.minimize
        (flipObjective phase).score x (List.replicate n ⟨0, tau⟩)
      = .ok ⟨x, (flipObjective phase).score x, true, 0,
          .gradientBelowTolerance⟩ := by
  let p : QuasiNewton ℝ :=
    { QuasiNewton.default with
      gradientTolerance := 1000000000, maxIterations := 2000 }
  have hmemory : p.memory ≤ QuasiNewton.memoryLimit :=
    show 10 ≤ QuasiNewton.memoryLimit by decide
  have hturn : (0 : ℝ) ≤ tau := by
    rw [Exact.tau_eq]
    positivity
  refine (QuasiNewton.minimize_of_proper hmemory
    (isProper_of_mem_turns hturn)).trans (congrArg Except.ok ?_)
  -- the tolerance is so large that the search stops where it starts
  rw [QuasiNewton.iterate_of_flat 0 (by decide) rfl ?_]
  · show (⟨project _ x, (flipObjective phase).score (project _ x), true, 0, _⟩ :
      Minimum ℝ ℝ) = _
    rw [project_replicate hx]
  · -- the quotients are at most `8 / 2e-6`
    show _ ≤ (1000000000 : ℝ)
    apply QuasiNewton.maxAbs_freePart_le (by norm_num)
    intro g hg
    refine (abs_le_of_mem_gradient (score_flipObjective_mem phase) ?_ hg).trans
      ?_
    · show (0 : ℝ) < 1e-6
      norm_num
    · show 8 / (2 * (1e-6 : ℝ)) ≤ _
      norm_num

/-! ### From the draw to the synthesis -/

/-- The first two angles of a seed, from the first two words of its
keystream. -/
theorem drawMany_two {seed first second : UInt64}
    (hfirst : Keystream.wordAt (Keystream.ofSeed seed).key 0 = first)
    (hsecond : Keystream.wordAt (Keystream.ofSeed seed).key 1 = second) :
    (drawMany 2 (Keystream.ofSeed seed)).1 =
      [((first >>> 12).toNat : ℝ) / (0x10000000000000 : ℕ) * (2 * Real.pi),
        ((second >>> 12).toNat : ℝ) / (0x10000000000000 : ℕ)
          * (2 * Real.pi)] := by
  subst hfirst hsecond
  rfl

theorem flipResidual_le {phase a b c d : ℝ} (hc : |phase - a + b / 2| ≤ c)
    (hd : |phase - a - b / 2 + Real.pi| ≤ d) (hcone : c ≤ 1) (hdone : d ≤ 1) :
    flipResidual phase a b ≤ c ^ 2 + d ^ 2 := by
  have hfirst := (two_sub_two_mul_cos_mem (hc.trans hcone)).2
  have hsecond := (two_sub_two_mul_cos_mem (hd.trans hdone)).2
  rw [← sq_abs] at hfirst hsecond
  rw [flipResidual_eq]
  exact add_le_add (hfirst.trans (pow_le_pow_left₀ (abs_nonneg _) hc 2))
    (hsecond.trans (pow_le_pow_left₀ (abs_nonneg _) hd 2))

/-- A number within half a hundredth of a hundredth is rounded to it. -/
theorem roundHundredth_eq {x r : ℝ} (k : ℕ) (hr : r = k / 100) (hx : 0 ≤ x)
    (hlower : r - 0.005 ≤ x) (hupper : x < r + 0.005) :
    roundHundredth x = r := by
  subst hr
  have hscale : x * 100.0 = 100 * x := by norm_num [mul_comm]
  -- rounding is the floor of a hundred times the number, moved by a half
  have hfloor : ⌊100 * x + 1 / 2⌋ = (k : ℤ) := by
    rw [Int.floor_eq_iff]
    push_cast
    constructor <;> linarith
  have hround : Scalar.round (x * 100.0) = (k : ℝ) := by
    show (if 0 ≤ x * 100.0 then ((⌊x * 100.0 + 1 / 2⌋ : ℤ) : ℝ) else _) = _
    rw [hscale, if_pos (by positivity), hfloor, Int.cast_natCast]
  show Scalar.round (x * 100.0) / 100.0 = _
  rw [hround]
  norm_num

/-- The angles that are drawn are accepted as they are, and rounded. -/
theorem synthesize_lenient_of_draw {seed : UInt64} {phase a b a' b' : ℝ}
    (hdraw : (drawMany 2 (Keystream.ofSeed seed)).1 = [a, b])
    (ha : 0 ≤ a ∧ a ≤ tau) (hb : 0 ≤ b ∧ b ≤ tau)
    (hlt : flipResidual phase a b < 0.01) (ha' : roundHundredth a = a')
    (hb' : roundHundredth b = b') :
    ((Synthesizer.ofConfig (Config.lenient.withSeed seed)).synthesize
        (phasedFlip phase)).1
      = .ok ⟨.oneQubit, 1, [a', b'], flipResidual phase a' b'⟩ := by
  have hrun :
      (Synthesizer.ofConfig (Config.lenient.withSeed seed)).oneQubit.minimize
      (flipObjective phase).score (drawMany 2 (Keystream.ofSeed seed)).1
      (List.replicate 2 ⟨0, tau⟩)
        = .ok ⟨[a, b], flipResidual phase a b, true, 0,
            .gradientBelowTolerance⟩ := by
    rw [hdraw, ← score_flipObjective]
    apply minimize_lenient
    simp only [List.forall_mem_cons]
    exact ⟨ha, hb, by simp⟩
  have haccept : Synthesizer.acceptable (flipResidual phase a b) = true := by
    rw [Synthesizer.acceptable_iff, floor_hundred_mul_eq_iff]
    constructor
    · simpa [score_flipObjective] using (score_flipObjective_mem phase [a, b]).1
    · norm_num at hlt ⊢
      exact hlt
  have hfound : Synthesizer.ofRun (flipObjective phase)
      ⟨[a, b], flipResidual phase a b, true, 0, .gradientBelowTolerance⟩
        = .ok ⟨.oneQubit, 1, [a', b'], flipResidual phase a' b'⟩ := by
    have hround : [a, b].map roundHundredth = [a', b'] := by
      rw [List.map_cons, List.map_cons, List.map_nil, ha', hb']
    simp only [Synthesizer.ofRun, hround, evaluate_flipObjective]
    rfl
  exact Synthesizer.synthesize_of_first_run (Nat.succ_ne_zero 0)
    (Nat.succ_ne_zero 0) (Nat.succ_ne_zero 0)
    (ofTarget_phasedFlip phase) hrun rfl haccept hfound

end Gimbal
