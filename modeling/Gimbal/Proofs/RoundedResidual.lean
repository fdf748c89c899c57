/-
Gimbal/Proofs/RoundedResidual.lean

What rounding leaves of an accepted residual.  A run is accepted for the
residual at the point where the minimizer stopped, less than a hundredth; the
synthesis has the angles of that point in hundredths and the residual of these.
Rounding moves an angle by half a hundredth at most, so

    √(rounded residual) ≤ √(accepted residual) + margin,

with a margin of at most `0.04` (`roundingMargin`).  The rounded residual is
therefore less than two hundredths, and less than one where the accepted
residual leaves the margin.

It can be more than one.  A quasi-Newton search with a generous tolerance
answers with the angles it has drawn, and for a phase flip with a phase of
`2.832` and the seed `316` rounding these takes the residual from `0.0094` to
`0.0108`.
-/
import Mathlib
import Gimbal.Proofs.LenientSearch

namespace Gimbal

variable {G : Type}

/-! ### The margin -/

/-- How far rounding the angles of a template can move the square root of its
residual. -/
noncomputable def roundingMargin (s : Shape) (depth : ℕ) : ℝ :=
  √((2 ^ s.qubitCount : ℕ) : ℝ) * ((s.angleCount depth + 1) * 0.0025)

theorem roundingMargin_le (s : Shape) {depth : ℕ} (h : depth ≤ 3) :
    roundingMargin s depth ≤ 0.04 := by
  cases s with
  | oneQubit =>
    have hsqrt : √((2 ^ 1 : ℕ) : ℝ) ≤ 2 := by
      rw [Real.sqrt_le_left two_pos.le]
      norm_num
    have hcount : ((depth + 1 : ℕ) : ℝ) ≤ (3 + 1 : ℕ) := by gcongr
    calc √((2 ^ 1 : ℕ) : ℝ) * (((depth + 1 : ℕ) + 1) * 0.0025)
        ≤ 2 * (((3 + 1 : ℕ) + 1) * 0.0025) := by gcongr
      _ ≤ 0.04 := by norm_num
  | twoQubit =>
    have hsqrt : √((2 ^ 2 : ℕ) : ℝ) = 2 := by
      rw [Nat.cast_pow, Nat.cast_ofNat]
      exact Real.sqrt_sq two_pos.le
    have hcount : ((2 * depth + 1 : ℕ) : ℝ) ≤ (2 * 3 + 1 : ℕ) := by gcongr
    calc √((2 ^ 2 : ℕ) : ℝ) * (((2 * depth + 1 : ℕ) + 1) * 0.0025)
        ≤ 2 * (((2 * 3 + 1 : ℕ) + 1) * 0.0025) := by
          rw [hsqrt]
          gcongr
      _ = 0.04 := by norm_num

/-- Rounded angles are near the angles. -/
theorem nearby_map_roundHundredth (x : List ℝ) :
    Nearby 0.005 (x.map roundHundredth) x := by
  rw [Nearby, List.forall₂_map_left_iff, List.forall₂_same]
  intro θ _
  exact Exact.abs_roundHundredth_sub_le θ

/-- Rounding moves the square root of a residual by the margin at most. -/
theorem Objective.sqrt_evaluate_round_le {target : Mat (Amplitude ℝ)}
    {depth : ℕ} {o : Objective ℝ} (ho : ofTarget target depth = .ok o)
    {x : List ℝ} {r r' : ℝ} (hr : o.evaluate x = .ok r)
    (hr' : o.evaluate (x.map roundHundredth) = .ok r') :
    √r' ≤ √r + roundingMargin o.shape o.depth := by
  have hmove := sqrt_evaluate_le ho hr' hr (nearby_map_roundHundredth x)
  have hcount : (x.map roundHundredth).length = o.shape.angleCount o.depth :=
    (takes_of_evaluate_eq_ok hr').2.2
  rw [hcount] at hmove
  refine hmove.trans (le_of_eq ?_)
  rw [roundingMargin]
  push_cast
  norm_num

theorem Objective.evaluate_nonneg {target : Mat (Amplitude ℝ)} {depth : ℕ}
    {o : Objective ℝ} (ho : ofTarget target depth = .ok o) {x : List ℝ} {r : ℝ}
    (hr : o.evaluate x = .ok r) : 0 ≤ r := by
  rw [evaluate_eq_ok (takes_of_evaluate_eq_ok hr)] at hr
  obtain rfl := Except.ok.inj hr
  exact residual_nonneg ho ((isUnitary_templateProduct _ _ _).onQubits.map _)

/-! ### Accepted runs -/

namespace Synthesizer

/-- A converged run of the minimizer with no full hundredth of residual, at
whose point the synthesis has its angles and its residual after rounding. -/
structure Rounds (s : Synthesizer G ℝ) (target : Mat (Amplitude ℝ))
    (found : Synthesis ℝ) (o : Objective ℝ) (run : Minimum ℝ ℝ) : Prop where
  ofTarget_eq : Objective.ofTarget target found.depth = .ok o
  shape_eq : o.shape = found.shape
  minimize_eq : ∃ start, (s.minimizerFor o.shape).minimize o.score start
    (List.replicate o.dimension ⟨0, tau⟩) = .ok run
  converged : run.converged = true
  evaluate_point : o.evaluate run.point = .ok run.value
  floor_eq : ⌊100 * run.value⌋ = 0
  angles_eq : found.angles = run.point.map roundHundredth
  evaluate_angles : o.evaluate found.angles = .ok found.residual

variable {s : Synthesizer G ℝ} {target : Mat (Amplitude ℝ)}
  {found : Synthesis ℝ} {o : Objective ℝ}
  {run : Minimum ℝ ℝ}

theorem reports_minimizerFor (hone : s.oneQubit.Reports)
    (htwo : s.twoQubit.Reports) (shape : Shape) :
    (s.minimizerFor shape).Reports := by
  cases shape with
  | oneQubit => exact hone
  | twoQubit => exact htwo

theorem Accepted.exists_rounds [AngleSource G ℝ] (hone : s.oneQubit.Reports)
    (htwo : s.twoQubit.Reports) (h : s.Accepted target found) :
    ∃ o run, s.Rounds target found o run := by
  obtain ⟨depth, -, o, g, run, ho, hrun, hconverged, haccept, hfound⟩ := h
  obtain ⟨r, hr, rfl⟩ := ofRun_eq_ok hfound
  -- what is rounded has as many angles, so the score of the point is a residual
  have htakes : o.shape.Takes o.depth run.point.length := by
    rw [← List.length_map]
    exact Objective.takes_of_evaluate_eq_ok hr
  have hvalue : o.evaluate run.point = .ok run.value := by
    rw [reports_minimizerFor hone htwo _ _ _ _ _ hrun, Objective.score,
      Objective.evaluate_eq_ok htakes]
  have hdepth : o.depth = depth := (Objective.ofTarget_eq_ok ho).2
  exact ⟨o, run,
    ⟨hdepth ▸ ho, rfl, ⟨_, hrun⟩, hconverged, hvalue, acceptable_iff.mp haccept,
      rfl, hr⟩⟩

namespace Rounds

theorem sqrt_residual_le (h : s.Rounds target found o run) :
    √found.residual ≤ √run.value + roundingMargin found.shape found.depth := by
  have hround := h.evaluate_angles
  rw [h.angles_eq] at hround
  have hle :=
    Objective.sqrt_evaluate_round_le h.ofTarget_eq h.evaluate_point hround
  rwa [h.shape_eq, (Objective.ofTarget_eq_ok h.ofTarget_eq).2] at hle

theorem residual_nonneg (h : s.Rounds target found o run) :
    0 ≤ found.residual :=
  Objective.evaluate_nonneg h.ofTarget_eq h.evaluate_angles

/-- A residual that leaves the margin keeps its full hundredths at zero. -/
theorem floor_eq_zero (h : s.Rounds target found o run)
    (hmargin : √run.value + roundingMargin found.shape found.depth < 0.1) :
    ⌊100 * found.residual⌋ = 0 := by
  have hsqrt : √found.residual < 0.1 := h.sqrt_residual_le.trans_lt hmargin
  have hlt : found.residual < 0.1 ^ 2 := (Real.sqrt_lt' (by norm_num)).mp hsqrt
  rw [floor_hundred_mul_eq_iff]
  constructor
  · simpa using h.residual_nonneg
  · norm_num at hlt ⊢
    exact hlt

/-- The margin is never more than another hundredth. -/
theorem floor_eq_zero_or_one (h : s.Rounds target found o run) :
    ⌊100 * found.residual⌋ = 0 ∨ ⌊100 * found.residual⌋ = 1 := by
  have hdepth : found.depth ≤ 3 := by
    rw [← (Objective.ofTarget_eq_ok h.ofTarget_eq).2]
    exact (Objective.takes_of_evaluate_eq_ok h.evaluate_point).2.1
  -- an accepted run is below a hundredth before rounding
  have hvalue : run.value < 0.1 ^ 2 := by
    have hfloor := (floor_hundred_mul_eq_iff.mp h.floor_eq).2
    norm_num at hfloor ⊢
    exact hfloor
  -- in square roots, rounding costs at most the margin
  have hsqrt : √found.residual < 0.14 :=
    calc √found.residual
        ≤ √run.value + roundingMargin found.shape found.depth :=
          h.sqrt_residual_le
      _ < 0.1 + 0.04 := by
          apply add_lt_add_of_lt_of_le
          · exact (Real.sqrt_lt' (by norm_num)).mpr hvalue
          · exact roundingMargin_le _ hdepth
      _ = 0.14 := by norm_num
  have hlt : found.residual < 0.14 ^ 2 := (Real.sqrt_lt' (by norm_num)).mp hsqrt
  have hnonneg := h.residual_nonneg
  have hlower : (0 : ℤ) ≤ ⌊100 * found.residual⌋ :=
    Int.floor_nonneg.mpr (by linarith)
  have hupper : ⌊100 * found.residual⌋ < 2 := by
    rw [Int.floor_lt]
    norm_num at hlt ⊢
    linarith
  omega

end Rounds

/-- **Rounding costs an accepted synthesis at most one hundredth of residual.**
Both built-in minimizers report the objective at the point they report, for all
settings.  With any two minimizers that do, a search that succeeds has accepted
the residual of a converged run, with no full hundredth; the synthesis has the
angles of its point in hundredths and the residual of these.  The square root of
the residual has grown by the margin at most; it has no full hundredth where the
margin was left, and never more than one. -/
theorem residual_after_rounding :
    (∀ config : Config ℝ, (ofConfig config).oneQubit.Reports ∧
      (ofConfig config).twoQubit.Reports) ∧
    ∀ {G : Type} [AngleSource G ℝ] (s : Synthesizer G ℝ)
      (target : Mat (Amplitude ℝ))
      (found : Synthesis ℝ), s.oneQubit.Reports → s.twoQubit.Reports →
      (s.synthesize target).1 = .ok found →
      ∃ o run, s.Rounds target found o run ∧
        √found.residual ≤ √run.value + roundingMargin found.shape found.depth ∧
        (√run.value + roundingMargin found.shape found.depth < 0.1 →
          ⌊100 * found.residual⌋ = 0) ∧
        (⌊100 * found.residual⌋ = 0 ∨ ⌊100 * found.residual⌋ = 1) := by
  refine ⟨fun config =>
    ⟨QuasiNewton.reports_minimizer _, SimplexSearch.reports_minimizer _⟩, ?_⟩
  intro G _ s target found hone htwo hok
  obtain ⟨o, run, hrounds⟩ :=
    (accepted_of_synthesize hok).exists_rounds hone htwo
  exact ⟨o, run, hrounds, hrounds.sqrt_residual_le, hrounds.floor_eq_zero,
    hrounds.floor_eq_zero_or_one⟩

end Synthesizer

/-! ### A residual that rounding takes over the threshold -/

/-- The first two angles of the seed, to four places. -/
theorem exists_drawMany_lenient :
    ∃ a b : ℝ, (drawMany 2 (Keystream.ofSeed 316)).1 = [a, b] ∧
      (4.3348 < a ∧ a < 4.3349) ∧ 3.1566 < b ∧ b < 3.1567 := by
  have hfirst : Keystream.wordAt (Keystream.ofSeed 316).key 0 =
      12726555967807879962 := by decide +kernel
  have hsecond : Keystream.wordAt (Keystream.ofSeed 316).key 1 =
      9267679177920811538 := by decide +kernel
  refine ⟨_, _, drawMany_two hfirst hsecond, ?_⟩
  -- the two words of the keystream are known; their upper bits give the angles
  rw [show ((12726555967807879962 : UInt64) >>> 12).toNat = 3107069328078095 by
      decide,
    show ((9267679177920811538 : UInt64) >>> 12).toNat = 2262616986797073 by
      decide]
  have hlower := Real.pi_gt_d6
  have hupper := Real.pi_lt_d6
  norm_num at hlower hupper ⊢
  refine ⟨⟨?_, ?_⟩, ?_, ?_⟩ <;> linarith

theorem flipResidual_drawn {a b : ℝ} (ha : 4.3348 < a ∧ a < 4.3349)
    (hb : 3.1566 < b ∧ b < 3.1567) : flipResidual 2.832 a b < 0.01 := by
  have hlower := Real.pi_gt_d6
  have hupper := Real.pi_lt_d6
  obtain ⟨halower, haupper⟩ := ha
  obtain ⟨hblower, hbupper⟩ := hb
  have hfirst : |2.832 - a + b / 2| ≤ 0.0756 := by
    rw [abs_le]
    constructor <;> linarith
  have hsecond : |2.832 - a - b / 2 + Real.pi| ≤ 0.0605 := by
    rw [abs_le]
    constructor <;> linarith
  refine (flipResidual_le hfirst hsecond ?_ ?_).trans_lt ?_ <;> norm_num

theorem floor_flipResidual_rounded :
    ⌊100 * flipResidual 2.832 4.33 3.16⌋ ≠ 0 := by
  intro hzero
  have hlt := (floor_hundred_mul_eq_iff.mp hzero).2
  have hlower := Real.pi_gt_d6
  have hupper := Real.pi_lt_d6
  have hfirst : (2.832 - 4.33 + 3.16 / 2 : ℝ) = 0.082 := by norm_num
  obtain ⟨u, hu⟩ : ∃ u, (2.832 - 4.33 - 3.16 / 2 + Real.pi : ℝ) = u := ⟨_, rfl⟩
  rw [flipResidual_eq, hfirst, hu, Int.cast_zero] at hlt
  have hulower : 0.0635 ≤ u := by linarith
  have huupper : u ≤ 0.0636 := by linarith
  -- the cosines are bounded by their expansion up to the fourth power
  have hfirst' :=
    (@two_sub_two_mul_cos_mem 0.082
      (by rw [abs_le]; constructor <;> norm_num)).1
  have hsecond' :=
    (@two_sub_two_mul_cos_mem u (by rw [abs_le]; constructor <;> linarith)).1
  have hsquare : (0.0635 : ℝ) ^ 2 ≤ u ^ 2 :=
    pow_le_pow_left₀ (by norm_num) hulower 2
  have hfourth : u ^ 4 ≤ (0.0636 : ℝ) ^ 4 :=
    pow_le_pow_left₀ (by linarith) huupper 4
  linarith

theorem synthesize_lenient :
    ((Synthesizer.ofConfig .lenient).synthesize (phasedFlip 2.832)).1
      = .ok ⟨.oneQubit, 1, [4.33, 3.16], flipResidual 2.832 4.33 3.16⟩ := by
  obtain ⟨a, b, hdraw, ha, hb⟩ := exists_drawMany_lenient
  have hpi := Real.pi_gt_d6
  have hlt := flipResidual_drawn ha hb
  refine synthesize_lenient_of_draw hdraw ?_ ?_ hlt ?_ ?_
  · rw [Exact.tau_eq]
    constructor <;> linarith
  · rw [Exact.tau_eq]
    constructor <;> linarith
  · apply roundHundredth_eq 433 (by norm_num) <;> linarith
  · apply roundHundredth_eq 316 (by norm_num) <;> linarith

namespace Synthesizer

/-- The search for the flip with a phase: its residual has one full hundredth
after rounding, and the square root of it is within the margin. -/
theorem residual_after_rounding_lenient :
    ∃ (found : Synthesis ℝ) (o : Objective ℝ) (run : Minimum ℝ ℝ),
      ((ofConfig .lenient).synthesize (phasedFlip 2.832)).1 = .ok found ∧
        (ofConfig .lenient).Rounds (phasedFlip 2.832) found o run ∧
        √found.residual ≤ √run.value + roundingMargin found.shape found.depth ∧
        ⌊100 * found.residual⌋ = 1 := by
  obtain ⟨hone, htwo⟩ := residual_after_rounding.1 .lenient
  obtain ⟨o, run, hrounds, hsqrt, -, hfloor⟩ :=
    residual_after_rounding.2 _ _ _ hone htwo synthesize_lenient
  exact ⟨_, o, run, synthesize_lenient, hrounds, hsqrt,
    hfloor.resolve_left floor_flipResidual_rounded⟩

/-- The built-in minimizers report the objective at their points, and yet a
search with them leads, for a two by two target, to a synthesis whose residual
has a full hundredth. -/
theorem residual_exceeds_threshold :
    ((ofConfig .lenient).oneQubit.Reports ∧
      (ofConfig .lenient).twoQubit.Reports) ∧
      ((phasedFlip 2.832).rows = 2 ∧ (phasedFlip 2.832).cols = 2) ∧
      ∃ (o : Objective ℝ) (found : Synthesis ℝ),
        ((ofConfig .lenient).synthesize (phasedFlip 2.832)).1 = .ok found ∧
        found.angles = [4.33, 3.16] ∧
        Objective.ofTarget (phasedFlip 2.832) found.depth = .ok o ∧
        o.evaluate found.angles = .ok found.residual ∧
        ⌊100 * found.residual⌋ ≠ 0 := by
  refine ⟨⟨QuasiNewton.reports_minimizer _, SimplexSearch.reports_minimizer _⟩,
    ⟨rfl, rfl⟩, ?_⟩
  exact ⟨_, _, synthesize_lenient, rfl, ofTarget_phasedFlip 2.832,
    evaluate_flipObjective _ _ _, floor_flipResidual_rounded⟩

end Synthesizer

end Gimbal
