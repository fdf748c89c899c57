/-
Gimbal/Proofs/GlobalPhase.lean

Matrices times a global phase.  `m.phased φ` has every entry of `m` multiplied
by the point of the unit circle at the angle `φ`.

The comparison up to a phase is blind to it on either side,

    (a.phased p).sameUpToPhase (b.phased q) tolerance = a.sameUpToPhase b tolerance,

with the same pivot where several entries are greatest: the phase that is read
turns by `p - q`, and every difference that is tested turns by `p`.  Magnitudes
are all that the choices depend on.
-/
import Mathlib
import Gimbal.Proofs.PhaseCheck

namespace Gimbal

/-! ### Numbers that turn -/

namespace Amplitude

theorem norm_mul_cis (a : Amplitude ℝ) (p : ℝ) : (a * cis p).norm = a.norm := by
  rw [norm_eq, norm_eq, map_mul, norm_mul, toComplex_cis,
    Complex.norm_exp_ofReal_mul_I, mul_one]

/-- A quotient turns by the difference of the angles. -/
theorem mul_cis_div_mul_cis (a b : Amplitude ℝ) (p q : ℝ) :
    a * cis p / (b * cis q) = a / b * cis (p - q) := by
  apply toComplex_injective
  rw [toComplex_div, map_mul, map_mul, map_mul, toComplex_div, toComplex_cis,
    toComplex_cis, toComplex_cis, mul_div_mul_comm, ← Complex.exp_sub,
    ← sub_mul, Complex.ofReal_sub]

theorem direction_mul_cis (a : Amplitude ℝ) (p : ℝ) :
    (a * cis p).direction = a.direction * cis p := by
  apply toComplex_injective
  rw [toComplex_direction, map_mul, map_mul, toComplex_direction, norm_mul,
    toComplex_cis, Complex.norm_exp_ofReal_mul_I, mul_one, mul_div_right_comm]

/-- Under a phase that turns by the difference of the angles, the difference
turns as a whole. -/
theorem mul_cis_sub_mul_cis (a b w : Amplitude ℝ) (p q : ℝ) :
    a * cis p - w * cis (p - q) * (b * cis q) = (a - w * b) * cis p := by
  have hcis : (cis (p - q) * cis q : Amplitude ℝ) = cis p := by
    rw [cis_mul_cis, sub_add_cancel]
  rw [sub_mul, ← hcis]
  ring

end Amplitude

/-- A map that keeps the scores keeps the last element of greatest score. -/
theorem lastGreatest_map {V α β : Type} [Score V] {score : α → V}
    {score' : β → V} {f : α → β} (h : ∀ x, score' (f x) = score x)
    (xs : List α) :
    lastGreatest score' (xs.map f) = (lastGreatest score xs).map f := by
  cases xs with
  | nil => rfl
  | cons x xs =>
    rw [List.map_cons, lastGreatest, lastGreatest, List.foldl_map,
      Option.map_some]
    refine congrArg some (List.foldl_hom f fun best y => ?_)
    rw [h, h, apply_ite f]

namespace Mat

/-! ### Matrices that turn -/

/-- The matrix times the point of the unit circle at an angle. -/
noncomputable def phased (m : Mat (Amplitude ℝ)) (φ : ℝ) : Mat (Amplitude ℝ) :=
  m.map fun v => v * Amplitude.cis φ

theorem entry_phased (m : Mat (Amplitude ℝ)) (φ : ℝ) (i j : ℕ) :
    (m.phased φ).entry i j = m.entry i j * Amplitude.cis φ := by
  rw [entry, entry, phased, entryAt?_map]
  cases m.entryAt? i j with
  | none => exact (zero_mul _).symm
  | some v => rfl

/-- Phases add up. -/
theorem phased_phased (m : Mat (Amplitude ℝ)) (φ ψ : ℝ) :
    (m.phased φ).phased ψ = m.phased (φ + ψ) := by
  refine ext_entry rfl rfl fun i j _ _ => ?_
  rw [entry_phased, entry_phased, entry_phased, mul_assoc,
    Amplitude.cis_mul_cis]

theorem phased_zero (m : Mat (Amplitude ℝ)) : m.phased 0 = m := by
  have hone : (Amplitude.cis 0 : Amplitude ℝ) = 1 :=
    Amplitude.ext Real.cos_zero Real.sin_zero
  refine ext_entry rfl rfl fun i j _ _ => ?_
  rw [entry_phased, hone, mul_one]

/-! ### The comparison -/

theorem toList_entries_phased (m : Mat (Amplitude ℝ)) (φ : ℝ) :
    (m.phased φ).entries.toList = m.entries.toList.map fun v =>
      v * Amplitude.cis φ :=
  Array.toList_map

/-- The phase that is read turns by the difference of the angles. -/
theorem pivotPhase?_phased (a b : Mat (Amplitude ℝ)) (p q tolerance : ℝ) :
    pivotPhase? (a.phased p) (b.phased q) tolerance
      = (pivotPhase? a b tolerance).map
        (Option.map fun w => w * Amplitude.cis (p - q)) := by
  -- magnitudes stay, so the pivot is at the same place also where several
  -- entries are greatest
  have hpivot : ∀ xs : List (Amplitude ℝ × Amplitude ℝ),
      lastGreatest (fun x => x.1.norm)
        (xs.map (Prod.map (· * Amplitude.cis q) (· * Amplitude.cis p)))
        = (lastGreatest (fun x => x.1.norm) xs).map
          (Prod.map (· * Amplitude.cis q) (· * Amplitude.cis p)) :=
    lastGreatest_map fun x => x.1.norm_mul_cis q
  rw [pivotPhase?, pivotPhase?, toList_entries_phased, toList_entries_phased,
    List.zip_map, hpivot]
  cases lastGreatest (fun x => x.1.norm)
    (b.entries.toList.zip a.entries.toList) with
  | none => rfl
  | some pivot =>
    obtain ⟨bv, av⟩ := pivot
    -- the quotient at the pivot turns by the difference of the two phases
    simp only [Option.map_some, Prod.map_apply, Amplitude.norm_mul_cis,
      Amplitude.mul_cis_div_mul_cis, Amplitude.direction_mul_cis]
    split_ifs <;> rfl

/-- The comparison does not see a phase on either side. -/
theorem sameUpToPhase_phased (a b : Mat (Amplitude ℝ)) (p q tolerance : ℝ) :
    (a.phased p).sameUpToPhase (b.phased q) tolerance =
      a.sameUpToPhase b tolerance := by
  rw [sameUpToPhase, sameUpToPhase, pivotPhase?_phased, toList_entries_phased,
    toList_entries_phased, List.zip_map]
  refine if_congr Iff.rfl ?_ rfl
  cases pivotPhase? a b tolerance with
  | none =>
    -- nothing is above the tolerance: the test reads magnitudes only
    simp only [Option.map_none, List.all_map, Function.comp_def,
      Amplitude.norm_mul_cis]
  | some phase? =>
    cases phase? with
    | none => rfl
    | some phase =>
      simp only [Option.map_some, List.all_map, Function.comp_def, Prod.map_fst,
        Prod.map_snd, Amplitude.mul_cis_sub_mul_cis, Amplitude.norm_mul_cis]

/-- **The comparison up to a phase is complete up to a factor of three, and
blind to global phases.** If some entry of `b` exceeds the tolerance and under
some phase the matrices are within a third of the tolerance, entry by entry,
they are found equal.  And whatever phases the two matrices are multiplied by,
the answer stays the same. -/
theorem sameUpToPhase_complete (a b : Mat (Amplitude ℝ)) (tolerance : ℝ) :
    (a.rows = b.rows → a.cols = b.cols →
      (∃ i j, i < b.rows ∧ j < b.cols ∧ tolerance < ‖(b.entry i j).toComplex‖) →
      (∃ φ, a.PhaseClose b φ (tolerance / 3)) →
        a.sameUpToPhase b tolerance = true) ∧
    ∀ p q : ℝ,
      (a.phased p).sameUpToPhase (b.phased q) tolerance =
        a.sameUpToPhase b tolerance := by
  refine ⟨?_, fun p q => sameUpToPhase_phased a b p q tolerance⟩
  rintro hr hc ⟨i, j, hi, hj, hbig⟩ ⟨φ, hclose⟩
  exact sameUpToPhase_of_phaseClose hr hc
    (fun hneg => (hneg i j hi hj).not_gt hbig) hclose

/-- A flip with a phase and an error of a tenth in one corner. -/
noncomputable def blurredFlip : Mat (Amplitude ℝ) :=
  square (.ofReal 0.1) .i .i 0

theorem blurredFlip_phaseClose :
    blurredFlip.PhaseClose FixedGate.x.matrix (Real.pi / 2) 0.1 := by
  have hquarter : Complex.exp ((Real.pi / 2 : ℝ) * Complex.I) = Complex.I := by
    rw [Complex.ofReal_div, Complex.ofReal_ofNat, Complex.exp_pi_div_two_mul_I]
  have hcorner :
      (Amplitude.ofReal 0.1 : Amplitude ℝ).toComplex = ((0.1 : ℝ) : ℂ) := rfl
  have hside : (Amplitude.i : Amplitude ℝ).toComplex = Complex.I := rfl
  intro i j hi hj
  change i < 2 at hi
  change j < 2 at hj
  rw [hquarter]
  interval_cases i <;> interval_cases j
  · show ‖(Amplitude.ofReal 0.1).toComplex - Complex.I *
      Amplitude.toComplex 0‖ ≤ 0.1
    rw [map_zero, mul_zero, sub_zero, hcorner, Complex.norm_real]
    norm_num
  · show ‖Amplitude.i.toComplex - Complex.I * Amplitude.toComplex 1‖ ≤ 0.1
    rw [map_one, mul_one, hside, sub_self, norm_zero]
    norm_num
  · show ‖Amplitude.i.toComplex - Complex.I * Amplitude.toComplex 1‖ ≤ 0.1
    rw [map_one, mul_one, hside, sub_self, norm_zero]
    norm_num
  · show ‖Amplitude.toComplex 0 - Complex.I * Amplitude.toComplex 0‖ ≤ 0.1
    rw [map_zero, mul_zero, sub_zero, norm_zero]
    norm_num

/-- Within three tenths a flip with an error of a tenth, which is a third of
that, is found equal to the flip, whatever phases are added. -/
theorem sameUpToPhase_complete_flip :
    blurredFlip.sameUpToPhase FixedGate.x.matrix 0.3 = true ∧
      (blurredFlip.phased 5).sameUpToPhase
        ((FixedGate.x.matrix : Mat (Amplitude ℝ)).phased 1) 0.3
        = true := by
  obtain ⟨hfound, hblind⟩ :=
    sameUpToPhase_complete blurredFlip FixedGate.x.matrix 0.3
  have hbig :
      (0.3 : ℝ) <
        ‖((FixedGate.x.matrix : Mat (Amplitude ℝ)).entry 0 1).toComplex‖ := by
    show (0.3 : ℝ) < ‖Amplitude.toComplex 1‖
    rw [map_one, norm_one]
    norm_num
  have hthird : (0.3 : ℝ) / 3 = 0.1 := by norm_num
  have h := hfound rfl rfl ⟨0, 1, by decide, by decide, hbig⟩
    ⟨_, hthird ▸ blurredFlip_phaseClose⟩
  exact ⟨h, (hblind 5 1).trans h⟩

end Mat

end Gimbal
