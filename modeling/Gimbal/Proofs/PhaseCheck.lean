/-
Gimbal/Proofs/PhaseCheck.lean

What the comparison up to a phase tells, over exact numbers.

The phase is read off at an entry of greatest magnitude.  Where that entry
exceeds the tolerance, a positive answer means what it should: the matrices
agree within the tolerance under a phase,

    |a i j - exp (i * φ) * b i j| ≤ tolerance    for all i and j.

In the other direction a phase that brings them within a third of the tolerance
is enough for a positive answer (`sameUpToPhase_of_phaseClose`): one third is
the distance itself, and two are what reading the phase at a wrong entry can
cost.

Where no entry of `b` exceeds the tolerance there is nothing to read a phase
from, and the answer says of `a`, too, that it is small, and nothing else
(`sameUpToPhase_iff_of_negligible`).  Then any phase brings the matrices within
*twice* the tolerance and there may be none that does better: all entries of a
unitary on many qubits can be that small, and of two such unitaries the
comparison sees no difference.  For a tolerance of 0.75 one qubit is enough
(`sameUpToPhase_hadamard_quarter_turn`).
-/
import Mathlib
import Gimbal.Proofs.Operator
import Gimbal.Mat.Phase
import Gimbal.Gate

namespace Gimbal

/-! ### Magnitudes and directions -/

theorem norm_div_norm_eq_one {z : ℂ} (h : 0 < ‖z‖) : ‖z / (‖z‖ : ℂ)‖ = 1 := by
  rw [norm_div, Complex.norm_real, norm_norm, div_self h.ne']

namespace Amplitude

theorem norm_eq (a : Amplitude ℝ) : a.norm = ‖a.toComplex‖ := by
  show √(a.re ^ 2 + a.im ^ 2) = _
  rw [Complex.norm_def, Complex.normSq_apply, toComplex_apply, sq, sq]

theorem toComplex_div (a b : Amplitude ℝ) :
    (a / b).toComplex = a.toComplex / b.toComplex := by
  show (⟨(a.re * b.re + a.im * b.im) / (b.re * b.re + b.im * b.im),
    (a.im * b.re - a.re * b.im) / (b.re * b.re + b.im * b.im)⟩ : ℂ) = _
  apply Complex.ext
  · rw [Complex.div_re, Complex.normSq_apply, toComplex_apply, toComplex_apply,
      ← add_div]
  · rw [Complex.div_im, Complex.normSq_apply, toComplex_apply, toComplex_apply,
      ← sub_div]

theorem toComplex_direction (a : Amplitude ℝ) :
    a.direction.toComplex = a.toComplex / ‖a.toComplex‖ := by
  show (⟨a.re / a.norm, a.im / a.norm⟩ : ℂ) = _
  rw [norm_eq]
  apply Complex.ext
  · rw [Complex.div_ofReal_re, toComplex_apply]
  · rw [Complex.div_ofReal_im, toComplex_apply]

theorem norm_toComplex_direction {a : Amplitude ℝ} (h : 0 < ‖a.toComplex‖) :
    ‖a.direction.toComplex‖ = 1 := by
  rw [toComplex_direction, norm_div_norm_eq_one h]

end Amplitude

/-- A number on the unit circle is the exponential of its argument. -/
theorem exp_arg_mul_I {z : ℂ} (h : ‖z‖ = 1) :
    Complex.exp (z.arg * Complex.I) = z := by
  simpa [h] using Complex.norm_mul_exp_arg_mul_I z

/-- Of a number near the unit circle, the direction is at most twice as far from
a point of it. -/
theorem norm_div_norm_sub_le {r w : ℂ} (hr : 0 < ‖r‖) (hw : ‖w‖ = 1) :
    ‖r / ‖r‖ - w‖ ≤ 2 * ‖r - w‖ := by
  have hcast : (‖r‖ : ℂ) ≠ 0 := Complex.ofReal_ne_zero.mpr hr.ne'
  -- normalising moves a number along its ray, by its distance from the circle
  have hray : r / ‖r‖ - r = r / ‖r‖ * ((1 - ‖r‖ : ℝ) : ℂ) := by
    push_cast
    rw [mul_sub, mul_one, div_mul_cancel₀ r hcast]
  have hmove : ‖r / ‖r‖ - r‖ ≤ ‖r - w‖ :=
    calc ‖r / ‖r‖ - r‖ = |1 - ‖r‖| := by
          rw [hray, norm_mul, norm_div_norm_eq_one hr, one_mul,
            Complex.norm_real, Real.norm_eq_abs]
      _ = |‖r‖ - ‖w‖| := by rw [hw, abs_sub_comm]
      _ ≤ ‖r - w‖ := abs_norm_sub_norm_le r w
  calc ‖r / ‖r‖ - w‖
      ≤ ‖r / ‖r‖ - r‖ + ‖r - w‖ := norm_sub_le_norm_sub_add_norm_sub _ _ _
    _ ≤ ‖r - w‖ + ‖r - w‖ := by gcongr
    _ = 2 * ‖r - w‖ := (two_mul _).symm

/-! ### An element of greatest score -/

section Greatest

variable {α : Type} {score : α → ℝ}

theorem foldl_greatest (x : α) (xs : List α) :
    xs.foldl
      (fun best y => if Score.totalLe (score best) (score y) then y else best) x
        ∈ x :: xs ∧
      ∀ y ∈ x :: xs, score y ≤ score
        (xs.foldl
          (fun best y =>
            if Score.totalLe (score best) (score y) then y else best) x) := by
  -- induction on the pairs behind the best one so far
  induction xs generalizing x with
  | nil => simp
  | cons z xs ih =>
    rw [List.foldl_cons]
    -- whichever of the two is kept, neither scores more
    obtain ⟨w, hw, hwx, hx, hz⟩ :
        ∃ w, (if Score.totalLe (score x) (score z) then z else x) = w ∧
        (w = x ∨ w = z) ∧ score x ≤ score w ∧ score z ≤ score w := by
      by_cases h : score x ≤ score z
      · exact ⟨z, if_pos (decide_eq_true h), Or.inr rfl, h, le_refl _⟩
      · refine ⟨x, if_neg ?_, Or.inl rfl, le_refl _, (not_le.mp h).le⟩
        simpa [Score.totalLe] using h
    rw [hw]
    obtain ⟨hmem, hle⟩ := ih w
    have hbest := hle w List.mem_cons_self
    constructor
    · rcases List.mem_cons.mp hmem with heq | hlater
      · rw [heq]
        rcases hwx with rfl | rfl <;> simp
      · exact List.mem_cons_of_mem _ (List.mem_cons_of_mem _ hlater)
    · intro y hy
      rcases List.mem_cons.mp hy with rfl | hy
      · exact hx.trans hbest
      · rcases List.mem_cons.mp hy with rfl | hy
        · exact hz.trans hbest
        · exact hle y (List.mem_cons_of_mem _ hy)

theorem lastGreatest_eq_some {xs : List α} {x : α}
    (h : lastGreatest score xs = some x) :
    x ∈ xs ∧ ∀ y ∈ xs, score y ≤ score x := by
  cases xs with
  | nil => cases h
  | cons first rest =>
    obtain rfl := Option.some.inj h
    exact foldl_greatest first rest

theorem eq_nil_of_lastGreatest_eq_none {xs : List α}
    (h : lastGreatest score xs = none) :
    xs = [] := by
  cases xs with
  | nil => rfl
  | cons first rest => cases h

end Greatest

namespace Mat

/-! ### Entries in their stored order -/

section Stored

variable {K L : Type} [Zero K] [Zero L]

theorem getElem?_entries (m : Mat K) {i j : ℕ} (hi : i < m.rows)
    (hj : j < m.cols) :
    m.entries[i * m.cols + j]? = some (m.entry i j) := by
  rw [← m.entryAt?_eq_some hi hj, entryAt?, if_pos ⟨hi, hj⟩]

omit [Zero K] in
/-- A stored entry stands in some row and column. -/
theorem exists_index_of_getElem? {m : Mat K} {k : ℕ} {v : K}
    (h : m.entries[k]? = some v) :
    ∃ i j, i < m.rows ∧ j < m.cols ∧ k = i * m.cols + j := by
  have hlt : k < m.rows * m.cols := by
    rw [← m.size_eq]
    exact (Array.getElem?_eq_some_iff.mp h).1
  have hcols : 0 < m.cols := Nat.pos_of_ne_zero fun h0 => by simp [h0] at hlt
  refine ⟨k / m.cols, k % m.cols, ?_, Nat.mod_lt _ hcols,
    (Nat.div_add_mod' k m.cols).symm⟩
  exact Nat.div_lt_of_lt_mul (by rwa [Nat.mul_comm])

theorem mem_entries_iff {m : Mat K} {v : K} :
    v ∈ m.entries.toList ↔ ∃ i j, i < m.rows ∧ j < m.cols ∧
      v = m.entry i j := by
  rw [Array.mem_toList_iff, Array.mem_iff_getElem?]
  constructor
  · rintro ⟨k, hk⟩
    obtain ⟨i, j, hi, hj, rfl⟩ := exists_index_of_getElem? hk
    rw [m.getElem?_entries hi hj] at hk
    exact ⟨i, j, hi, hj, (Option.some.inj hk).symm⟩
  · rintro ⟨i, j, hi, hj, rfl⟩
    exact ⟨_, m.getElem?_entries hi hj⟩

/-- The entries of two matrices of one shape, side by side. -/
theorem mem_zip_entries_iff {a : Mat K} {b : Mat L} (hr : a.rows = b.rows)
    (hc : a.cols = b.cols) {p : K × L} :
    p ∈ a.entries.toList.zip b.entries.toList ↔
      ∃ i j, i < a.rows ∧ j < a.cols ∧ p = (a.entry i j, b.entry i j) := by
  -- the two arrays have the same length, so the pairs are by position
  have hget : ∀ (k : ℕ) (p : K × L),
      (a.entries.toList.zip b.entries.toList)[k]? = some p ↔
      a.entries[k]? = some p.1 ∧ b.entries[k]? = some p.2 := by
    intro k p
    rw [List.getElem?_zip_eq_some, Array.getElem?_toList, Array.getElem?_toList]
  have hb : ∀ i j, i < a.rows → j < a.cols →
      b.entries[i * a.cols + j]? = some (b.entry i j) := by
    intro i j hi hj
    rw [hc]
    exact b.getElem?_entries (hr ▸ hi) (hc ▸ hj)
  rw [List.mem_iff_getElem?]
  constructor
  · rintro ⟨k, hk⟩
    obtain ⟨hka, hkb⟩ := (hget k p).mp hk
    obtain ⟨i, j, hi, hj, rfl⟩ := exists_index_of_getElem? hka
    rw [a.getElem?_entries hi hj] at hka
    rw [hb i j hi hj] at hkb
    exact ⟨i, j, hi, hj,
      Prod.ext (Option.some.inj hka).symm (Option.some.inj hkb).symm⟩
  · rintro ⟨i, j, hi, hj, rfl⟩
    exact ⟨_, (hget _ _).mpr ⟨a.getElem?_entries hi hj, hb i j hi hj⟩⟩

end Stored

/-! ### What is compared -/

/-- No entry exceeds the tolerance. -/
def Negligible (m : Mat (Amplitude ℝ)) (tolerance : ℝ) : Prop :=
  ∀ i j, i < m.rows → j < m.cols → ‖(m.entry i j).toComplex‖ ≤ tolerance

/-- Under the phase, `b` is within the tolerance of `a`, entry by entry. -/
def PhaseClose (a b : Mat (Amplitude ℝ)) (φ tolerance : ℝ) : Prop :=
  ∀ i j, i < a.rows → j < a.cols →
    ‖(a.entry i j).toComplex - Complex.exp (φ * Complex.I) *
      (b.entry i j).toComplex‖ ≤ tolerance

variable {a b : Mat (Amplitude ℝ)} {tolerance : ℝ}

/-- The phase is read at an entry of greatest magnitude, if that is above the
tolerance. -/
theorem pivotPhase?_cases (hr : a.rows = b.rows) (hc : a.cols = b.cols)
    (tolerance : ℝ) :
    (b.Negligible tolerance ∧ pivotPhase? a b tolerance = none) ∨
      ∃ i j, i < b.rows ∧ j < b.cols ∧ tolerance < ‖(b.entry i j).toComplex‖ ∧
        b.Negligible ‖(b.entry i j).toComplex‖ ∧
          pivotPhase? a b tolerance = some
          (if (a.entry i j / b.entry i j).norm < negligibleRatio then none
            else some (a.entry i j / b.entry i j).direction) := by
  unfold pivotPhase?
  split
  · next hnone =>
    refine Or.inl ⟨fun i j hi hj => ?_, rfl⟩
    have hmem := (mem_zip_entries_iff hr.symm hc.symm).mpr ⟨i, j, hi, hj, rfl⟩
    rw [eq_nil_of_lastGreatest_eq_none hnone] at hmem
    cases hmem
  · next bv av hsome =>
    obtain ⟨hmem, hgreatest⟩ := lastGreatest_eq_some hsome
    obtain ⟨i, j, hi, hj, hpivot⟩ :=
      (mem_zip_entries_iff hr.symm hc.symm).mp hmem
    obtain ⟨rfl, rfl⟩ := Prod.mk.inj hpivot
    -- the pivot is a greatest entry of `b`
    have hle : b.Negligible ‖(b.entry i j).toComplex‖ := by
      intro i' j' hi' hj'
      rw [← Amplitude.norm_eq, ← Amplitude.norm_eq]
      exact hgreatest _
        ((mem_zip_entries_iff hr.symm hc.symm).mpr ⟨i', j', hi', hj', rfl⟩)
    split
    · next hbig =>
      rw [Amplitude.norm_eq] at hbig
      exact Or.inr ⟨i, j, hi, hj, hbig, hle, rfl⟩
    · next hsmall =>
      rw [Amplitude.norm_eq] at hsmall
      exact Or.inl
        ⟨fun i' j' hi' hj' => (hle i' j' hi' hj').trans (not_lt.mp hsmall), rfl⟩

/-- Where nothing exceeds the tolerance on one side, the comparison looks at the
other side alone. -/
theorem sameUpToPhase_iff_of_negligible (hr : a.rows = b.rows)
    (hc : a.cols = b.cols) (hb : b.Negligible tolerance) :
    a.sameUpToPhase b tolerance = true ↔ a.Negligible tolerance := by
  -- a greatest entry above the tolerance is not there
  obtain ⟨-, hnone⟩ | ⟨i, j, hi, hj, hbig, -⟩ :=
    pivotPhase?_cases hr hc tolerance
  · rw [sameUpToPhase, if_pos ⟨hr, hc⟩, hnone]
    simp only [List.all_eq_true, decide_eq_true_eq, Amplitude.norm_eq]
    constructor
    · intro hall i j hi hj
      exact hall _ (mem_entries_iff.mpr ⟨i, j, hi, hj, rfl⟩)
    · intro ha v hv
      obtain ⟨i, j, hi, hj, rfl⟩ := mem_entries_iff.mp hv
      exact ha i j hi hj
  · exact absurd (hb i j hi hj) (not_le.mpr hbig)

theorem negligibleRatio_pos : (0 : ℝ) < negligibleRatio := by
  show (0 : ℝ) < 1 / ((0x10000000000000 : ℕ) : ℝ)
  positivity

/-- Where some entry exceeds the tolerance, a positive answer is right. -/
theorem exists_phaseClose_of_sameUpToPhase (hb : ¬ b.Negligible tolerance)
    (h : a.sameUpToPhase b tolerance = true) :
    ∃ φ, a.PhaseClose b φ tolerance := by
  unfold sameUpToPhase at h
  split at h
  · next hshape =>
    obtain ⟨hr, hc⟩ := hshape
    obtain ⟨hneg, -⟩ | ⟨i, j, -, -, -, -, hpivot⟩ :=
      pivotPhase?_cases hr hc tolerance
    · exact absurd hneg hb
    · rw [hpivot] at h
      -- a ratio without a direction would have been a negative answer
      by_cases hratio : (a.entry i j / b.entry i j).norm < negligibleRatio
      · rw [if_pos hratio] at h
        cases h
      · rw [if_neg hratio] at h
        have hpos : 0 < ‖(a.entry i j / b.entry i j).toComplex‖ := by
          rw [← Amplitude.norm_eq]
          exact negligibleRatio_pos.trans_le (not_lt.mp hratio)
        have hone := Amplitude.norm_toComplex_direction hpos
        generalize (a.entry i j / b.entry i j).direction = phase at h hone
        refine ⟨phase.toComplex.arg, fun i j hi hj => ?_⟩
        have hall :=
          List.all_eq_true.mp h _
            ((mem_zip_entries_iff hr hc).mpr ⟨i, j, hi, hj, rfl⟩)
        rw [decide_eq_true_eq, Amplitude.norm_eq] at hall
        rw [exp_arg_mul_I hone]
        simpa using hall
  · cases h

/-- **What a positive comparison up to a phase tells.**  If some entry of `b`
exceeds the tolerance, there is a phase under which the matrices agree within
the tolerance.  If none does, no entry of `a` does either, and every phase
brings the matrices within twice the tolerance. -/
theorem sameUpToPhase_sound (a b : Mat (Amplitude ℝ)) (tolerance : ℝ)
    (h : a.sameUpToPhase b tolerance = true) :
    (a.rows = b.rows ∧ a.cols = b.cols) ∧
      (¬ b.Negligible tolerance → ∃ φ, a.PhaseClose b φ tolerance) ∧
      (b.Negligible tolerance →
        a.Negligible tolerance ∧ ∀ φ, a.PhaseClose b φ (2 * tolerance)) := by
  have hshape : a.rows = b.rows ∧ a.cols = b.cols := by
    unfold sameUpToPhase at h
    split at h
    · next hshape => exact hshape
    · cases h
  obtain ⟨hr, hc⟩ := hshape
  refine ⟨⟨hr, hc⟩, fun hb => exists_phaseClose_of_sameUpToPhase hb h,
    fun hb => ?_⟩
  have ha : a.Negligible tolerance :=
    (sameUpToPhase_iff_of_negligible hr hc hb).mp h
  refine ⟨ha, fun φ i j hi hj => ?_⟩
  calc ‖(a.entry i j).toComplex - Complex.exp (φ * Complex.I) *
        (b.entry i j).toComplex‖
      ≤ ‖(a.entry i j).toComplex‖ + ‖Complex.exp (φ * Complex.I) *
        (b.entry i j).toComplex‖ :=
        norm_sub_le _ _
    _ = ‖(a.entry i j).toComplex‖ + ‖(b.entry i j).toComplex‖ := by
        rw [norm_mul, Complex.norm_exp_ofReal_mul_I, one_mul]
    _ ≤ tolerance + tolerance :=
      add_le_add (ha i j hi hj) (hb i j (hr ▸ hi) (hc ▸ hj))
    _ = 2 * tolerance := (two_mul tolerance).symm

/-! ### What is found equal -/

section Found

variable {φ δ : ℝ} {i j : ℕ}

/-- Relative to the entry of `b`, the ratio of two entries is as close to the
phase as the matrices are under it. -/
theorem PhaseClose.norm_ratio_sub_le (h : a.PhaseClose b φ δ) (hi : i < a.rows)
    (hj : j < a.cols) (hpos : 0 < ‖(b.entry i j).toComplex‖) :
    ‖(a.entry i j / b.entry i j).toComplex - Complex.exp (φ * Complex.I)‖ *
      ‖(b.entry i j).toComplex‖ ≤ δ := by
  have hne : (b.entry i j).toComplex ≠ 0 := norm_pos_iff.mp hpos
  rw [Amplitude.toComplex_div, ← norm_mul, sub_mul, div_mul_cancel₀ _ hne]
  exact h i j hi hj

/-- Another factor in place of the phase costs its distance from the phase, at
the greatest entry. -/
theorem PhaseClose.norm_sub_mul_le (h : a.PhaseClose b φ δ) {M : ℝ}
    (hi : i < a.rows) (hj : j < a.cols) (hM : ‖(b.entry i j).toComplex‖ ≤ M)
    (u : ℂ) :
    ‖(a.entry i j).toComplex - u * (b.entry i j).toComplex‖
      ≤ δ + ‖u - Complex.exp (φ * Complex.I)‖ * M := by
  -- exchange the phase `φ` for `u`
  have hsplit : (a.entry i j).toComplex - u * (b.entry i j).toComplex
      = ((a.entry i j).toComplex - Complex.exp (φ * Complex.I) *
        (b.entry i j).toComplex)
        - (u - Complex.exp (φ * Complex.I)) * (b.entry i j).toComplex := by ring
  rw [hsplit]
  refine (norm_sub_le _ _).trans (add_le_add (h i j hi hj) ?_)
  rw [norm_mul]
  gcongr

/-- A ratio near the unit circle has a direction. -/
theorem two_thirds_le_norm {r w : ℂ} (hw : ‖w‖ = 1) (h : ‖r - w‖ ≤ 1 / 3) :
    2 / 3 ≤ ‖r‖ := by
  have hle := norm_sub_norm_le w r
  rw [hw, norm_sub_rev] at hle
  linarith

/-- Where some entry of `b` exceeds the tolerance, a phase that brings the
matrices within a third of it is enough for a positive answer. -/
theorem sameUpToPhase_of_phaseClose (hr : a.rows = b.rows)
    (hc : a.cols = b.cols) (hb : ¬ b.Negligible tolerance)
    (h : a.PhaseClose b φ (tolerance / 3)) :
    a.sameUpToPhase b tolerance = true := by
  obtain ⟨hneg, -⟩ | ⟨i, j, hi, hj, hbig, hgreatest, hpivot⟩ :=
    pivotPhase?_cases hr hc tolerance
  · exact absurd hneg hb
  rw [← hr] at hi
  rw [← hc] at hj
  have htol : 0 ≤ tolerance / 3 := (norm_nonneg _).trans (h i j hi hj)
  have hpos : 0 < ‖(b.entry i j).toComplex‖ := lt_of_le_of_lt (by linarith) hbig
  have hunit : ‖Complex.exp (φ * Complex.I)‖ = 1 :=
    Complex.norm_exp_ofReal_mul_I φ
  -- the quotient at the greatest entry of `b` is near the phase
  have hratio := h.norm_ratio_sub_le hi hj hpos
  generalize a.entry i j / b.entry i j = ratio at hratio hpivot
  have hsize : 2 / 3 ≤ ‖ratio.toComplex‖ := by
    refine two_thirds_le_norm hunit (le_of_mul_le_mul_right ?_ hpos)
    linarith
  -- so it is far from the cut-off
  have hlarge : ¬ ratio.norm < negligibleRatio := by
    rw [Amplitude.norm_eq, not_lt]
    refine le_trans ?_ hsize
    show (1 : ℝ) / ((0x10000000000000 : ℕ) : ℝ) ≤ 2 / 3
    norm_num
  rw [sameUpToPhase, if_pos ⟨hr, hc⟩, hpivot, if_neg hlarge]
  apply List.all_eq_true.mpr
  intro p hp
  obtain ⟨i', j', hi', hj', rfl⟩ := (mem_zip_entries_iff hr hc).mp hp
  rw [decide_eq_true_eq, Amplitude.norm_eq, map_sub, map_mul,
    Amplitude.toComplex_direction]
  -- the phase that was read is off by at most two thirds of the tolerance, at
  -- the greatest entry
  calc ‖(a.entry i' j').toComplex - ratio.toComplex / ‖ratio.toComplex‖ *
        (b.entry i' j').toComplex‖
      ≤ tolerance / 3 + ‖ratio.toComplex / ‖ratio.toComplex‖
          - Complex.exp (φ * Complex.I)‖ * ‖(b.entry i j).toComplex‖ :=
        h.norm_sub_mul_le hi' hj' (hgreatest i' j' (hr ▸ hi') (hc ▸ hj')) _
    _ ≤ tolerance / 3 + 2 * ‖ratio.toComplex - Complex.exp (φ * Complex.I)‖
          * ‖(b.entry i j).toComplex‖ := by
        gcongr
        exact norm_div_norm_sub_le (lt_of_lt_of_le (by norm_num) hsize) hunit
    _ ≤ tolerance / 3 + 2 * (tolerance / 3) := by
        rw [mul_assoc]
        gcongr
    _ = tolerance := by ring

end Found

/-- Where some entry exceeds the tolerance, a matrix is found equal to its
multiple by a phase. -/
theorem sameUpToPhase_map_mul {phase : Amplitude ℝ}
    (hphase : ‖phase.toComplex‖ = 1) (htol : 0 ≤ tolerance)
    (hb : ¬ b.Negligible tolerance) :
    (b.map fun v => phase * v).sameUpToPhase b tolerance = true := by
  refine sameUpToPhase_of_phaseClose (φ := phase.toComplex.arg) rfl rfl hb
    fun i j hi hj => ?_
  rw [b.entry_map _ hi hj, map_mul, exp_arg_mul_I hphase, sub_self, norm_zero]
  positivity

/-- Two flips that differ by a quarter of a full phase. -/
theorem sameUpToPhase_sound_flip :
    ((FixedGate.x.matrix : Mat (Amplitude ℝ)).map fun v =>
        Amplitude.i * v).sameUpToPhase FixedGate.x.matrix 1e-9 = true ∧
      ∃ φ, ((FixedGate.x.matrix : Mat (Amplitude ℝ)).map fun v =>
        Amplitude.i * v).PhaseClose FixedGate.x.matrix φ 1e-9 := by
  have hbig : ¬ (FixedGate.x.matrix : Mat (Amplitude ℝ)).Negligible 1e-9 := by
    intro h
    have hone : ‖((1 : Amplitude ℝ)).toComplex‖ ≤ 1e-9 :=
      h 0 1 (by decide) (by decide)
    rw [map_one, norm_one] at hone
    norm_num at hone
  have hphase : ‖(Amplitude.i : Amplitude ℝ).toComplex‖ = 1 := Complex.norm_I
  have h := sameUpToPhase_map_mul hphase (by norm_num) hbig
  exact ⟨h, (sameUpToPhase_sound _ _ _ h).2.1 hbig⟩

/-! ### Where there is nothing to read a phase from -/

theorem negligible_square {p q r s : Amplitude ℝ}
    (hp : ‖p.toComplex‖ ≤ tolerance) (hq : ‖q.toComplex‖ ≤ tolerance)
    (hr : ‖r.toComplex‖ ≤ tolerance) (hs : ‖s.toComplex‖ ≤ tolerance) :
    (square p q r s).Negligible tolerance := by
  intro i j hi hj
  change i < 2 at hi
  change j < 2 at hj
  interval_cases i <;> interval_cases j
  exacts [hp, hq, hr, hs]

/-- A phase that is right for a number is wrong for its negative. -/
theorem two_mul_sq_norm_le {w z : ℂ} (hw : ‖w‖ = 1)
    (hsub : ‖z - w * z‖ ≤ tolerance) (hadd : ‖z - w * -z‖ ≤ tolerance) :
    2 * ‖z‖ ^ 2 ≤ tolerance ^ 2 := by
  have hwz : ‖w * z‖ = ‖z‖ := by rw [norm_mul, hw, one_mul]
  have hlaw := parallelogram_law_with_norm ℝ z (w * z)
  rw [hwz] at hlaw
  rw [mul_neg, sub_neg_eq_add] at hadd
  nlinarith [mul_self_le_mul_self (norm_nonneg _) hsub,
    mul_self_le_mul_self (norm_nonneg _) hadd]

/-- Two matrices with entries of one size that differ in one sign.  If that size
is at most the tolerance, they are found equal; if it is not much less, there is
no phase that makes them so. -/
theorem sameUpToPhase_of_one_sign {f : Amplitude ℝ}
    (hsmall : ‖f.toComplex‖ ≤ tolerance)
    (hlarge : tolerance ^ 2 < 2 * ‖f.toComplex‖ ^ 2) :
    (square f f f (-f)).sameUpToPhase (square f (-f) f f) tolerance = true ∧
      ¬ ∃ φ,
        (square f f f (-f)).PhaseClose (square f (-f) f f) φ tolerance := by
  have hneg : ‖(-f).toComplex‖ ≤ tolerance := by rwa [map_neg, norm_neg]
  constructor
  · -- all four entries are within the tolerance of zero, so nothing is compared
    refine (sameUpToPhase_iff_of_negligible ?_ ?_ ?_).mpr ?_
    · rfl
    · rfl
    · exact negligible_square hsmall hneg hsmall hsmall
    · exact negligible_square hsmall hsmall hsmall hneg
  · rintro ⟨φ, h⟩
    -- the first row asks of the phase to be right for `f` and for `-f`
    have hfirst := h 0 0 Nat.two_pos Nat.two_pos
    have hsecond := h 0 1 Nat.two_pos Nat.one_lt_two
    change ‖f.toComplex - _ * f.toComplex‖ ≤ tolerance at hfirst
    change ‖f.toComplex - _ * (-f).toComplex‖ ≤ tolerance at hsecond
    rw [map_neg] at hsecond
    have hle :=
      two_mul_sq_norm_le (Complex.norm_exp_ofReal_mul_I φ) hfirst hsecond
    exact absurd hle (not_le.mpr hlarge)

theorem quarter_turn_eq_square : Direction.y.rotation (Real.pi / 2) =
    square (.ofReal (1 / √2)) (-.ofReal (1 / √2)) (.ofReal (1 / √2))
      (.ofReal (1 / √2)) := by
  have hhalf : Real.pi / 2 / 2.0 = Real.pi / 4 := by norm_num; ring
  have hroot : √2 / 2 = 1 / √2 := by
    rw [div_eq_div_iff two_ne_zero (by positivity),
      Real.mul_self_sqrt zero_le_two, one_mul]
  -- a quarter of a half turn has equal sine and cosine
  have hcos : Real.cos (Real.pi / 2 / 2.0) = 1 / √2 := by
    rw [hhalf, Real.cos_pi_div_four, hroot]
  have hsin : Real.sin (Real.pi / 2 / 2.0) = 1 / √2 := by
    rw [hhalf, Real.sin_pi_div_four, hroot]
  show (square ⟨Real.cos (Real.pi / 2 / 2.0), 0⟩
    ⟨-Real.sin (Real.pi / 2 / 2.0), 0⟩
    ⟨Real.sin (Real.pi / 2 / 2.0), 0⟩ ⟨Real.cos (Real.pi / 2 / 2.0), 0⟩ :
      Mat (Amplitude ℝ)) = _
  rw [hcos, hsin]
  congr 1
  exact Amplitude.ext rfl neg_zero.symm

/-- **A false positive.**  Within 0.75, the Hadamard gate and a quarter turn
about the second axis are found equal up to a phase, and under no phase are they
that close. -/
theorem sameUpToPhase_hadamard_quarter_turn :
    (FixedGate.h.matrix : Mat (Amplitude ℝ)).sameUpToPhase
        (Direction.y.rotation (Real.pi / 2)) 0.75 = true ∧
      ¬ ∃ φ, (FixedGate.h.matrix : Mat (Amplitude ℝ)).PhaseClose
        (Direction.y.rotation (Real.pi / 2)) φ 0.75 := by
  have hsq :
      ‖(Amplitude.ofReal (1 / √2) : Amplitude ℝ).toComplex‖ ^ 2 = 1 / 2 := by
    rw [← Amplitude.norm_eq]
    show √((1 / √2) ^ 2 + 0 ^ 2) ^ 2 = 1 / 2
    rw [Real.sq_sqrt (by positivity), div_pow, Real.sq_sqrt zero_le_two]
    norm_num
  rw [quarter_turn_eq_square]
  refine sameUpToPhase_of_one_sign (f := .ofReal (1 / √2)) ?_ ?_
  · apply le_of_sq_le_sq _ (by norm_num)
    rw [hsq]
    norm_num
  · rw [hsq]
    norm_num

end Mat

end Gimbal
