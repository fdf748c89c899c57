/-
Gimbal/Proofs/SearchDescent.lean

When a step of the quasi-Newton search makes the objective worse, over exact
numbers.

A trial is accepted if the value is at most the old one plus a share of the
change that the gradient predicts for the step (`predictedChange`).  That is a
demand to descend as long as the prediction is not positive.  The direction of
an iteration does descend (`dot_course_nonpos`), but the step is clamped after
it is tried, component by component, and a clamped step may lead uphill.  It
cannot where

* the step is not clamped,
* every component of the direction opposes the gradient, as it does where the
  direction is the gradient itself (no pair is remembered), or where there is
  only one.

Otherwise it can, and then the trial may be worse by a share of the prediction.
With a tolerance that is not negative a step that makes the value larger is the
last one: it reduced the value too little to go on, and the search reports that
it has converged (`minimize_saddle`).
-/
import Mathlib
import Gimbal.Proofs.InverseHessian

namespace Gimbal

/-! ### Steps in a box -/

section Box

variable {box : List (Interval ℝ)} {x d g : List ℝ} {t : ℝ}

/-- Two vectors whose components have opposite signs. -/
def Opposes (d g : List ℝ) : Prop := List.Forall₂ (fun di gi => di * gi ≤ 0) d g

/-- A step from a point of an interval goes the same way when it is clamped. -/
theorem Interval.exists_clamp_sub_eq {b : Interval ℝ} {xi : ℝ}
    (hxi : b.lower ≤ xi ∧ xi ≤ b.upper) (step : ℝ) :
    ∃ θ, 0 ≤ θ ∧ b.clamp (xi + step) - xi = θ * step := by
  rw [clamp]
  -- clamped to the lower end, to the upper one, or not at all
  split
  · next hlow =>
    have hstep : step < 0 := by linarith
    refine ⟨(b.lower - xi) / step,
      div_nonneg_of_nonpos (by linarith) hstep.le, ?_⟩
    rw [div_mul_cancel₀ _ hstep.ne]
  · split
    · next hhigh =>
      have hstep : 0 < step := by linarith
      refine ⟨(b.upper - xi) / step, div_nonneg (by linarith) hstep.le, ?_⟩
      rw [div_mul_cancel₀ _ hstep.ne']
    · exact ⟨1, zero_le_one, by ring⟩

/-- A step against the gradient stays one when it is clamped. -/
theorem dot_clamped_nonpos (hx : InBox box x) (ht : 0 ≤ t)
    (hopposes : Opposes d g) :
    dot g (List.zipWith (fun c xi => c - xi) (trial box x d t) x) ≤ 0 := by
  -- induction on the coordinates; each clamped move goes the way of its
  -- component
  induction hx generalizing d g with
  | nil => exact (dot_nil_right g).le
  | @cons b xi box x hxi hx ih =>
    cases hopposes with
    | nil => exact le_rfl
    | @cons di gi d g hi hopposes =>
      obtain ⟨θ, hθ, hclamp⟩ := Interval.exists_clamp_sub_eq hxi (t * di)
      have hhead : gi * (b.clamp (xi + t * di) - xi) ≤ 0 := by
        calc gi * (b.clamp (xi + t * di) - xi) = θ * t * (di * gi) := by
              rw [hclamp]; ring
          _ ≤ 0 := mul_nonpos_of_nonneg_of_nonpos (mul_nonneg hθ ht) hi
      have htail := ih hopposes
      show dot (gi :: g) ((b.clamp (xi + t * di) - xi) ::
        List.zipWith (fun c xi => c - xi) (trial box x d t) x) ≤ 0
      rw [dot_cons]
      exact add_nonpos hhead htail

/-- A step that is not clamped is a multiple of the direction. -/
theorem dot_straight (hd : d.length = x.length) :
    dot g (List.zipWith (fun c xi => c - xi)
      (List.zipWith (fun xi di => xi + t * di) x d) x) =
      t * dot g d := by
  induction x generalizing d g with
  | nil =>
    rw [List.eq_nil_of_length_eq_zero hd, dot_nil_right, mul_zero]
    exact dot_nil_right g
  | cons xi x ih =>
    obtain ⟨di, d, rfl⟩ := List.exists_cons_of_length_eq_add_one hd
    cases g with
    | nil => exact (mul_zero t).symm
    | cons gi g =>
      show dot (gi :: g) ((xi + t * di - xi) :: _) = _
      rw [dot_cons, dot_cons, ih (Nat.succ.inj hd)]
      ring

theorem Opposes.dot_nonpos (h : Opposes d g) : dot g d ≤ 0 := by
  induction h with
  | nil => exact le_rfl
  | @cons di gi d g hi _ ih =>
    rw [dot_cons, mul_comm]
    exact add_nonpos hi ih

theorem release_release (g : List ℝ) (pins : List Bool) :
    release (release g pins) pins = release g pins := by
  unfold release
  induction g generalizing pins with
  | nil => rfl
  | cons gi g ih =>
    cases pins with
    | nil => rfl
    | cons pin pins =>
      rw [List.zipWith_cons_cons, List.zipWith_cons_cons, ih]
      cases pin <;> rfl

theorem opposes_neg_release {pins : List Bool}
    (hpins : pins.length = g.length) :
    Opposes ((release g pins).map fun v => -v) g := by
  induction g generalizing pins with
  | nil =>
    rw [List.eq_nil_of_length_eq_zero hpins]
    exact .nil
  | cons gi g ih =>
    obtain ⟨pin, pins, rfl⟩ := List.exists_cons_of_length_eq_add_one hpins
    refine .cons ?_ (ih (Nat.succ.inj hpins))
    cases pin
    · show -gi * gi ≤ 0
      linarith [mul_self_nonneg gi]
    · show -0 * gi ≤ 0
      simp

end Box

namespace QuasiNewton

section Steps

variable {R : Type} [Scalar R]

/-- The change of the value that the gradient predicts for a step. -/
def predictedChange (it : Iterate R) (point : List R) : R :=
  dot it.gradient (List.zipWith (fun c xi => c - xi) point it.point)

/-- A step of a search: from an iterate that it visits to a trial that it
accepts. -/
structure Steps (p : QuasiNewton R) (f : List R → R) (box : List (Interval R))
    (x : List R) (it : Iterate R) (point : List R) : Prop where
  visited : ∃ k < p.maxIterations, p.Visits f box x k it
  steep : ¬ maxAbs (freePart box it) ≤ p.gradientTolerance
  accepted : lineSearch f box it (course box it).1 p.maxLineSearch 1 =
    some (point, f point)

end Steps

variable {p : QuasiNewton ℝ} {f : List ℝ → ℝ} {box : List (Interval ℝ)}
  {x : List ℝ} {k : ℕ}
  {it : Iterate ℝ} {point : List ℝ} {r : Minimum ℝ ℝ}

/-! ### Directions -/

/-- The direction of an iteration does not lead uphill. -/
theorem dot_course_nonpos (hit : Sized box.length it) :
    dot it.gradient (course box it).1 ≤ 0 := by
  by_cases hback : FallsBack box it
  · rw [course_of_fallsBack hback]
    refine (opposes_neg_release ?_).dot_nonpos
    rw [hit.length_pinned rfl, hit.gradient]
  · have hfree : dot (modelDirection box it) (freePart box it) =
        dot (modelDirection box it) it.gradient := by
      rw [modelDirection_eq, dot_map_neg, dot_map_neg, freePart, dot_comm,
        dot_comm _ it.gradient, dot_release]
    rw [course_of_not_fallsBack hback, dot_comm, ← hfree]
    exact (not_le.mp hback).le

/-- Without a history the direction is the gradient, against its sign. -/
theorem course_of_history_eq_nil (hhistory : it.history = []) :
    course box it = ((freePart box it).map fun v => -v, []) := by
  by_cases hback : FallsBack box it
  · rw [course_of_fallsBack hback]
  · have hplain :
        inverseHessianTimes [] (freePart box it) = freePart box it := by
      show (freePart box it).map (fun qi => qi * 1) = _
      simp only [mul_one, List.map_id']
    rw [course_of_not_fallsBack hback, modelDirection_eq, hhistory, hplain,
      freePart, release_release]

/-! ### Steps -/

/-- An accepted trial is at a step length that is not negative. -/
theorem exists_nonneg_of_lineSearch {d : List ℝ} {tries : ℕ} {step value : ℝ}
    (hstep : 0 ≤ step)
    (h : lineSearch f box it d tries step = some (point, value)) :
    ∃ t, 0 ≤ t ∧ point = trial box it.point d t := by
  induction tries generalizing step with
  | zero => cases h
  | succ tries ih =>
    simp only [lineSearch] at h
    split at h
    · cases h
      exact ⟨step, hstep, rfl⟩
    · exact ih (mul_nonneg hstep (by norm_num)) h

section Proper

variable (hbox : box.length = x.length) (hproper : ∀ b ∈ box, b.isProper = true)

include hbox hproper

/-- What a trial must keep to be accepted. -/
theorem Steps.le_add (h : p.Steps f box x it point) :
    f point ≤ f it.point + sufficientShare * predictedChange it point := by
  obtain ⟨k, -, hvisits⟩ := h.visited
  obtain ⟨t, -, -, hle⟩ := lineSearch_eq_some h.accepted
  rw [(hvisits.faithful hbox hproper).value_eq] at hle
  exact hle

theorem Steps.le (h : p.Steps f box x it point)
    (hdown : predictedChange it point ≤ 0) :
    f point ≤ f it.point := by
  have hshare : (0 : ℝ) ≤ sufficientShare := by norm_num [sufficientShare]
  linarith [h.le_add hbox hproper, mul_nonpos_of_nonneg_of_nonpos hshare hdown]

/-- A step whose direction opposes the gradient in each component leads
downhill. -/
theorem Steps.predictedChange_nonpos_of_opposes (h : p.Steps f box x it point)
    (hopposes : Opposes (course box it).1 it.gradient) :
    predictedChange it point ≤ 0 := by
  obtain ⟨k, -, hvisits⟩ := h.visited
  obtain ⟨t, ht, rfl⟩ := exists_nonneg_of_lineSearch zero_le_one h.accepted
  exact dot_clamped_nonpos (hvisits.faithful hbox hproper).inBox ht hopposes

/-- A step can lead uphill only if pairs are remembered, there are several
coordinates, and the step is clamped. -/
theorem Steps.predictedChange_nonpos (h : p.Steps f box x it point)
    (hplain : it.history = [] ∨ x.length = 1 ∨
      ∃ t, 0 ≤ t ∧
        point =
          List.zipWith (fun xi di => xi + t * di) it.point (course box it).1) :
    predictedChange it point ≤ 0 := by
  obtain ⟨k, -, hvisits⟩ := h.visited
  have hsized : Sized box.length it := (hvisits.faithful hbox hproper).sized
  have hcourse : dot it.gradient (course box it).1 ≤ 0 :=
    dot_course_nonpos hsized
  have hlength : (course box it).1.length = box.length :=
    hsized.length_course rfl
  -- three plain cases: no history, one coordinate, or a move without clamping
  rcases hplain with hhistory | hone | ⟨t, ht, hpoint⟩
  · refine h.predictedChange_nonpos_of_opposes hbox hproper ?_
    rw [course_of_history_eq_nil hhistory]
    refine opposes_neg_release ?_
    rw [hsized.length_pinned rfl, hsized.gradient]
  · refine h.predictedChange_nonpos_of_opposes hbox hproper ?_
    -- with one component the inner product is its only product
    obtain ⟨di, hd⟩ :=
      List.length_eq_one_iff.mp (hlength.trans (hbox.trans hone))
    obtain ⟨gi, hg⟩ :=
      List.length_eq_one_iff.mp (hsized.gradient.trans (hbox.trans hone))
    rw [hd, hg, dot_cons, dot_nil_right, add_zero, mul_comm] at hcourse
    rw [hd, hg]
    exact .cons hcourse .nil
  · -- unclamped, the change is the share of the step along the direction
    rw [predictedChange, hpoint, dot_straight (hlength.trans hsized.point.symm)]
    exact mul_nonpos_of_nonneg_of_nonpos ht hcourse

/-! ### Searches -/

/-- With a tolerance that is not negative, a step after which the search goes on
makes the value smaller. -/
theorem Steps.lt_of_not_stalls (h : p.Steps f box x it point)
    (htolerance : 0 ≤ p.functionTolerance)
    (hstall : p.stalls it.value (f point) = false) : f point < f it.point := by
  obtain ⟨k, -, hvisits⟩ := h.visited
  rw [(hvisits.faithful hbox hproper).value_eq, stalls, decide_eq_false_iff_not,
    not_le] at hstall
  have hscale : (0 : ℝ) ≤ larger (larger |f it.point| |f point|) 1 :=
    zero_le_one.trans (larger_le_iff.mp le_rfl).2
  exact sub_pos.mp ((mul_nonneg htolerance hscale).trans_lt hstall)

omit hbox hproper in
theorem steps_of_next {it' : Iterate ℝ} (hvisits : p.Visits f box x k it)
    (hk : k < p.maxIterations) (hadvance : Advances p f box k it (.next it')) :
    p.Steps f box x it it'.point ∧ p.stalls it.value (f it'.point) = false := by
  cases hadvance with
  | step _ hsteep hsearch hstall =>
    obtain ⟨t, -, rfl, -⟩ := lineSearch_eq_some hsearch
    exact ⟨⟨⟨k, hk, hvisits⟩, hsteep, hsearch⟩, hstall⟩

omit hbox hproper in
/-- If no step after which the search goes on makes the value larger, no iterate
is worse than the start. -/
theorem Visits.le_start (hvisits : p.Visits f box x k it)
    (hsteps : ∀ it point, p.Steps f box x it point →
      p.stalls it.value (f point) = false →
      f point ≤ f it.point) : f it.point ≤ f (project box x) := by
  induction hvisits with
  | start => exact le_rfl
  | next hs hk hstep ih =>
    obtain ⟨hsteps', hstall⟩ :=
      steps_of_next hs hk (hstep ▸ advances_advance _ _)
    exact (hsteps _ _ hsteps' hstall).trans ih

/-- An answer is at the last iterate, or where the last step led. -/
theorem value_le_or_steps (hsteps : ∀ it point, p.Steps f box x it point →
      p.stalls it.value (f point) = false → f point ≤ f it.point)
    (hr : p.minimize f x box = .ok r) :
    r.value ≤ f (project box x) ∨ r.reason = .reductionBelowTolerance ∧
      r.value = f r.point ∧
      ∃ it, p.Steps f box x it r.point ∧ f it.point ≤ f (project box x) := by
  obtain ⟨k, it, hvisits, hend⟩ :=
    exists_visits_of_iterate .start (Nat.zero_add _) (minimize_eq_ok hr).symm
  have hstart : f it.point ≤ f (project box x) := hvisits.le_start hsteps
  rw [← (hvisits.faithful hbox hproper).value_eq] at hstart
  rcases hend with ⟨hk, hstop⟩ | ⟨-, rfl⟩
  · cases hstop with
    | notFinite | flat | stuck => exact .inl hstart
    | stall _ hsteep hsearch _ =>
      -- the last step of all is the one that may rise
      obtain ⟨t, -, rfl, -⟩ := lineSearch_eq_some hsearch
      rw [(hvisits.faithful hbox hproper).value_eq] at hstart
      exact .inr ⟨rfl, rfl, it, ⟨⟨k, hk, hvisits⟩, hsteep, hsearch⟩, hstart⟩
  · exact .inl hstart

end Proper

/-- **The quasi-Newton search makes the objective worse by a clamped step
only.**  In a box with a proper interval for each coordinate, on every objective
and whatever the parameters: a step raises the value by no more than a share of
what the gradient predicts, and so never where it does not lead uphill.  It does
not where no pair is remembered, where there is only one coordinate, or where
the step is not clamped.  If no step leads uphill, the answer is not worse than
the start, brought into the box.  With a tolerance that is not negative each
step after which the search goes on makes the value smaller, and the answer is
not worse than the start, or its last step led uphill and reduced the value too
little to go on. -/
theorem descends_unless_uphill (p : QuasiNewton ℝ) (f : List ℝ → ℝ) (x : List ℝ)
    (box : List (Interval ℝ)) (hbox : box.length = x.length)
    (hproper : ∀ b ∈ box, b.isProper = true) :
    (∀ it point, p.Steps f box x it point →
      f point ≤ f it.point + sufficientShare * predictedChange it point ∧
      (predictedChange it point ≤ 0 → f point ≤ f it.point) ∧
      (it.history = [] ∨ x.length = 1 ∨
        (∃ t, 0 ≤ t ∧
          point =
            List.zipWith (fun xi di => xi + t * di) it.point (course box it).1) →
        predictedChange it point ≤ 0) ∧
      (0 ≤ p.functionTolerance → p.stalls it.value (f point) = false →
        f point < f it.point)) ∧
    ∀ r, p.minimize f x box = .ok r →
      ((∀ it point, p.Steps f box x it point → predictedChange it point ≤ 0) →
        r.value ≤ f (project box x)) ∧
      (0 ≤ p.functionTolerance → r.value ≤ f (project box x) ∨
        r.reason = .reductionBelowTolerance ∧ ∃ it, p.Steps f box x it r.point ∧
          0 < predictedChange it r.point ∧ f it.point ≤ f (project box x)) := by
  constructor
  · intro it point h
    exact ⟨h.le_add hbox hproper, h.le hbox hproper,
      h.predictedChange_nonpos hbox hproper, h.lt_of_not_stalls hbox hproper⟩
  · intro r hr
    constructor
    · intro hdown
      have hsteps : ∀ it point, p.Steps f box x it point →
          f point ≤ f it.point :=
        fun it point h => h.le hbox hproper (hdown it point h)
      rcases value_le_or_steps hbox hproper
        (fun it point h _ => hsteps it point h) hr with
        hle | ⟨-, hvalue, it, hlast, hle⟩
      · exact hle
      · exact hvalue ▸ (hsteps it r.point hlast).trans hle
    · intro htolerance
      rcases value_le_or_steps hbox hproper
        (fun it point h hstall =>
          (h.lt_of_not_stalls hbox hproper htolerance hstall).le) hr with
        hle | ⟨hreason, hvalue, it, hlast, hle⟩
      · exact .inl hle
      · -- only a last step that is predicted to rise can end above the start
        rcases le_or_gt (predictedChange it r.point) 0 with hdown | hup
        · exact .inl (hvalue ▸ (hlast.le hbox hproper hdown).trans hle)
        · exact .inr ⟨hreason, it, hlast, hup, hle⟩

/-! ### A clamped step uphill -/

/-- A saddle: convex along one axis, concave along the other. -/
noncomputable def saddle (x : List ℝ) : ℝ :=
  6e-9 * x.getD 1 0 ^ 4 - 1e-9 * x.getD 0 0 ^ 4

/-- Over wide differences the slopes are nearly proportional to the
coordinates. -/
theorem gradient_saddle (a b : ℝ) {width : ℝ} (hwidth : width ≠ 0) :
    gradient saddle [a, b] width =
      [-4e-9 * a * (a ^ 2 + width ^ 2), 24e-9 * b * (b ^ 2 + width ^ 2)] := by
  show [(saddle [a + width, b] - saddle [a - width, b]) / (2.0 * width),
    (saddle [a, b + width] - saddle [a, b - width]) / (2.0 * width)] = _
  simp only [saddle, List.getD_cons_zero, List.getD_cons_succ]
  congr 1
  · -- the quotients of a fourth power are exact up to the square of the width
    field_simp
    norm_num
    ring
  · congr 1
    field_simp
    norm_num
    ring

/-- The usual parameters, with wide differences. -/
noncomputable def wideSearch : QuasiNewton ℝ :=
  ⟨1e-6, 2.2e-9, 10, 2000, 40, 16000⟩

/-- A box that ends close to where the first step leads along the concave
axis. -/
def saddleBox : List (Interval ℝ) := [⟨0, 230⟩, ⟨-148, 10⟩]

theorem isProper_of_mem_saddleBox : ∀ b ∈ saddleBox, b.isProper = true := by
  norm_num [saddleBox, Interval.isProper]

noncomputable def saddleStart : Iterate ℝ :=
  ⟨[110, 10], -0.14635, [-112.645324, 61.440024], []⟩

noncomputable def saddleNext : Iterate ℝ :=
  let point := [222.645324, -51.440024]
  let g := -228.032958728255479913914288896
  let g' := -316.050774197196033314120011776
  ⟨point, saddle point, [g, g'],
    [stepBetween saddleStart ⟨point, saddle point, [g, g'], []⟩]⟩

theorem start_saddle :
    wideSearch.start saddle [110, 10] saddleBox = saddleStart := by
  have hproject : project saddleBox [110, 10] = [110, 10] := by
    norm_num [saddleBox, project, Interval.clamp]
  rw [start, hproject]
  show (⟨_, _, gradient saddle [110, 10] 16000, _⟩ : Iterate ℝ) = _
  rw [gradient_saddle _ _ (by norm_num)]
  norm_num [saddle, saddleStart]

/-- The first step follows the gradient, up to the end of the concave axis. -/
theorem advance_saddleStart :
    wideSearch.advance saddle saddleBox 0 saddleStart = .next saddleNext := by
  have hfree : freePart saddleBox saddleStart = [-112.645324, 61.440024] := by
    norm_num [saddleBox, saddleStart, freePart, pinned, isPinned, release]
  have hcourse :
      course saddleBox saddleStart = ([112.645324, -61.440024], []) := by
    rw [course_of_history_eq_nil rfl, hfree]
    norm_num
  have hsteep :
      ¬ maxAbs (freePart saddleBox saddleStart) ≤
        wideSearch.gradientTolerance := by
    rw [hfree, maxAbs_le_iff]
    norm_num [wideSearch, Scalar.abs]
  have htrial : trial saddleBox saddleStart.point [112.645324, -61.440024] 1 =
      saddleNext.point := by
    norm_num [saddleBox, saddleStart, saddleNext, trial, project,
      Interval.clamp]
  have hgradient : gradient saddle saddleNext.point wideSearch.differenceStep =
      saddleNext.gradient := by
    show gradient saddle [_, _] 16000 = _
    rw [gradient_saddle _ _ (by norm_num)]
    norm_num [saddleNext]
  have hstep : wideSearch.accept saddle saddleStart [] saddleNext.point
      (saddle saddleNext.point) = saddleNext := by
    rw [accept, hgradient]
    norm_num [saddleStart, saddleNext, stepBetween, remember, leastCurvature,
      makeRoom, dot, sum]
  rw [← hstep]
  apply advance_of_first_trial rfl hsteep hcourse (Nat.succ_ne_zero 39) htrial
  · norm_num [saddleStart, saddleNext, saddle, sufficientShare, dot, sum]
  · norm_num [wideSearch, stalls, larger, Scalar.abs, saddleStart, saddleNext,
      saddle]

theorem visits_saddleNext :
    wideSearch.Visits saddle saddleBox [110, 10] 1 saddleNext := by
  refine .next .start (by norm_num [wideSearch]) ?_
  rw [start_saddle]
  exact advance_saddleStart

/-- Both coordinates are free at the second iterate. -/
theorem pinned_saddleNext :
    pinned saddleNext.point saddleNext.gradient saddleBox = [false, false] := by
  norm_num [saddleBox, saddleNext, pinned, isPinned]

theorem freePart_saddleNext :
    freePart saddleBox saddleNext = saddleNext.gradient := by
  rw [freePart, pinned_saddleNext]
  rfl

theorem saddleNext_steep :
    ¬ maxAbs (freePart saddleBox saddleNext) ≤
      wideSearch.gradientTolerance := by
  rw [freePart_saddleNext, maxAbs_le_iff]
  norm_num [wideSearch, saddleNext, Scalar.abs]

/-- The direction of the second step leads out of the box along both axes. -/
theorem exists_course_saddleNext :
    ∃ d d', course saddleBox saddleNext = ([d, d'], saddleNext.history) ∧
      263 ≤ d ∧ d' ≤ -97 := by
  have hmodel : modelDirection saddleBox saddleNext =
      List.zipWith (fun di pin => if pin then 0 else -di)
        (inverseHessianTimes saddleNext.history saddleNext.gradient)
          [false, false] := by
    rw [modelDirection, freePart_saddleNext, pinned_saddleNext]
  have hfirst : 263 ≤ (modelDirection saddleBox saddleNext).getD 0 0 := by
    rw [hmodel]
    norm_num [saddleStart, saddleNext, stepBetween,
      inverseHessianTimes_singleton, dot, sum]
  have hsecond : (modelDirection saddleBox saddleNext).getD 1 0 ≤ -97 := by
    rw [hmodel]
    norm_num [saddleStart, saddleNext, stepBetween,
      inverseHessianTimes_singleton, dot, sum]
  obtain ⟨d, d', hd⟩ :=
    List.length_eq_two.mp
      (show (modelDirection saddleBox saddleNext).length = 2 from rfl)
  rw [hd] at hfirst hsecond
  refine ⟨d, d', ?_, hfirst, hsecond⟩
  -- at a visited iterate the search does not fall back on the gradient
  rw [course_of_not_fallsBack, hd]
  exact not_le.mpr
    (visits_saddleNext.dot_modelDirection_neg
      (by norm_num [wideSearch]) saddleNext_steep)

/-- Clamping puts the second step into the far corner of the box. -/
theorem trial_saddleNext {d d' : ℝ} (hd : 263 ≤ d) (hd' : d' ≤ -97) :
    trial saddleBox saddleNext.point [d, d'] 1 = [230, -148] := by
  have hclamp : (⟨0, 230⟩ : Interval ℝ).clamp (222.645324 + 1 * d) = 230 := by
    rw [Interval.clamp, if_neg (by linarith), if_pos (by linarith)]
  have hclamp' :
      (⟨-148, 10⟩ : Interval ℝ).clamp (-51.440024 + 1 * d') = -148 := by
    rw [Interval.clamp, if_pos (by linarith)]
  show [_, _] = _
  rw [hclamp, hclamp']

/-- The second step is clamped along the concave axis, and leads uphill along
the other one. -/
theorem advance_saddleNext : wideSearch.advance saddle saddleBox 1 saddleNext =
    .stop ⟨[230, -148], saddle [230, -148], true, 2,
      .reductionBelowTolerance⟩ := by
  obtain ⟨d, d', hcourse, hd, hd'⟩ := exists_course_saddleNext
  have hsearch :
      lineSearch saddle saddleBox saddleNext (course saddleBox saddleNext).1
      wideSearch.maxLineSearch 1 = some ([230, -148], saddle [230, -148]) := by
    rw [hcourse]
    refine lineSearch_of_first_trial (Nat.succ_ne_zero 39)
      (trial_saddleNext hd hd') ?_
    norm_num [saddleNext, saddle, sufficientShare, dot, sum]
  have hstall :
      wideSearch.stalls saddleNext.value (saddle [230, -148]) = true := by
    norm_num [wideSearch, stalls, larger, Scalar.abs, saddleNext, saddle]
  rw [advance_of_search rfl saddleNext_steep hsearch, hstall, if_pos rfl]

theorem minimize_saddle : wideSearch.minimize saddle [110, 10] saddleBox =
    .ok ⟨[230, -148], saddle [230, -148], true, 2,
      .reductionBelowTolerance⟩ := by
  rw [minimize_of_proper (show 10 ≤ memoryLimit by decide)
    isProper_of_mem_saddleBox, start_saddle]
  show Except.ok
    (wideSearch.iterate saddle saddleBox (1998 + 1 + 1) 0 saddleStart) = _
  rw [iterate, advance_saddleStart]
  dsimp only
  rw [iterate, advance_saddleNext]

theorem lt_saddle :
    saddle (project saddleBox [110, 10]) < saddle [230, -148] := by
  norm_num [saddle, saddleBox, project, Interval.clamp]

/-- On the saddle the last step led uphill, from an iterate that was better than
the start. -/
theorem descends_unless_uphill_saddle :
    ∃ it point, saddleBox.length = [(110 : ℝ), 10].length ∧
      (∀ b ∈ saddleBox, b.isProper = true) ∧ 0 ≤ wideSearch.functionTolerance ∧
      wideSearch.Steps saddle saddleBox [110, 10] it point ∧
      point = [230, -148] ∧
      0 < predictedChange it point ∧
      saddle point ≤
        saddle it.point + sufficientShare * predictedChange it point ∧
      saddle it.point ≤ saddle (project saddleBox [110, 10]) := by
  have htolerance : 0 ≤ wideSearch.functionTolerance := by norm_num [wideSearch]
  obtain ⟨hsteps, hanswer⟩ :=
    descends_unless_uphill wideSearch saddle [110, 10] saddleBox rfl
      isProper_of_mem_saddleBox
  rcases (hanswer _ minimize_saddle).2 htolerance with hle |
      ⟨-, it, hstep, hup, hle⟩
  · exact absurd hle lt_saddle.not_ge
  · exact ⟨it, _, rfl, isProper_of_mem_saddleBox, htolerance, hstep, rfl, hup,
      (hsteps it _ hstep).1, hle⟩

/-- From there the search reports that it has converged, at a point worse than
the start. -/
theorem minimize_worse_than_start :
    ∃ (p : QuasiNewton ℝ) (box : List (Interval ℝ)) (r : Minimum ℝ ℝ),
      p = ⟨1e-6, 2.2e-9, 10, 2000, 40, 16000⟩ ∧ box = [⟨0, 230⟩, ⟨-148, 10⟩] ∧
      (∀ b ∈ box, b.isProper = true) ∧ p.minimize saddle [110, 10] box = .ok r ∧
      r.converged = true ∧ ¬ r.value ≤ saddle (project box [110, 10]) :=
  ⟨_, _, _, rfl, rfl, isProper_of_mem_saddleBox, minimize_saddle, rfl,
    not_le.mpr lt_saddle⟩

end QuasiNewton

end Gimbal
