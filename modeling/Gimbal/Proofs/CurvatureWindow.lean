/-
Gimbal/Proofs/CurvatureWindow.lean

What the quasi-Newton search remembers, over any numbers.

Between two iterates lies a step with the change of the gradient along it
(`stepBetween`).  The search remembers those with enough curvature (`IsCurved`),
forgets the oldest one where its memory is full, and forgets all of them where
the direction that they give does not descend (`FallsBack`).  So its history is
a window on the curved steps since the last time it fell back,

    it.history  =  (curvedSteps path (lastFallback box path k) k).rtake p.memory,

for every memory but one: the history is cut where it has *exactly* as many
pairs as the memory, so a memory of none is never full, and everything is kept
(`kept`).
-/
import Mathlib
import Gimbal.Proofs.QuasiNewtonInvariants

namespace Gimbal

variable {R : Type} [Scalar R]

/-! ### Curved steps -/

namespace Curvature

/-- The step has enough curvature to be remembered. -/
def IsCurved (c : Curvature R) : Prop := leastCurvature < dot c.s c.y

instance (c : Curvature R) : Decidable c.IsCurved := Score.decLt _ _

/-- A pair as the search stores it: a curved step, with one over its inner
product. -/
structure Stored (c : Curvature R) : Prop where
  isCurved : c.IsCurved
  rho_eq : c.rho = 1 / dot c.s c.y

end Curvature

namespace QuasiNewton

variable {p : QuasiNewton R} {f : List R → R} {box : List (Interval R)}
  {x : List R} {k : ℕ}
  {it it' : Iterate R} {path : ℕ → Iterate R}

/-- The step from one iterate to another, with the change of the gradient along
it. -/
def stepBetween (it it' : Iterate R) : Curvature R :=
  let s := List.zipWith (fun a b => a - b) it'.point it.point
  let y := List.zipWith (fun a b => a - b) it'.gradient it.gradient
  ⟨s, y, 1 / dot s y⟩

/-- The curved ones of the steps from an iterate to a later one, in order. -/
def curvedSteps (path : ℕ → Iterate R) (j k : ℕ) : List (Curvature R) :=
  ((List.range' j (k - j)).map fun i =>
    stepBetween (path i) (path (i + 1))).filter
    fun c => decide c.IsCurved

theorem curvedSteps_self (path : ℕ → Iterate R) (j : ℕ) :
    curvedSteps path j j = [] := by
  rw [curvedSteps, Nat.sub_self]
  rfl

theorem curvedSteps_succ {j : ℕ} (hj : j ≤ k) :
    curvedSteps path j (k + 1) = curvedSteps path j k ++
      if (stepBetween (path k) (path (k + 1))).IsCurved then
        [stepBetween (path k) (path (k + 1))]
      else [] := by
  rw [curvedSteps, curvedSteps, Nat.succ_sub hj, List.range'_1_concat,
    Nat.add_sub_cancel' hj, List.map_append, List.filter_append]
  congr 1
  by_cases hcurved : (stepBetween (path k) (path (k + 1))).IsCurved <;>
    simp [hcurved]

/-! ### Falling back -/

/-- The direction that the history gives: minus the approximate inverse Hessian
times the free part of the gradient, without its pinned components. -/
def modelDirection (box : List (Interval R)) (it : Iterate R) : List R :=
  List.zipWith (fun di pin => if pin then 0 else -di)
    (inverseHessianTimes it.history (freePart box it))
      (pinned it.point it.gradient box)

/-- The direction that the history gives does not descend. -/
def FallsBack (box : List (Interval R)) (it : Iterate R) : Prop :=
  0 ≤ dot (modelDirection box it) (freePart box it)

instance (box : List (Interval R)) (it : Iterate R) :
    Decidable (FallsBack box it) :=
  Score.decLe _ _

theorem course_of_fallsBack (h : FallsBack box it) :
    course box it = ((freePart box it).map fun v => -v, []) :=
  if_pos h

theorem course_of_not_fallsBack (h : ¬ FallsBack box it) :
    course box it = (modelDirection box it, it.history) :=
  if_neg h

/-- The last iteration before the `k`-th that fell back; the first one where
none did. -/
def lastFallback (box : List (Interval R)) (path : ℕ → Iterate R) : ℕ → ℕ
  | 0 => 0
  | k + 1 => if FallsBack box (path k) then k else lastFallback box path k

theorem lastFallback_le (box : List (Interval R)) (path : ℕ → Iterate R)
    (k : ℕ) :
    lastFallback box path k ≤ k := by
  induction k with
  | zero => exact le_rfl
  | succ k ih =>
    rw [lastFallback]
    split
    · exact k.le_succ
    · exact ih.trans k.le_succ

/-! ### What a memory keeps -/

/-- What is left of a sequence of pairs, remembered one by one: as many of the
last ones as the memory holds, and all of them where it holds none. -/
def kept (memory : ℕ) (pairs : List (Curvature R)) : List (Curvature R) :=
  if memory = 0 then pairs else pairs.rtake memory

omit [Scalar R] in
theorem kept_nil (memory : ℕ) : kept memory ([] : List (Curvature R)) = [] := by
  rw [kept, List.rtake_nil, ite_self]

omit [Scalar R] in
/-- A full memory loses its oldest pair. -/
theorem makeRoom_rtake (memory : ℕ) (pairs : List (Curvature R)) :
    makeRoom (memory + 1) (pairs.rtake (memory + 1)) = pairs.rtake memory := by
  rw [makeRoom, List.rtake, List.rtake, List.length_drop]
  split
  · rw [List.drop_drop]
    congr 1
    omega
  · congr 1
    omega

omit [Scalar R] in
theorem makeRoom_kept_append (memory : ℕ) (pairs : List (Curvature R))
    (c : Curvature R) :
    makeRoom memory (kept memory pairs) ++ [c] =
      kept memory (pairs ++ [c]) := by
  cases memory with
  | zero =>
    -- only an empty history has the length of this memory, and it has nothing
    -- to lose
    have hroom : makeRoom 0 pairs = pairs := by
      rw [makeRoom]
      split
      · next hempty => rw [List.eq_nil_of_length_eq_zero hempty, List.drop_nil]
      · rfl
    rw [kept, if_pos rfl, kept, if_pos rfl, hroom]
  | succ memory =>
    rw [kept, if_neg memory.succ_ne_zero, kept, if_neg memory.succ_ne_zero,
      makeRoom_rtake, List.rtake_concat_succ]

/-! ### One iteration -/

/-- An iteration remembers its own step, if it is curved, beside what it has not
forgotten. -/
theorem history_next (hadvance : Advances p f box k it (.next it')) :
    it'.history = if (stepBetween it it').IsCurved then
      makeRoom p.memory (course box it).2 ++ [stepBetween it it']
    else (course box it).2 := by
  cases hadvance with
  | step => rfl

theorem stored_next (hit : ∀ c ∈ it.history, c.Stored)
    (hadvance : Advances p f box k it (.next it')) : ∀ c ∈ it'.history,
      c.Stored := by
  -- what a step starts from is the old history or nothing
  have hleft : ∀ c ∈ (course box it).2, c.Stored := by
    by_cases hback : FallsBack box it
    · rw [course_of_fallsBack hback]
      intro c hc
      cases hc
    · rw [course_of_not_fallsBack hback]
      exact hit
  rw [history_next hadvance]
  split
  · next hcurved =>
    rw [List.forall_mem_append, List.forall_mem_singleton]
    exact ⟨fun c hc => hleft c (mem_of_mem_makeRoom hc), hcurved, rfl⟩
  · exact hleft

/-! ### All iterations -/

theorem Visits.stored (h : p.Visits f box x k it) : ∀ c ∈ it.history,
      c.Stored := by
  induction h with
  | start =>
    intro c hc
    cases hc
  | next _ _ hstep ih => exact stored_next ih (hstep ▸ advances_advance _ _)

theorem Visits.unique (h : p.Visits f box x k it)
    (h' : p.Visits f box x k it') : it = it' := by
  refine Reaches.unique ?_ h h'
  intro k s t t' ht ht'
  cases ht.symm.trans ht'
  rfl

theorem Visits.advances (h : p.Visits f box x k it)
    (h' : p.Visits f box x (k + 1) it') :
    Advances p f box k it (.next it') := by
  cases h' with
  | next hs _ hstep =>
    rw [Visits.unique h hs]
    exact hstep ▸ advances_advance _ _

/-- Before an iterate the search has visited one after each smaller number of
iterations. -/
theorem Visits.exists_path (h : p.Visits f box x k it) :
    ∃ path : ℕ → Iterate R, path k = it ∧ ∀ i ≤ k,
      p.Visits f box x i (path i) := by
  -- induction on the iterations, putting each new iterate at the end of the
  -- path
  induction h with
  | start =>
    refine ⟨fun _ => p.start f x box, rfl, fun i hi => ?_⟩
    rw [Nat.le_zero.mp hi]
    exact .start
  | @next k s s' hs hk hstep ih =>
    obtain ⟨path, -, hpath⟩ := ih
    refine ⟨Function.update path (k + 1) s', Function.update_self ..,
      fun i hi => ?_⟩
    rcases Nat.lt_or_eq_of_le hi with hlt | rfl
    · rw [Function.update_of_ne hlt.ne]
      exact hpath i (Nat.le_of_lt_succ hlt)
    · rw [Function.update_self]
      exact .next hs hk hstep

/-- The history is what the memory keeps of the curved steps since the last
fallback. -/
theorem history_eq_kept (hpath : ∀ i ≤ k, p.Visits f box x i (path i)) :
    (path k).history =
      kept p.memory (curvedSteps path (lastFallback box path k) k) := by
  induction k with
  | zero =>
    have hstart : path 0 = p.start f x box :=
      Visits.unique (hpath 0 le_rfl) .start
    rw [hstart, lastFallback, curvedSteps_self, kept_nil]
    rfl
  | succ k ih =>
    have hadvance : Advances p f box k (path k) (.next (path (k + 1))) :=
      (hpath k k.le_succ).advances (hpath (k + 1) le_rfl)
    -- a fallback starts the window again, otherwise it goes on
    have hleft : (course box (path k)).2 =
        kept p.memory (curvedSteps path (lastFallback box path (k + 1)) k) := by
      rw [lastFallback]
      by_cases hback : FallsBack box (path k)
      · rw [if_pos hback, course_of_fallsBack hback, curvedSteps_self, kept_nil]
      · rw [if_neg hback, course_of_not_fallsBack hback]
        exact ih fun i hi => hpath i (hi.trans k.le_succ)
    have hle : lastFallback box path (k + 1) ≤ k := by
      rw [lastFallback]
      split
      · exact le_rfl
      · exact lastFallback_le box path k
    rw [history_next hadvance, hleft, curvedSteps_succ hle]
    -- the new pair comes in where the step is curved
    split
    · exact makeRoom_kept_append ..
    · rw [List.append_nil]

/-- **The curvature history is a window on the curved steps.**  On every
objective, from every start and in every box, over any numbers: each pair in the
history of an iterate that a search visits is a curved step with one over its
inner product; and for every memory but none these are the last so many curved
steps since the search last fell back, oldest first.  Without memory they are
all of these steps. -/
theorem history_window (p : QuasiNewton R) (f : List R → R)
    (box : List (Interval R)) (x : List R) (k : ℕ) (it : Iterate R)
    (hvisits : p.Visits f box x k it) :
    ∃ path : ℕ → Iterate R, path k = it ∧
      (∀ i ≤ k, p.Visits f box x i (path i)) ∧
      (∀ c ∈ it.history, leastCurvature < dot c.s c.y ∧ c.rho = 1 / dot c.s c.y) ∧
      (p.memory ≠ 0 → it.history.length ≤ p.memory ∧
        it.history =
          (curvedSteps path (lastFallback box path k) k).rtake p.memory) ∧
      (p.memory = 0 →
        it.history = curvedSteps path (lastFallback box path k) k) := by
  obtain ⟨path, rfl, hpath⟩ := hvisits.exists_path
  have hhistory : (path k).history =
      kept p.memory (curvedSteps path (lastFallback box path k) k) :=
        history_eq_kept hpath
  rw [kept] at hhistory
  refine ⟨path, rfl, hpath, ?_, ?_, ?_⟩
  · intro c hc
    obtain ⟨hcurved, hrho⟩ := hvisits.stored c hc
    exact ⟨hcurved, hrho⟩
  · intro hmemory
    rw [if_neg hmemory] at hhistory
    refine ⟨?_, hhistory⟩
    rw [hhistory, List.rtake, List.length_drop]
    omega
  · intro hmemory
    rw [hhistory, if_pos hmemory]

/-! ### Two steps down a valley -/

/-- A shallow valley. -/
noncomputable def valley (x : List ℝ) : ℝ := x.headD 0 ^ 2 / 8

/-- The search in the valley: two iterations, with a memory of one pair. -/
noncomputable def valleySearch : QuasiNewton ℝ := ⟨1e-6, 2.2e-9, 1, 2, 40, 1⟩

/-- The start, and the iterates after one and after two steps. -/
noncomputable def valleyPath : ℕ → Iterate ℝ
  | 0 => ⟨[1], 1 / 8, [1 / 4], []⟩
  | 1 => ⟨[3 / 4], 9 / 128, [3 / 16], [⟨[-1 / 4], [-1 / 16], 64⟩]⟩
  | _ => ⟨[0], 0, [0], [⟨[-3 / 4], [-3 / 16], 64 / 9⟩]⟩

theorem start_valley :
    valleySearch.start valley [1] [⟨-5, 5⟩] = valleyPath 0 := by
  norm_num [valleySearch, valleyPath, start, project, Interval.clamp, gradient,
    shift, valley]

/-- The history is empty, and the gradient is followed. -/
theorem advance_valley_zero :
    valleySearch.advance valley [⟨-5, 5⟩] 0 (valleyPath 0) =
      .next (valleyPath 1) := by
  have hfree : freePart [⟨-5, 5⟩] (valleyPath 0) = [1 / 4] := by
    norm_num [valleyPath, freePart, pinned, isPinned, release]
  -- without a history the direction is the negative gradient
  have hcourse : course [⟨-5, 5⟩] (valleyPath 0) = ([-1 / 4], []) := by
    rw [course, hfree]
    norm_num [direction, valleyPath, pinned, isPinned, inverseHessianTimes,
      peel, rebuild, curvatureScale, dot, sum]
  have hsteep : ¬ maxAbs (freePart [⟨-5, 5⟩] (valleyPath 0)) ≤
      valleySearch.gradientTolerance := by
    rw [hfree, maxAbs_le_iff]
    norm_num [valleySearch, Scalar.abs]
  have hstep : valleySearch.accept valley (valleyPath 0) [] [3 / 4]
      (valley [3 / 4]) = valleyPath 1 := by
    norm_num [valleySearch, valleyPath, accept, gradient, shift, valley,
      remember, leastCurvature, makeRoom, dot, sum]
  rw [← hstep]
  apply advance_of_first_trial rfl hsteep hcourse (by decide)
  · norm_num [valleyPath, trial, project, Interval.clamp]
  · norm_num [valleyPath, valley, sufficientShare, dot, sum]
  · norm_num [valleySearch, valleyPath, valley, stalls, larger, Scalar.abs]

/-- The remembered pair has the curvature of the valley, so the step leads to
the bottom; its own pair takes the place of the first one. -/
theorem advance_valley_one :
    valleySearch.advance valley [⟨-5, 5⟩] 1 (valleyPath 1) =
      .next (valleyPath 2) := by
  have hfree : freePart [⟨-5, 5⟩] (valleyPath 1) = [3 / 16] := by
    norm_num [valleyPath, freePart, pinned, isPinned, release]
  -- the remembered pair scales the gradient by four
  have hcourse : course [⟨-5, 5⟩] (valleyPath 1) =
      ([-3 / 4], [⟨[-1 / 4], [-1 / 16], 64⟩]) := by
    rw [course, hfree]
    norm_num [direction, valleyPath, pinned, isPinned, inverseHessianTimes,
      peel, rebuild, curvatureScale, dot, sum]
  have hsteep : ¬ maxAbs (freePart [⟨-5, 5⟩] (valleyPath 1)) ≤
      valleySearch.gradientTolerance := by
    rw [hfree, maxAbs_le_iff]
    norm_num [valleySearch, Scalar.abs]
  have hstep : valleySearch.accept valley (valleyPath 1)
      [⟨[-1 / 4], [-1 / 16], 64⟩] [0] (valley [0]) = valleyPath 2 := by
    norm_num [valleySearch, valleyPath, accept, gradient, shift, valley,
      remember, leastCurvature, makeRoom, dot, sum]
  rw [← hstep]
  apply advance_of_first_trial rfl hsteep hcourse (by decide)
  · norm_num [valleyPath, trial, project, Interval.clamp]
  · norm_num [valleyPath, valley, sufficientShare, dot, sum]
  · norm_num [valleySearch, valleyPath, valley, stalls, larger, Scalar.abs]

theorem visits_valley {i : ℕ} (hi : i ≤ 2) :
    valleySearch.Visits valley [⟨-5, 5⟩] [1] i (valleyPath i) := by
  have hzero : valleySearch.Visits valley [⟨-5, 5⟩] [1] 0 (valleyPath 0) := by
    rw [← start_valley]
    exact .start
  have hone : valleySearch.Visits valley [⟨-5, 5⟩] [1] 1 (valleyPath 1) :=
    .next hzero (show 0 < 2 by decide) advance_valley_zero
  match i with
  | 0 => exact hzero
  | 1 => exact hone
  | 2 => exact .next hone (show 1 < 2 by decide) advance_valley_one

/-- Both steps down the valley are curved and none falls back, so with a memory
of one pair the first pair is forgotten for the second. -/
theorem history_window_valley :
    ∃ (it : Iterate ℝ) (path : ℕ → Iterate ℝ),
      valleySearch.Visits valley [⟨-5, 5⟩] [1] 2 it ∧ path 2 = it ∧
      curvedSteps path 0 2 = [⟨[-1 / 4], [-1 / 16], 64⟩,
        ⟨[-3 / 4], [-3 / 16], 64 / 9⟩] ∧
      lastFallback [⟨-5, 5⟩] path 2 = 0 ∧
      it.history = [⟨[-3 / 4], [-3 / 16], 64 / 9⟩] ∧
      it.history =
        (curvedSteps path (lastFallback [⟨-5, 5⟩] path 2) 2).rtake 1 := by
  obtain ⟨path, hlast, hpath, -, hmemory, -⟩ :=
    history_window _ _ _ _ _ _ (visits_valley le_rfl)
  have hvisited : ∀ i ≤ 2, path i = valleyPath i := fun i hi =>
    Visits.unique (hpath i hi) (visits_valley hi)
  refine ⟨_, path, visits_valley le_rfl, hlast, ?_, ?_, rfl,
    (hmemory Nat.one_ne_zero).2⟩
  · have hzero := hvisited 0 (by decide)
    have hone := hvisited 1 (by decide)
    norm_num [curvedSteps, List.range', stepBetween, hzero, hone, hlast,
      valleyPath, Curvature.IsCurved, leastCurvature, dot, sum]
  · have hzero := hvisited 0 (by decide)
    have hone := hvisited 1 (by decide)
    norm_num [lastFallback, FallsBack, modelDirection, hzero, hone, valleyPath,
      freePart, release, pinned, isPinned, inverseHessianTimes, peel, rebuild,
      curvatureScale, dot, sum]

/-! ### Without memory -/

/-- An oblong bowl. -/
noncomputable def bowl (x : List ℝ) : ℝ := x.getD 0 0 ^ 2 + 2.0 * x.getD 1 0 ^ 2

/-- Whatever the memory, the first step down the bowl is remembered. -/
theorem visits_bowl (memory : ℕ) :
    Visits ⟨1e-6, 2.2e-9, memory, 2, 40, 1⟩ bowl [⟨-5, 5⟩, ⟨-5, 5⟩] [1, 1] 1
      ⟨[0, -1], 2, [0, -4], [⟨[-1, -2], [-2, -8], 1 / 18⟩]⟩ := by
  let p : QuasiNewton ℝ := ⟨1e-6, 2.2e-9, memory, 2, 40, 1⟩
  let box : List (Interval ℝ) := [⟨-5, 5⟩, ⟨-5, 5⟩]
  have hstart : p.start bowl [1, 1] box = ⟨[1, 1], 3, [2, 4], []⟩ := by
    norm_num [p, box, start, project, Interval.clamp, gradient, shift, bowl]
  have hfree : freePart box ⟨[1, 1], 3, [2, 4], []⟩ = [2, 4] := by
    norm_num [box, freePart, pinned, isPinned, release]
  have hcourse : course box ⟨[1, 1], 3, [2, 4], []⟩ = ([-2, -4], []) := by
    norm_num [box, course, hfree, direction, pinned, isPinned,
      inverseHessianTimes, peel, rebuild, curvatureScale, dot, sum]
  have hsteep :
      ¬ maxAbs (freePart box ⟨[1, 1], 3, [2, 4], []⟩) ≤
        p.gradientTolerance := by
    rw [hfree, maxAbs_le_iff]
    norm_num [p, Scalar.abs]
  -- the whole step leads too far, the half one to the valley
  have htrial : trial box [1, 1] [-2, -4] 1 = [-1, -3] := by
    norm_num [box, trial, project, Interval.clamp]
  have htrial' : trial box [1, 1] [-2, -4] (1 * 0.5) = [0, -1] := by
    norm_num [box, trial, project, Interval.clamp]
  have hsearch : lineSearch bowl box ⟨[1, 1], 3, [2, 4], []⟩
      (course box ⟨[1, 1], 3, [2, 4], []⟩).1 p.maxLineSearch 1 =
        some ([0, -1], 2) := by
    rw [hcourse]
    show lineSearch bowl box ⟨[1, 1], 3, [2, 4], []⟩ _ (38 + 1 + 1) 1 = _
    simp only [lineSearch, htrial, htrial']
    rw [if_neg (by norm_num [bowl, sufficientShare, dot, sum]),
      if_pos (by norm_num [bowl, sufficientShare, dot, sum])]
    norm_num [bowl]
  have hstall : p.stalls 3 2 = false := by
    norm_num [p, stalls, larger, Scalar.abs]
  have haccept : p.accept bowl ⟨[1, 1], 3, [2, 4], []⟩ [] [0, -1] 2 =
      ⟨[0, -1], 2, [0, -4], [⟨[-1, -2], [-2, -8], 1 / 18⟩]⟩ := by
    norm_num [p, accept, gradient, shift, bowl, remember, leastCurvature,
      makeRoom, dot, sum]
  have hadvance : p.advance bowl box 0 ⟨[1, 1], 3, [2, 4], []⟩ =
      .next ⟨[0, -1], 2, [0, -4], [⟨[-1, -2], [-2, -8], 1 / 18⟩]⟩ := by
    rw [advance_of_search rfl hsteep hsearch, hstall, hcourse, haccept,
      if_neg Bool.false_ne_true]
  exact .next .start Nat.two_pos (hstart.symm ▸ hadvance)

/-- Without memory the history is longer than the memory after one step. -/
theorem history_longer_than_memory :
    ∃ (p : QuasiNewton ℝ) (it : Iterate ℝ), p = ⟨1e-6, 2.2e-9, 0, 2, 40, 1⟩ ∧
      p.Visits bowl [⟨-5, 5⟩, ⟨-5, 5⟩] [1, 1] 1 it ∧
        ¬ it.history.length ≤ p.memory :=
  ⟨_, _, rfl, visits_bowl 0, by decide⟩

end QuasiNewton

end Gimbal
