/-
Gimbal/Proofs/QuasiNewtonInvariants.lean

The quasi-Newton search on any objective, over totally ordered numbers with any
arithmetic.

Between two iterations the point, the value, the gradient and the history of an
iterate belong together:  the point lies in the box, and value and gradient are
those at the point (`Faithful`).  A direction may come from a history that says
nothing about the objective; what it leads to is clamped before it is tried, and
an accepted trial is where the next iterate is.

An iteration that stops does so in one of four ways, and a search may also run
out of iterations.  All five report a point in the box with its value; two of
them report convergence, and both say why.
-/
import Mathlib
import Gimbal.Proofs.BoxedSearch

namespace Gimbal

variable {R : Type} [Scalar R]

namespace QuasiNewton

variable {p : QuasiNewton R} {f : List R → R} {box : List (Interval R)}
  {x : List R} {k : ℕ}
  {it it' : Iterate R} {r : Minimum R R}

/-! ### The iterates of a search -/

/-- The iterates that a search goes through, each with the number of iterations
before it. -/
def Visits (p : QuasiNewton R) (f : List R → R) (box : List (Interval R))
    (x : List R) :
    ℕ → Iterate R → Prop :=
  Reaches p.maxIterations (fun k it it' => p.advance f box k it = .next it')
    (p.start f x box)

/-- An answer is given in an iteration that stops, or after the last one. -/
theorem exists_visits_of_iterate {left : ℕ} (hvisits : p.Visits f box x k it)
    (hleft : k + left = p.maxIterations) (h : p.iterate f box left k it = r) :
    ∃ k it, p.Visits f box x k it ∧
      (k < p.maxIterations ∧ Advances p f box k it (.stop r) ∨
        k = p.maxIterations ∧
          r = ⟨it.point, it.value, false, k, .iterationLimit⟩) := by
  -- induction on the iterations that are left, one visited state after another
  induction left generalizing k it with
  | zero => exact ⟨k, it, hvisits, .inr ⟨hleft, h.symm⟩⟩
  | succ left ih =>
    have hk : k < p.maxIterations := by omega
    have hadvance : Advances p f box k it (p.advance f box k it) :=
      advances_advance k it
    rw [iterate] at h
    cases hresult : p.advance f box k it with
    | stop result =>
      rw [hresult] at h hadvance
      obtain rfl : result = r := h
      exact ⟨k, it, hvisits, .inl ⟨hk, hadvance⟩⟩
    | next it' =>
      rw [hresult] at h
      exact ih (hvisits.next hk hresult) (by omega) h

/-! ### Points, values and gradients -/

/-- The gradient at a point without its pinned components. -/
def projectedGradient (p : QuasiNewton R) (f : List R → R)
    (box : List (Interval R)) (x : List R) :
    List R :=
  release (gradient f x p.differenceStep)
    (pinned x (gradient f x p.differenceStep) box)

/-- A point in the box, with the value and the gradient there. -/
structure Faithful (p : QuasiNewton R) (f : List R → R)
    (box : List (Interval R)) (it : Iterate R) : Prop where
  inBox : InBox box it.point
  value_eq : it.value = f it.point
  gradient_eq : it.gradient = gradient f it.point p.differenceStep
  sized : Sized box.length it

theorem Faithful.freePart_eq (h : Faithful p f box it) :
    freePart box it = p.projectedGradient f box it.point := by
  rw [freePart, projectedGradient, h.gradient_eq]

variable [Std.IsLinearPreorder R] [Std.LawfulOrderLT R]

theorem faithful_start (hbox : box.length = x.length)
    (hproper : ∀ b ∈ box, b.isProper = true) :
    Faithful p f box (p.start f x box) :=
  ⟨inBox_project hbox hproper, rfl, rfl, hbox ▸ p.sized_start f x box⟩

/-- An accepted trial is in the box, with its value. -/
theorem Faithful.accepted (h : Faithful p f box it)
    (hproper : ∀ b ∈ box, b.isProper = true) {point : List R} {value : R}
    (hsearch : lineSearch f box it (course box it).1 p.maxLineSearch 1 =
      some (point, value)) :
    InBox box point ∧ value = f point := by
  obtain ⟨t, rfl, hvalue, -⟩ := lineSearch_eq_some hsearch
  refine ⟨inBox_project ?_ hproper, hvalue⟩
  rw [List.length_zipWith, h.sized.point, h.sized.length_course rfl, min_self]

theorem Faithful.next (h : Faithful p f box it)
    (hproper : ∀ b ∈ box, b.isProper = true)
    (hadvance : Advances p f box k it (.next it')) : Faithful p f box it' := by
  have hsized : Sized box.length it' := h.sized.next rfl hadvance
  cases hadvance with
  | step _ _ hsearch _ =>
    obtain ⟨hin, hvalue⟩ := h.accepted hproper hsearch
    exact ⟨hin, hvalue, rfl, hsized⟩

theorem Visits.faithful (hbox : box.length = x.length)
    (hproper : ∀ b ∈ box, b.isProper = true) (h : p.Visits f box x k it) :
    Faithful p f box it := by
  induction h with
  | start => exact faithful_start hbox hproper
  | next _ _ hstep ih => exact ih.next hproper (hstep ▸ advances_advance _ _)

/-! ### The whole search -/

/-- What an answer tells.  It is a point in the box with its value, after no
more iterations than allowed; and if it is said to have converged, the projected
gradient there is within its tolerance, or the last step led there from a
visited iterate and reduced the value by no more than its tolerance. -/
structure Reported (p : QuasiNewton R) (f : List R → R)
    (box : List (Interval R)) (x : List R) (r : Minimum R R) : Prop where
  inBox : InBox box r.point
  value_eq : r.value = f r.point
  iterations_le : r.iterations ≤ p.maxIterations
  converged : r.converged = true →
    (0 ≤ p.gradientTolerance ∧
      ∀ v ∈ p.projectedGradient f box r.point,
        Scalar.abs v ≤ p.gradientTolerance) ∨
    ∃ k it, p.Visits f box x k it ∧ r.iterations = k + 1 ∧
      lineSearch f box it (course box it).1 p.maxLineSearch 1 =
        some (r.point, r.value) ∧
      f it.point - f r.point ≤ p.functionTolerance *
        larger (larger (Scalar.abs (f it.point)) (Scalar.abs (f r.point))) 1

theorem reported_of_stop (h : Faithful p f box it)
    (hproper : ∀ b ∈ box, b.isProper = true) (hvisits : p.Visits f box x k it)
    (hk : k < p.maxIterations) (hadvance : Advances p f box k it (.stop r)) :
    p.Reported f box x r := by
  cases hadvance with
  | notFinite | stuck =>
    -- both stop without a claim of convergence
    exact ⟨h.inBox, h.value_eq, hk.le, fun hconverged => by cases hconverged⟩
  | flat _ hflat =>
    -- no coordinate is free to move by more than the tolerance
    refine ⟨h.inBox, h.value_eq, hk.le, fun _ => .inl ?_⟩
    rw [h.freePart_eq] at hflat
    exact maxAbs_le_iff.mp hflat
  | stall _ _ hsearch hstall =>
    -- the last step was accepted, and its descent relative to the values is
    -- below the tolerance
    obtain ⟨hin, hvalue⟩ := h.accepted hproper hsearch
    refine ⟨hin, hvalue, hk, fun _ => .inr ⟨k, it, hvisits, rfl, hsearch, ?_⟩⟩
    rw [h.value_eq, hvalue] at hstall
    exact of_decide_eq_true hstall

theorem reported_iterate (hbox : box.length = x.length)
    (hproper : ∀ b ∈ box, b.isProper = true) :
    p.Reported f box x
      (p.iterate f box p.maxIterations 0 (p.start f x box)) := by
  have hstart : p.Visits f box x 0 (p.start f x box) := .start
  obtain ⟨k, it, hvisits, hend⟩ :=
    exists_visits_of_iterate hstart (Nat.zero_add _) rfl
  have hfaithful := hvisits.faithful hbox hproper
  rcases hend with ⟨hk, hstop⟩ | ⟨hk, hlimit⟩
  · exact reported_of_stop hfaithful hproper hvisits hk hstop
  · rw [hlimit]
    exact ⟨hfaithful.inBox, hfaithful.value_eq, hk.le,
      fun hconverged => by cases hconverged⟩

omit [Std.IsLinearPreorder R] [Std.LawfulOrderLT R] in
/-- An improper interval would be reported before the memory is. -/
theorem minimize_of_memoryLimit_lt (hmemory : memoryLimit < p.memory)
    (hproper : ∀ b ∈ box, b.isProper = true) :
    p.minimize f x box = .error .historyTooLarge := by
  have hcheck : p.checkMemory = .error .historyTooLarge :=
    if_neg (Nat.not_le.mpr hmemory)
  rw [minimize, checkBox_eq_ok hproper, hcheck]
  rfl

/-- **A quasi-Newton search returns a feasible point with its true value.**  In
a box with a proper interval for each coordinate, on every objective and
whatever the tolerances and limits: with a memory for which storage can be
reserved the search comes to an answer, at a point of the box and with the value
there, after no more iterations than allowed, and it reports convergence for one
of two reasons only (`Reported`).  With a larger memory the storage cannot be
reserved, and there is no answer. -/
theorem minimize_feasible (p : QuasiNewton R) (f : List R → R) (x : List R)
    (box : List (Interval R)) (hbox : box.length = x.length)
    (hproper : ∀ b ∈ box, b.isProper = true) :
    (p.memory ≤ memoryLimit → ∃ r, p.minimize f x box = .ok r ∧
      r.point.length = x.length ∧
      p.Reported f box x r) ∧
    (memoryLimit < p.memory →
      p.minimize f x box = .error .historyTooLarge) := by
  have hreported :
      p.Reported f box x
        (p.iterate f box p.maxIterations 0 (p.start f x box)) :=
    reported_iterate hbox hproper
  constructor
  · intro hmemory
    exact ⟨_, minimize_of_proper hmemory hproper,
      hreported.inBox.length_eq.symm.trans hbox, hreported⟩
  · intro hmemory
    exact minimize_of_memoryLimit_lt hmemory hproper

/-- The identity on the unit interval, from a start beyond it: without memory,
without line search and without iterations there is an answer too. -/
theorem minimize_feasible_identity :
    ∃ (usual bare : QuasiNewton ℝ) (r r' : Minimum ℝ ℝ), usual = default ∧
      bare = ⟨1, 1, 0, 0, 0, 1⟩ ∧
      usual.minimize (fun x => x.headD 0) [2] [⟨0, 1⟩] = .ok r ∧
      bare.minimize (fun x => x.headD 0) [2] [⟨0, 1⟩] = .ok r' ∧
      InBox [⟨0, 1⟩] r.point ∧ r.value = r.point.headD 0 ∧ r.iterations ≤ 2000 ∧
      InBox [⟨0, 1⟩] r'.point ∧ r'.value = r'.point.headD 0 ∧
      r'.iterations = 0 := by
  obtain ⟨r, hr, -, hreported⟩ :=
    (minimize_feasible default (fun x => x.headD 0) [2] [⟨0, 1⟩] rfl
      isProper_of_mem_unit).1
      (show 10 ≤ memoryLimit by decide)
  -- a minimizer that remembers nothing and may not take a step
  obtain ⟨r', hr', -, hreported'⟩ :=
    (minimize_feasible ⟨1, 1, 0, 0, 0, 1⟩ (fun x => x.headD 0) [2] [⟨0, 1⟩] rfl
      isProper_of_mem_unit).1 (Nat.zero_le _)
  exact ⟨_, _, r, r', rfl, rfl, hr, hr', hreported.inBox, hreported.value_eq,
    hreported.iterations_le, hreported'.inBox, hreported'.value_eq,
    Nat.le_zero.mp hreported'.iterations_le⟩

/-- With the largest memory that a machine word can ask for there is no answer,
not even for a constant. -/
theorem minimize_largest_memory :
    ∃ p : QuasiNewton ℝ, p = { default with memory := 18446744073709551615 } ∧
      ([⟨0, 1⟩] : List (Interval ℝ)).length = [(1 / 2 : ℝ)].length ∧
      (∀ b ∈ ([⟨0, 1⟩] : List (Interval ℝ)), b.isProper = true) ∧
      ¬ ∃ r, p.minimize (fun _ => 1) [1 / 2] [⟨0, 1⟩] = .ok r := by
  refine ⟨_, rfl, rfl, isProper_of_mem_unit, ?_⟩
  rintro ⟨r, hr⟩
  rw [minimize_of_memoryLimit_lt
    (show memoryLimit < 18446744073709551615 by decide)
    isProper_of_mem_unit] at hr
  cases hr

end QuasiNewton

end Gimbal
