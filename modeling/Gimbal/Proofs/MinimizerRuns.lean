/-
Gimbal/Proofs/MinimizerRuns.lean

What the two searches in a box return, over any numbers and for every objective.

One iteration of either search is inverted once: `QuasiNewton.Advances` and
`SimplexSearch.Advances` list all that an iteration can do, with the conditions
under which it does it, and what a single iteration keeps a whole search keeps
(`iterate_induction`).  Two facts follow.

* The value that is reported is the objective at the point that is reported
  (`Minimizer.Reports`).
* In a box with one proper interval for each coordinate the search comes to an
  answer, at a point with as many coordinates as the start
  (`Minimizer.Answers`).

The second one needs that no vector of a search changes its length: the zipped
vectors of a quasi-Newton iterate are cut to the shorter one, and a simplex in
`n` dimensions must keep its `n + 1` vertices.
-/
import Mathlib
import Gimbal.Minimize.QuasiNewton
import Gimbal.Minimize.SimplexSearch

namespace Gimbal

variable {R : Type} [Scalar R]

/-! ### Minimizers -/

namespace Minimizer

/-- The reported value is the objective at the reported point. -/
def Reports (m : Minimizer R) : Prop :=
  ∀ f x box r, m.minimize f x box = .ok r → r.value = f r.point

/-- In a box with a proper interval for each coordinate, and at least one, there
is an answer, and its point has as many coordinates as the start. -/
def Answers (m : Minimizer R) : Prop :=
  ∀ f x box, x ≠ [] → box.length = x.length → (∀ b ∈ box, b.isProper = true) →
    ∃ r, m.minimize f x box = .ok r ∧ r.point.length = x.length

end Minimizer

/-- A computation that succeeds succeeds at each of its steps. -/
theorem exists_of_bind_eq_ok {ε α β : Type} {x : Except ε α}
    {f : α → Except ε β} {b : β} (h : x >>= f = .ok b) :
    ∃ a, x = .ok a ∧ f a = .ok b := by
  cases x with
  | error e => cases h
  | ok a => exact ⟨a, rfl, h⟩

/-! ### Boxes -/

@[simp] theorem length_project (box : List (Interval R)) (x : List R) :
    (project box x).length = x.length := by
  fun_induction project box x with
  | case1 b box x xs ih => rw [List.length_cons, ih, List.length_cons]
  | case2 => rfl

theorem checkBox_eq_ok {n : ℕ} {box : List (Interval R)}
    (h : ∀ b ∈ box, b.isProper = true) :
    checkBox n box = .ok () := by
  rw [checkBox, if_pos]
  rw [List.all_eq_true]
  intro b hb
  exact h b (List.mem_of_mem_take hb)

/-- The box of whole turns. -/
theorem isProper_of_mem_turns (hturn : (0 : R) ≤ tau) {n : ℕ} :
    ∀ b ∈ List.replicate n (⟨0, tau⟩ : Interval R), b.isProper = true := by
  intro b hb
  rw [List.eq_of_mem_replicate hb]
  exact decide_eq_true hturn

namespace QuasiNewton

/-! ### An iteration of the quasi-Newton search -/

/-- The gradient of an iterate without its pinned components. -/
def freePart (box : List (Interval R)) (it : Iterate R) : List R :=
  release it.gradient (pinned it.point it.gradient box)

/-- The direction in which an iteration searches, and the history it leaves. -/
def course (box : List (Interval R)) (it : Iterate R) :
    List R × List (Curvature R) :=
  direction it (freePart box it) (pinned it.point it.gradient box)

/-- What an iteration can lead to. -/
inductive Advances (p : QuasiNewton R) (f : List R → R)
    (box : List (Interval R)) (k : ℕ) (it : Iterate R) :
    Progress (Iterate R) R R → Prop
  | notFinite (hvalue : Scalar.isFinite it.value = false) :
      Advances p f box k it
        (.stop ⟨it.point, it.value, false, k, .objectiveNotFinite⟩)
  | flat (hvalue : Scalar.isFinite it.value = true)
      (hflat : maxAbs (freePart box it) ≤ p.gradientTolerance) :
      Advances p f box k it
        (.stop ⟨it.point, it.value, true, k, .gradientBelowTolerance⟩)
  | stuck (hvalue : Scalar.isFinite it.value = true)
      (hsteep : ¬ maxAbs (freePart box it) ≤ p.gradientTolerance)
      (hsearch : lineSearch f box it (course box it).1 p.maxLineSearch 1
        = none) :
      Advances p f box k it
        (.stop ⟨it.point, it.value, false, k, .lineSearchFailed⟩)
  | stall {point : List R} {value : R}
      (hvalue : Scalar.isFinite it.value = true)
      (hsteep : ¬ maxAbs (freePart box it) ≤ p.gradientTolerance)
      (hsearch : lineSearch f box it (course box it).1 p.maxLineSearch 1 =
        some (point, value))
      (hstall : p.stalls it.value value = true) :
      Advances p f box k it
        (.stop ⟨point, value, true, k + 1, .reductionBelowTolerance⟩)
  | step {point : List R} {value : R} (hvalue : Scalar.isFinite it.value = true)
      (hsteep : ¬ maxAbs (freePart box it) ≤ p.gradientTolerance)
      (hsearch : lineSearch f box it (course box it).1 p.maxLineSearch 1 =
        some (point, value))
      (hstall : p.stalls it.value value = false) :
      Advances p f box k it
        (.next (p.accept f it (course box it).2 point value))

variable {p : QuasiNewton R} {f : List R → R} {box : List (Interval R)}

theorem advances_advance (k : ℕ) (it : Iterate R) :
    Advances p f box k it (p.advance f box k it) := by
  -- the branches of a step, each with the conditions on its way
  unfold advance
  split
  · next hvalue => exact .notFinite (by simpa using hvalue)
  · next hvalue =>
    have hfinite : Scalar.isFinite it.value = true := by simpa using hvalue
    dsimp only
    split
    · next hflat => exact .flat hfinite hflat
    · next hsteep =>
      split
      · next hsearch => exact .stuck hfinite hsteep hsearch
      · next point value hsearch =>
        split
        · next hstall => exact .stall hfinite hsteep hsearch hstall
        · next hstall =>
          exact .step hfinite hsteep hsearch (by simpa using hstall)

/-- An accepted step leads to the answer or to the next iterate, whether or not
it stalls. -/
theorem advance_of_search {k : ℕ} {it : Iterate R}
    (hvalue : Scalar.isFinite it.value = true)
    (hsteep : ¬ maxAbs (freePart box it) ≤ p.gradientTolerance) {point : List R}
    {value : R}
    (hsearch : lineSearch f box it (course box it).1 p.maxLineSearch 1 =
      some (point, value)) :
    p.advance f box k it = if p.stalls it.value value then
      .stop ⟨point, value, true, k + 1, .reductionBelowTolerance⟩
    else .next (p.accept f it (course box it).2 point value) := by
  have hadvance : Advances p f box k it (p.advance f box k it) :=
    advances_advance k it
  generalize p.advance f box k it = progress at hadvance ⊢
  -- the search was successful, which leaves two of the five cases
  cases hadvance with
  | notFinite hvalue' =>
    rw [hvalue] at hvalue'
    cases hvalue'
  | flat _ hflat => exact absurd hflat hsteep
  | stuck _ _ hsearch' => cases hsearch.symm.trans hsearch'
  | stall _ _ hsearch' hstall =>
    cases hsearch.symm.trans hsearch'
    rw [if_pos hstall]
  | step _ _ hsearch' hstall =>
    cases hsearch.symm.trans hsearch'
    rw [hstall, if_neg Bool.false_ne_true]

/-- What holds of the iterate after each iteration decides what holds of the
answer. -/
theorem iterate_induction {P : Iterate R → Prop} {Q : Minimum R R → Prop}
    (hnext : ∀ k it it', P it → Advances p f box k it (.next it') → P it')
    (hstop : ∀ k it r, P it → Advances p f box k it (.stop r) → Q r)
    (hlimit : ∀ k it, P it → Q ⟨it.point, it.value, false, k, .iterationLimit⟩)
    (left k : ℕ) {it : Iterate R} (h : P it) :
    Q (p.iterate f box left k it) := by
  induction left generalizing k it with
  | zero => exact hlimit k it h
  | succ left ih =>
    have hadvance : Advances p f box k it (p.advance f box k it) :=
      advances_advance k it
    rw [iterate]
    cases hresult : p.advance f box k it with
    | stop r => exact hstop k it r h (hresult ▸ hadvance)
    | next it' => exact ih (k + 1) (hnext k it it' h (hresult ▸ hadvance))

/-- An accepted step ends at a trial point and keeps its share of the predicted
reduction. -/
theorem lineSearch_eq_some {it : Iterate R} {d : List R} {tries : ℕ}
    {step value : R} {point : List R}
    (h : lineSearch f box it d tries step = some (point, value)) :
    ∃ t, point = trial box it.point d t ∧ value = f point ∧
      value ≤ it.value + sufficientShare *
        dot it.gradient (List.zipWith (fun c xi => c - xi) point it.point) := by
  -- induction on the trials left; the first that is low enough is taken
  induction tries generalizing step with
  | zero => cases h
  | succ tries ih =>
    simp only [lineSearch] at h
    split at h
    · next hle =>
      cases h
      exact ⟨step, rfl, rfl, hle⟩
    · exact ih h

/-- The first trial is taken where it falls enough. -/
theorem lineSearch_of_first_trial {it : Iterate R} {d point : List R} {step : R}
    {tries : ℕ} (htries : tries ≠ 0)
    (htrial : trial box it.point d step = point)
    (hfall : f point ≤
      it.value + sufficientShare *
        dot it.gradient (List.zipWith (fun c xi => c - xi) point it.point)) :
    lineSearch f box it d tries step = some (point, f point) := by
  obtain ⟨tries, rfl⟩ := Nat.exists_eq_succ_of_ne_zero htries
  rw [lineSearch, htrial]
  exact if_pos hfall

/-- A step whose first trial falls enough, and by more than the tolerance, leads
to that trial. -/
theorem advance_of_first_trial {k : ℕ} {it : Iterate R} {d point : List R}
    {history : List (Curvature R)} (hvalue : Scalar.isFinite it.value = true)
    (hsteep : ¬ maxAbs (freePart box it) ≤ p.gradientTolerance)
    (hcourse : course box it = (d, history)) (htries : p.maxLineSearch ≠ 0)
    (htrial : trial box it.point d 1 = point)
    (hfall : f point ≤
      it.value + sufficientShare *
        dot it.gradient (List.zipWith (fun c xi => c - xi) point it.point))
    (hstall : p.stalls it.value (f point) = false) :
    p.advance f box k it = .next (p.accept f it history point (f point)) := by
  have hsearch : lineSearch f box it (course box it).1 p.maxLineSearch 1 =
      some (point, f point) := by
    rw [hcourse]
    exact lineSearch_of_first_trial htries htrial hfall
  rw [advance_of_search hvalue hsteep hsearch, hstall, hcourse,
    if_neg Bool.false_ne_true]

theorem minimize_eq_ok {x : List R} {r : Minimum R R}
    (h : p.minimize f x box = .ok r) :
    r = p.iterate f box p.maxIterations 0 (p.start f x box) := by
  obtain ⟨-, -, h⟩ := exists_of_bind_eq_ok h
  obtain ⟨-, -, h⟩ := exists_of_bind_eq_ok h
  exact (Except.ok.inj h).symm

/-- With storage for its history, a search in a proper box is made. -/
theorem minimize_of_proper {x : List R} (hmemory : p.memory ≤ memoryLimit)
    (hproper : ∀ b ∈ box, b.isProper = true) :
    p.minimize f x box =
      .ok (p.iterate f box p.maxIterations 0 (p.start f x box)) := by
  have hcheck : p.checkMemory = .ok () := if_pos hmemory
  rw [minimize, checkBox_eq_ok hproper, hcheck]
  rfl

/-- An iterate where the gradient is within the tolerance is the answer. -/
theorem iterate_of_flat {it : Iterate R} {left : ℕ} (k : ℕ) (hleft : left ≠ 0)
    (hvalue : Scalar.isFinite it.value = true)
    (hflat : maxAbs (freePart box it) ≤ p.gradientTolerance) :
    p.iterate f box left k it =
      ⟨it.point, it.value, true, k, .gradientBelowTolerance⟩ := by
  obtain ⟨left, rfl⟩ := Nat.exists_eq_succ_of_ne_zero hleft
  have hadvance : Advances p f box k it (p.advance f box k it) :=
    advances_advance k it
  rw [iterate]
  generalize p.advance f box k it = progress at hadvance ⊢
  -- a flat gradient is noticed before anything else
  cases hadvance with
  | flat => rfl
  | notFinite hvalue' =>
    rw [hvalue] at hvalue'
    cases hvalue'
  | stuck _ hsteep | stall _ hsteep | step _ hsteep => exact absurd hflat hsteep

/-! ### Values and lengths in the quasi-Newton search -/

theorem reports_minimizer (p : QuasiNewton R) : p.minimizer.Reports := by
  intro f x box r h
  have hstart : (p.start f x box).value = f (p.start f x box).point := rfl
  rw [minimize_eq_ok h]
  refine iterate_induction (P := fun it => it.value = f it.point)
    (Q := fun r => r.value = f r.point) ?_ ?_ ?_ _ _ hstart
  · intro k it it' hit hadvance
    cases hadvance with
    | step _ _ hsearch _ =>
      obtain ⟨t, -, hvalue, -⟩ := lineSearch_eq_some hsearch
      exact hvalue
  · intro k it r hit hadvance
    cases hadvance with
    | notFinite | flat | stuck => exact hit
    | stall _ _ hsearch _ =>
      obtain ⟨t, -, hvalue, -⟩ := lineSearch_eq_some hsearch
      exact hvalue
  · intro k it hit
    exact hit

theorem length_gradient (f : List R → R) (x : List R) (step : R) :
    (gradient f x step).length = x.length := by
  rw [gradient, List.length_map, List.length_zipIdx]

omit [Scalar R] in
theorem mem_of_mem_makeRoom {memory : ℕ} {history : List (Curvature R)}
    {c : Curvature R} (h : c ∈ makeRoom memory history) : c ∈ history := by
  rw [makeRoom] at h
  split at h
  · exact List.mem_of_mem_drop h
  · exact h

/-- What is remembered was remembered before, or is the last step. -/
theorem mem_remember {memory : ℕ} {history : List (Curvature R)} {s y : List R}
    {c : Curvature R} (h : c ∈ remember memory history s y) :
    c ∈ history ∨ c = ⟨s, y, 1 / dot s y⟩ := by
  simp only [remember] at h
  split at h
  · rcases List.mem_append.mp h with hold | hnew
    · exact .inl (mem_of_mem_makeRoom hold)
    · exact .inr (List.mem_singleton.mp hnew)
  · exact Or.inl h

/-- All vectors of an iterate have `n` components. -/
structure Sized (n : ℕ) (it : Iterate R) : Prop where
  point : it.point.length = n
  gradient : it.gradient.length = n
  history : ∀ c ∈ it.history, c.s.length = n ∧ c.y.length = n

/-- The gradient has as many components as the point, and the pairs of the
history as many as there are coordinates with an interval. -/
structure Aligned (box : List (Interval R)) (it : Iterate R) : Prop where
  gradient : it.gradient.length = it.point.length
  history : ∀ c ∈ it.history,
    c.s.length = min it.point.length box.length ∧
      c.y.length = min it.point.length box.length

variable {n : ℕ}

theorem length_peel {history : List (Curvature R)} {g : List R}
    (hg : g.length = n) (h : ∀ c ∈ history, c.y.length = n) :
    (peel history g).1.length = n := by
  rw [peel]
  refine List.foldlRecOn
    (motive := fun acc : List R × List R => acc.1.length = n) _ _ hg ?_
  intro acc hacc c hc
  rw [List.length_zipWith, hacc, h c (List.mem_reverse.mp hc), min_self]

theorem length_rebuild {history : List (Curvature R)} {alphas q : List R}
    (hq : q.length = n) (h : ∀ c ∈ history, c.s.length = n) :
    (rebuild history alphas q).length = n := by
  rw [rebuild]
  refine List.foldlRecOn (motive := fun q : List R => q.length = n) _ _ hq ?_
  intro q hq' pair hpair
  rw [List.length_zipWith, hq', h pair.1 (List.of_mem_zip hpair).1, min_self]

theorem length_inverseHessianTimes {history : List (Curvature R)} {g : List R}
    (hg : g.length = n) (h : ∀ c ∈ history, c.s.length = n ∧ c.y.length = n) :
    (inverseHessianTimes history g).length = n := by
  rw [inverseHessianTimes]
  refine length_rebuild ?_ fun c hc => (h c hc).1
  rw [List.length_map]
  exact length_peel hg fun c hc => (h c hc).2

namespace Aligned

variable {it : Iterate R}

theorem length_pinned (h : Aligned box it) :
    (pinned it.point it.gradient box).length =
      min it.point.length box.length := by
  rw [pinned, List.length_zipWith, List.length_zip, h.gradient, min_self]

theorem length_freePart (h : Aligned box it) :
    (freePart box it).length = min it.point.length box.length := by
  rw [freePart, release, List.length_zipWith, h.length_pinned, h.gradient]
  omega

theorem length_course (h : Aligned box it) :
    (course box it).1.length = min it.point.length box.length := by
  unfold course direction
  dsimp only
  split
  · rw [List.length_map, h.length_freePart]
  · rw [List.length_zipWith,
      length_inverseHessianTimes h.length_freePart h.history, h.length_pinned,
      min_self]

/-- The history that is left is the one of the iterate, or none. -/
theorem history_course (h : Aligned box it) : ∀ c ∈ (course box it).2,
    c.s.length = min it.point.length box.length ∧
      c.y.length = min it.point.length box.length := by
  unfold course direction
  dsimp only
  split
  · intro c hc
    cases hc
  · exact h.history

theorem length_accepted (h : Aligned box it) {point : List R} {value : R}
    (hsearch : lineSearch f box it (course box it).1 p.maxLineSearch 1 =
      some (point, value)) :
    point.length = min it.point.length box.length := by
  obtain ⟨t, rfl, -, -⟩ := lineSearch_eq_some hsearch
  rw [trial, length_project, List.length_zipWith, h.length_course]
  omega

theorem next {k : ℕ} {it' : Iterate R} (h : Aligned box it)
    (hadvance : Advances p f box k it (.next it')) : Aligned box it' := by
  cases hadvance with
  | @step point value _ _ hsearch _ =>
    have hpoint : point.length = min it.point.length box.length :=
      h.length_accepted hsearch
    have hgradient :
        (Gimbal.gradient f point p.differenceStep).length = point.length :=
      length_gradient ..
    have hcut :
        min point.length box.length = min it.point.length box.length := by omega
    refine ⟨hgradient, fun c hc => ?_⟩
    show c.s.length = min point.length box.length ∧
      c.y.length = min point.length box.length
    rw [hcut]
    rcases mem_remember hc with hold | rfl
    · exact h.history_course c hold
    · rw [List.length_zipWith, List.length_zipWith, hgradient,
        h.gradient, hpoint]
      omega

end Aligned

omit [Scalar R] in
/-- In a box of as many intervals, the vectors of an iterate have all the
components of its point. -/
theorem sized_iff_aligned {it : Iterate R} (hbox : box.length = n) :
    Sized n it ↔ it.point.length = n ∧ Aligned box it := by
  constructor
  · intro h
    refine ⟨h.point, h.gradient.trans h.point.symm, ?_⟩
    rw [h.point, hbox, min_self]
    exact h.history
  · rintro ⟨hpoint, hgradient, hhistory⟩
    rw [hpoint, hbox, min_self] at hhistory
    exact ⟨hpoint, hgradient.trans hpoint, hhistory⟩

namespace Sized

variable {it : Iterate R}

omit [Scalar R] in
theorem aligned (h : Sized n it) (hbox : box.length = n) : Aligned box it :=
  ((sized_iff_aligned hbox).mp h).2

theorem length_pinned (h : Sized n it) (hbox : box.length = n) :
    (pinned it.point it.gradient box).length = n := by
  rw [(h.aligned hbox).length_pinned, h.point, hbox, min_self]

theorem length_course (h : Sized n it) (hbox : box.length = n) :
    (course box it).1.length = n := by
  rw [(h.aligned hbox).length_course, h.point, hbox, min_self]

theorem length_accepted (h : Sized n it) (hbox : box.length = n)
    {point : List R} {value : R}
    (hsearch : lineSearch f box it (course box it).1 p.maxLineSearch 1 =
      some (point, value)) :
    point.length = n := by
  rw [(h.aligned hbox).length_accepted hsearch, h.point, hbox, min_self]

/-- An accepted step leaves an iterate of the same size. -/
theorem next {k : ℕ} {it' : Iterate R} (h : Sized n it) (hbox : box.length = n)
    (hadvance : Advances p f box k it (.next it')) : Sized n it' := by
  refine (sized_iff_aligned hbox).mpr ⟨?_, (h.aligned hbox).next hadvance⟩
  cases hadvance with
  | step _ _ hsearch _ => exact h.length_accepted hbox hsearch

end Sized

/-- A search in a box of as many intervals keeps the number of coordinates. -/
theorem length_iterate (hbox : box.length = n) (left k : ℕ) {it : Iterate R}
    (h : Sized n it) :
    (p.iterate f box left k it).point.length = n := by
  refine iterate_induction (P := Sized n) (Q := fun r => r.point.length = n) ?_
    ?_ ?_ _ _ h
  · intro k it it' hit hadvance
    exact hit.next hbox hadvance
  · intro k it r hit hadvance
    cases hadvance with
    | notFinite | flat | stuck => exact hit.point
    | stall _ _ hsearch _ => exact hit.length_accepted hbox hsearch
  · intro k it hit
    exact hit.point

theorem sized_start (p : QuasiNewton R) (f : List R → R) (x : List R)
    (box : List (Interval R)) :
    Sized x.length (p.start f x box) := by
  refine ⟨length_project box x, ?_, ?_⟩
  · exact (length_gradient f _ _).trans (length_project box x)
  · intro c hc
    cases hc

theorem answers_minimizer {p : QuasiNewton R}
    (hmemory : p.memory ≤ memoryLimit) :
    p.minimizer.Answers := by
  intro f x box _ hbox hproper
  exact ⟨_, minimize_of_proper hmemory hproper,
    length_iterate hbox _ _ (p.sized_start f x box)⟩

end QuasiNewton

/-! ### A round of the simplex search -/

variable {V : Type} [Score V]

omit [Score V] in
theorem length_along (box : List (Interval R)) (base toward : List R) (t : R) :
    (along box base toward t).length = min base.length toward.length := by
  rw [along, length_project, List.length_zipWith]

omit [Score V] in
theorem length_centroid {n : ℕ} {vertices : List (Vertex R V)}
    (h : ∀ v ∈ vertices, v.point.length = n) :
    (centroid n vertices).length = n := by
  rw [centroid]
  refine List.foldlRecOn (motive := fun c : List R => c.length = n) _ _
    List.length_replicate ?_
  intro c hc v hv
  rw [List.length_zipWith, hc, h v hv, min_self]

theorem firstLeast_mem {α : Type} (score : α → V) (x : α) (xs : List α) :
    firstLeast score x xs ∈ x :: xs := by
  rw [firstLeast]
  refine List.foldlRecOn (motive := fun best => best ∈ x :: xs) _ _
    List.mem_cons_self ?_
  intro best hbest y hy
  split
  · exact hbest
  · exact List.mem_cons_of_mem x hy

namespace SimplexSearch

/-- What a round can lead to. -/
inductive Advances (p : SimplexSearch R V) (f : List R → V)
    (box : List (Interval R)) (n k : ℕ) (vertices : List (Vertex R V)) :
    Except Fault (Progress (List (Vertex R V)) R V) → Prop
  | empty (hsort : sortVertices vertices = []) :
      Advances p f box n k vertices (.error .noSecondVertex)
  | collapse {best : Vertex R V} {others : List (Vertex R V)}
      (hsort : sortVertices vertices = best :: others)
      (hsmall : p.collapsed best (others.getLastD best) others = true) :
      Advances p f box n k vertices
        (.ok (.stop ⟨best.point, best.value, true, k, .simplexCollapsed⟩))
  | alone {best : Vertex R V} {others : List (Vertex R V)}
      (hsort : sortVertices vertices = best :: others)
      (hlarge : p.collapsed best (others.getLastD best) others = false)
      (hsecond : (best :: others).dropLast.getLast? = none) :
      Advances p f box n k vertices (.error .noSecondVertex)
  | replace {best second v : Vertex R V} {others : List (Vertex R V)}
      (hsort : sortVertices vertices = best :: others)
      (hlarge : p.collapsed best (others.getLastD best) others = false)
      (hsecond : (best :: others).dropLast.getLast? = some second)
      (hreplace : replacement? f box n best second (others.getLastD best)
        (best :: others).dropLast = some v) :
      Advances p f box n k vertices
        (.ok (.next ((best :: others).dropLast ++ [v])))
  | shrink {best second : Vertex R V} {others : List (Vertex R V)}
      (hsort : sortVertices vertices = best :: others)
      (hlarge : p.collapsed best (others.getLastD best) others = false)
      (hsecond : (best :: others).dropLast.getLast? = some second)
      (hreplace : replacement? f box n best second (others.getLastD best)
        (best :: others).dropLast = none) :
      Advances p f box n k vertices (.ok (.next (shrink f box best others)))

variable {p : SimplexSearch R V} {f : List R → V}
  {box : List (Interval R)} {n : ℕ}

theorem advances_advance (k : ℕ) (vertices : List (Vertex R V)) :
    Advances p f box n k vertices (p.advance f box n k vertices) := by
  unfold advance
  split
  · next hsort => exact .empty hsort
  · next best others hsort =>
    dsimp only
    split
    · next hsmall => exact .collapse hsort hsmall
    · next hlarge =>
      replace hlarge :
          p.collapsed best (others.getLastD best) others = false := by
        simpa using hlarge
      split
      · next hsecond => exact .alone hsort hlarge hsecond
      · next second hsecond =>
        split
        · next v hreplace => exact .replace hsort hlarge hsecond hreplace
        · next hreplace => exact .shrink hsort hlarge hsecond hreplace

/-- What replaces the worst vertex lies on a line through the centroid of the
others and the worst vertex or its reflection. -/
theorem replacement?_eq_some {best second worst v : Vertex R V}
    {face : List (Vertex R V)}
    (h : replacement? f box n best second worst face = some v) :
    ∃ toward t,
      (toward = worst.point ∨
        toward = along box (centroid n face) worst.point (-1.0)) ∧
      v = vertexAt f (along box (centroid n face) toward t) := by
  simp only [replacement?] at h
  -- an expansion or the reflection, which both go away from the worst vertex
  split at h
  · obtain rfl := Option.some.inj h
    split
    · exact ⟨_, _, Or.inl rfl, rfl⟩
    · exact ⟨_, _, Or.inl rfl, rfl⟩
  · split at h
    · obtain rfl := Option.some.inj h
      exact ⟨_, _, Or.inl rfl, rfl⟩
    · -- a contraction, on the side of the better of the worst vertex and its
      -- reflection
      split at h
      · split at h
        · obtain rfl := Option.some.inj h
          exact ⟨_, _, Or.inr rfl, rfl⟩
        · cases h
      · split at h
        · obtain rfl := Option.some.inj h
          exact ⟨_, _, Or.inl rfl, rfl⟩
        · cases h

/-! ### Values and lengths in the simplex search -/

/-- A point of `n` coordinates with its value. -/
structure IsVertex (f : List R → V) (n : ℕ) (v : Vertex R V) : Prop where
  length_point : v.point.length = n
  value_eq : v.value = f v.point

/-- As many vertices as a simplex in `n` dimensions has. -/
structure IsSimplex (f : List R → V) (n : ℕ) (vertices : List (Vertex R V)) :
    Prop where
  length_eq : vertices.length = n + 1
  isVertex : ∀ v ∈ vertices, IsVertex f n v

omit [Score V] in
theorem isVertex_along {base toward : List R} (hbase : base.length = n)
    (htoward : toward.length = n) (t : R) :
    IsVertex f n (vertexAt f (along box base toward t)) where
  length_point := by
    show (along box base toward t).length = n
    rw [length_along, hbase, htoward, min_self]
  value_eq := rfl

omit [Scalar R] in
theorem IsSimplex.sort {vertices : List (Vertex R V)}
    (h : IsSimplex f n vertices) :
    IsSimplex f n (sortVertices vertices) where
  length_eq := (List.length_mergeSort vertices).trans h.length_eq
  isVertex v hv := h.isVertex v (List.mem_mergeSort.mp hv)

omit [Score V] in
theorem IsSimplex.initial {p : SimplexSearch R V} {x : List R}
    (hbox : x.length ≤ box.length) :
    IsSimplex f x.length (p.initial f box x) := by
  have hstart := length_project box x
  constructor
  · rw [SimplexSearch.initial, List.length_cons, List.length_zipWith,
      List.length_zipIdx, hstart, min_eq_left hbox]
  · intro v hv
    rcases List.mem_cons.mp hv with rfl | hmem
    · exact ⟨hstart, rfl⟩
    · obtain ⟨i, hi, rfl⟩ := List.mem_iff_getElem.mp hmem
      rw [List.getElem_zipWith]
      refine ⟨?_, rfl⟩
      show (offset p box _ _ _ _).length = x.length
      rw [offset, length_project, List.length_set, hstart]

/-- A round in which the vertices of a simplex are moved leaves a simplex. -/
theorem IsSimplex.next {k : ℕ} {vertices vertices' : List (Vertex R V)}
    (h : IsSimplex f n vertices)
    (hadvance : Advances p f box n k vertices (.ok (.next vertices'))) :
    IsSimplex f n vertices' := by
  cases hadvance with
  | @replace best second v others hsort hlarge hsecond hreplace =>
    -- all but the worst vertex stay, and the new one lies on a line
    obtain ⟨hlength, hvertex⟩ := hsort ▸ h.sort
    have hface : ∀ w ∈ (best :: others).dropLast, IsVertex f n w :=
      fun w hw => hvertex w (List.mem_of_mem_dropLast hw)
    have hworst : (others.getLastD best).point.length = n := by
      refine (hvertex _ ?_).length_point
      rw [← List.getLast_eq_getLastD (List.cons_ne_nil best others)]
      exact List.getLast_mem _
    have hcentre : (centroid n (best :: others).dropLast).length = n :=
      length_centroid fun w hw => (hface w hw).length_point
    constructor
    · rw [List.length_append, List.length_dropLast, hlength]
      rfl
    · intro w hw
      rcases List.mem_append.mp hw with hold | hnew
      · exact hface w hold
      · obtain rfl := List.mem_singleton.mp hnew
        obtain ⟨toward, t, htoward, rfl⟩ := replacement?_eq_some hreplace
        refine isVertex_along hcentre ?_ t
        rcases htoward with rfl | rfl
        · exact hworst
        · rw [length_along, hcentre, hworst, min_self]
  | @shrink best second others hsort hlarge hsecond hreplace =>
    -- the best vertex stays, and the others move towards it
    obtain ⟨hlength, hvertex⟩ := hsort ▸ h.sort
    have hbest := hvertex best List.mem_cons_self
    constructor
    · rw [SimplexSearch.shrink, List.length_cons, List.length_map,
        ← List.length_cons, hlength]
    · intro w hw
      rcases List.mem_cons.mp hw with rfl | hmoved
      · exact hbest
      · obtain ⟨v, hv, rfl⟩ := List.mem_map.mp hmoved
        have hv' := hvertex v (List.mem_cons_of_mem best hv)
        exact isVertex_along hbest.length_point hv'.length_point _

/-- In at least one dimension a simplex has a second vertex, so no round breaks
off. -/
theorem IsSimplex.exists_advance {vertices : List (Vertex R V)}
    (h : IsSimplex f n vertices) (hn : 0 < n) (k : ℕ) :
    ∃ progress, p.advance f box n k vertices = .ok progress := by
  have hlength := h.sort.length_eq
  have hadvance :
      Advances p f box n k vertices (p.advance f box n k vertices) :=
    advances_advance k vertices
  generalize p.advance f box n k vertices = result at hadvance ⊢
  -- a simplex in a positive dimension has at least two vertices
  cases hadvance with
  | empty hsort =>
    rw [hsort, List.length_nil] at hlength
    omega
  | @alone best others hsort _ hsecond =>
    rw [hsort] at hlength
    rw [List.getLast?_eq_none_iff] at hsecond
    have hdrop := congrArg List.length hsecond
    rw [List.length_dropLast, hlength, List.length_nil] at hdrop
    omega
  | collapse | replace | shrink => exact ⟨_, rfl⟩

/-- What a search from a simplex answers, and that it does in at least one
dimension. -/
theorem iterate_spec (left k : ℕ) {vertices : List (Vertex R V)}
    (h : IsSimplex f n vertices) :
    (0 < n → ∃ r, p.iterate f box n left k vertices = .ok r) ∧
      ∀ r, p.iterate f box n left k vertices = .ok r →
        r.point.length = n ∧ r.value = f r.point := by
  induction left generalizing k vertices with
  | zero =>
    cases vertices with
    | nil => exact absurd h.length_eq (Nat.succ_ne_zero n).symm
    | cons v rest =>
      refine ⟨fun _ => ⟨_, rfl⟩, ?_⟩
      intro r hr
      obtain rfl := Except.ok.inj hr
      obtain ⟨hlength, hvalue⟩ :=
        h.isVertex _ (firstLeast_mem Vertex.value v rest)
      exact ⟨hlength, hvalue⟩
  | succ left ih =>
    have hadvance :
        Advances p f box n k vertices (p.advance f box n k vertices) :=
      advances_advance k vertices
    rw [iterate]
    cases hresult : p.advance f box n k vertices with
    | error e =>
      refine ⟨fun hn => ?_, fun r hr => by cases hr⟩
      obtain ⟨progress, hprogress⟩ :
          ∃ progress, p.advance f box n k vertices = .ok progress :=
        h.exists_advance hn k
      rw [hresult] at hprogress
      cases hprogress
    | ok progress =>
      rw [hresult] at hadvance
      cases progress with
      | next vertices' => exact ih (k + 1) (h.next hadvance)
      | stop r =>
        refine ⟨fun _ => ⟨r, rfl⟩, ?_⟩
        intro r' hr'
        obtain rfl : r = r' := Except.ok.inj hr'
        cases hadvance with
        | @collapse best others hsort _ =>
          obtain ⟨hlength, hvalue⟩ :=
            h.sort.isVertex best (hsort ▸ List.mem_cons_self)
          exact ⟨hlength, hvalue⟩

/-- A coordinate without an interval is refused. -/
theorem minimize_eq_ok {x : List R} {r : Minimum R V}
    (h : p.minimize f x box = .ok r) :
    x.length ≤ box.length ∧
      p.iterate f box x.length p.maxIterations 0 (p.initial f box x) =
        .ok r := by
  obtain ⟨-, -, h⟩ := exists_of_bind_eq_ok h
  by_cases hbox : box.length < x.length
  · rw [if_pos hbox] at h
    cases h
  · rw [if_neg hbox] at h
    exact ⟨Nat.not_lt.mp hbox, h⟩

theorem reports_minimizer (p : SimplexSearch R R) : p.minimizer.Reports := by
  intro f x box r h
  obtain ⟨hbox, hiterate⟩ := minimize_eq_ok h
  exact ((iterate_spec _ _ (IsSimplex.initial hbox)).2 r hiterate).2

theorem answers_minimizer (p : SimplexSearch R R) : p.minimizer.Answers := by
  intro f x box hx hbox hproper
  obtain ⟨hanswer, hspec⟩ :=
    iterate_spec (p := p) p.maxIterations 0
      (IsSimplex.initial (p := p) (f := f) hbox.ge)
  obtain ⟨r, hr⟩ := hanswer (List.length_pos_iff.mpr hx)
  refine ⟨r, ?_, (hspec r hr).1⟩
  show p.minimize f x box = .ok r
  rw [minimize, checkBox_eq_ok hproper, if_neg (Nat.not_lt.mpr hbox.ge)]
  exact hr

end SimplexSearch

end Gimbal
