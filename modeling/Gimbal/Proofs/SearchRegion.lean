/-
Gimbal/Proofs/SearchRegion.lean

Where the two searches look at their objective, over totally ordered numbers
with any arithmetic.

Every point that the simplex search tries is clamped, so it sees the objective
in the box only.  The quasi-Newton search tries clamped points too, and from
each of them takes difference quotients: it also sees points that differ from
one of the box in one coordinate, by the width of a difference (`NearBox`).  Two
objectives that agree there are searched alike: each round of the one search is
the round of the other (`advance_congr`), and so are the searches
(`iterate_congr`).

A round looks at the right places only while its vectors have as many components
as the box has intervals; that is what `IsSimplex` and `Sized` say, and what
each round keeps.
-/
import Mathlib
import Gimbal.Proofs.SimplexInvariants

namespace Gimbal

variable {R V : Type} [Scalar R] [Score V]

/-- A point of the box, or one moved from there along one coordinate by a width
up or down. -/
inductive NearBox (box : List (Interval R)) (width : R) : List R → Prop
  | inside {x : List R} (hx : InBox box x) : NearBox box width x
  | above {x : List R} (hx : InBox box x) (i : ℕ) (hi : i < x.length) :
      NearBox box width (x.set i (x.get ⟨i, hi⟩ + width))
  | below {x : List R} (hx : InBox box x) (i : ℕ) (hi : i < x.length) :
      NearBox box width (x.set i (x.get ⟨i, hi⟩ - width))

/-! ### The simplex search -/

namespace SimplexSearch

variable {p : SimplexSearch R V} {f h : List R → V} {box : List (Interval R)}
  {n k : ℕ}

omit [Score V] in
theorem vertexAt_congr (hagree : Set.EqOn f h {y | InBox box y}) {y : List R}
    (hy : InBox box y) :
    vertexAt f y = vertexAt h y :=
  congrArg (Vertex.mk y) (hagree hy)

variable [Std.IsLinearPreorder R] [Std.LawfulOrderLT R]

omit [Score V] in
theorem vertexAt_along_congr (hagree : Set.EqOn f h {y | InBox box y})
    (hbox : box.length = n) (hproper : ∀ b ∈ box, b.isProper = true)
    {base toward : List R} (hbase : base.length = n)
    (htoward : toward.length = n) (t : R) :
    vertexAt f (along box base toward t) =
      vertexAt h (along box base toward t) := by
  refine vertexAt_congr hagree (inBox_project ?_ hproper)
  rw [List.length_zipWith, hbase, htoward, min_self, hbox]

omit [Score V] in
theorem initial_congr (hagree : Set.EqOn f h {y | InBox box y}) {x : List R}
    (hbox : box.length = x.length) (hproper : ∀ b ∈ box, b.isProper = true) :
    p.initial f box x = p.initial h box x := by
  have hoffset : ∀ i xi b, InBox box (p.offset box (project box x) i xi b) := by
    intro i xi b
    refine inBox_project ?_ hproper
    rw [List.length_set, length_project, hbox]
  rw [initial, initial, vertexAt_congr hagree (inBox_project hbox hproper)]
  congr 2
  funext q b
  exact vertexAt_congr hagree (hoffset _ _ _)

theorem replacement?_congr (hagree : Set.EqOn f h {y | InBox box y})
    (hbox : box.length = n) (hproper : ∀ b ∈ box, b.isProper = true)
    {best second worst : Vertex R V} {face : List (Vertex R V)}
    (hworst : worst.point.length = n) (hface : ∀ v ∈ face, v.point.length = n) :
    replacement? f box n best second worst face =
      replacement? h box n best second worst face := by
  have hcentre : (centroid n face).length = n := length_centroid hface
  have hreflected :
      (along box (centroid n face) worst.point (-1.0)).length = n := by
    rw [length_along, hcentre, hworst, min_self]
  have halong : ∀ toward t, toward.length = n →
      vertexAt f (along box (centroid n face) toward t) =
        vertexAt h (along box (centroid n face) toward t) :=
    fun toward t htoward =>
      vertexAt_along_congr hagree hbox hproper hcentre htoward t
  -- the contraction goes toward the reflection or the worst vertex
  have hnearer : ∀ reflected : Vertex R V, reflected.point.length = n →
      (if reflected.value < worst.value then reflected else worst).point.length
        = n := by
    intro reflected hlength
    split
    · exact hlength
    · exact hworst
  simp only [replacement?]
  rw [halong _ _ hworst, halong _ _ hworst, halong _ _ (hnearer _ hreflected)]

omit [Score V] in
theorem shrink_congr (hagree : Set.EqOn f h {y | InBox box y})
    (hbox : box.length = n) (hproper : ∀ b ∈ box, b.isProper = true)
    {best : Vertex R V} {others : List (Vertex R V)}
    (hbest : best.point.length = n)
    (hothers : ∀ v ∈ others, v.point.length = n) :
    shrink f box best others = shrink h box best others := by
  rw [shrink, shrink]
  congr 1
  exact List.map_congr_left fun v hv =>
    vertexAt_along_congr hagree hbox hproper hbest (hothers v hv) _

/-- A round on one objective is the round on the other. -/
theorem advance_congr (hagree : Set.EqOn f h {y | InBox box y})
    (hbox : box.length = n) (hproper : ∀ b ∈ box, b.isProper = true)
    {vertices : List (Vertex R V)} (hsimplex : IsSimplex f n vertices) :
    p.advance f box n k vertices = p.advance h box n k vertices := by
  have hlength : ∀ v ∈ sortVertices vertices, v.point.length = n :=
    fun v hv => (hsimplex.sort.isVertex v hv).length_point
  simp only [advance]
  cases hsort : sortVertices vertices with
  | nil => rfl
  | cons best others =>
    rw [hsort] at hlength
    have hworst : (others.getLastD best).point.length = n := by
      refine hlength _ ?_
      rw [← List.getLast_eq_getLastD (List.cons_ne_nil best others)]
      exact List.getLast_mem _
    have hface : ∀ v ∈ (best :: others).dropLast, v.point.length = n :=
      fun v hv => hlength v (List.mem_of_mem_dropLast hv)
    dsimp only
    rw [shrink_congr hagree hbox hproper (hlength best List.mem_cons_self)
      fun v hv => hlength v (List.mem_cons_of_mem best hv)]
    simp only [replacement?_congr hagree hbox hproper hworst hface]

theorem iterate_congr (hagree : Set.EqOn f h {y | InBox box y})
    (hbox : box.length = n) (hproper : ∀ b ∈ box, b.isProper = true)
    (left k : ℕ) {vertices : List (Vertex R V)}
    (hsimplex : IsSimplex f n vertices) :
    p.iterate f box n left k vertices = p.iterate h box n left k vertices := by
  -- induction on the iterations left; both searches pass the same simplices
  induction left generalizing k vertices with
  | zero => rfl
  | succ left ih =>
    rw [iterate, iterate, ← advance_congr hagree hbox hproper hsimplex]
    cases hadvance : p.advance f box n k vertices with
    | error e => rfl
    | ok progress =>
      cases progress with
      | stop r => rfl
      | next vertices' =>
        exact ih (k + 1)
          (hsimplex.next (hadvance ▸ advances_advance k vertices))

theorem minimize_congr (hagree : Set.EqOn f h {y | InBox box y}) {x : List R}
    (hbox : box.length = x.length) (hproper : ∀ b ∈ box, b.isProper = true) :
    p.minimize f x box = p.minimize h x box := by
  rw [minimize, minimize, ← initial_congr hagree hbox hproper,
    iterate_congr hagree hbox hproper _ _ (.initial hbox.ge)]

end SimplexSearch

/-! ### The quasi-Newton search -/

namespace QuasiNewton

variable {p : QuasiNewton R} {f h : List R → R} {box : List (Interval R)}
  {n k : ℕ}
  {it : Iterate R} {width : R}

/-- The difference quotients at a point of the box are taken near the box. -/
theorem gradient_congr (hagree : Set.EqOn f h {y | NearBox box width y})
    {x : List R} (hx : InBox box x) :
    gradient f x width = gradient h x width := by
  rw [gradient, gradient]
  refine List.map_congr_left fun q hq => ?_
  -- the two points of a quotient lie at most one width beside the box
  obtain ⟨hi, hq⟩ := List.mem_zipIdx' hq
  have habove :
      f (shift x q.2 (q.1 + width)) = h (shift x q.2 (q.1 + width)) := by
    rw [hq]
    exact hagree (.above hx q.2 hi)
  have hbelow :
      f (shift x q.2 (q.1 - width)) = h (shift x q.2 (q.1 - width)) := by
    rw [hq]
    exact hagree (.below hx q.2 hi)
  rw [habove, hbelow]

variable [Std.IsLinearPreorder R] [Std.LawfulOrderLT R]

theorem inBox_trial (hbox : box.length = n)
    (hproper : ∀ b ∈ box, b.isProper = true) {x d : List R} (hx : x.length = n)
    (hd : d.length = n) (t : R) : InBox box (trial box x d t) := by
  refine inBox_project ?_ hproper
  rw [List.length_zipWith, hx, hd, min_self, hbox]

theorem start_congr (hagree : Set.EqOn f h {y | NearBox box p.differenceStep y})
    {x : List R} (hbox : box.length = x.length)
    (hproper : ∀ b ∈ box, b.isProper = true) :
    p.start f x box = p.start h x box := by
  have hin : InBox box (project box x) := inBox_project hbox hproper
  rw [start, start, gradient_congr hagree hin, hagree (.inside hin)]

theorem lineSearch_congr (hagree : Set.EqOn f h {y | NearBox box width y})
    (hbox : box.length = n) (hproper : ∀ b ∈ box, b.isProper = true)
    {d : List R} (hpoint : it.point.length = n) (hd : d.length = n) (tries : ℕ)
    (step : R) :
    lineSearch f box it d tries step = lineSearch h box it d tries step := by
  induction tries generalizing step with
  | zero => rfl
  | succ tries ih =>
    have hvalue :
        f (trial box it.point d step) = h (trial box it.point d step) :=
      hagree (.inside (inBox_trial hbox hproper hpoint hd step))
    rw [lineSearch, lineSearch, hvalue, ih]

/-- An iteration on one objective is the iteration on the other. -/
theorem advance_congr
    (hagree : Set.EqOn f h {y | NearBox box p.differenceStep y})
    (hbox : box.length = n) (hproper : ∀ b ∈ box, b.isProper = true)
    (hit : Sized n it) :
    p.advance f box k it = p.advance h box k it := by
  have hlength : (course box it).1.length = n := hit.length_course hbox
  have hsearch : lineSearch f box it (course box it).1 p.maxLineSearch 1 =
      lineSearch h box it (course box it).1 p.maxLineSearch 1 :=
    lineSearch_congr hagree hbox hproper hit.point hlength _ _
  -- an accepted point is in the box, so the gradients there agree
  have haccept : ∀ point value,
      lineSearch h box it (course box it).1 p.maxLineSearch 1 =
        some (point, value) →
      p.accept f it (course box it).2 point value =
        p.accept h it (course box it).2 point value := by
    intro point value hsome
    obtain ⟨t, rfl, -, -⟩ := lineSearch_eq_some hsome
    rw [accept, accept,
      gradient_congr hagree (inBox_trial hbox hproper hit.point hlength t)]
  rw [course, freePart] at hsearch haccept
  simp only [advance, hsearch]
  cases hresult : lineSearch h box it (direction it (release it.gradient
      (pinned it.point it.gradient box)) (pinned it.point it.gradient box)).1
        p.maxLineSearch 1 with
  | none => rfl
  | some found =>
    obtain ⟨point, value⟩ := found
    dsimp only
    rw [haccept point value hresult]

theorem iterate_congr
    (hagree : Set.EqOn f h {y | NearBox box p.differenceStep y})
    (hbox : box.length = n) (hproper : ∀ b ∈ box, b.isProper = true)
    (left k : ℕ) (hit : Sized n it) :
    p.iterate f box left k it = p.iterate h box left k it := by
  induction left generalizing k it with
  | zero => rfl
  | succ left ih =>
    have hadvance : Advances p f box k it (p.advance f box k it) :=
      advances_advance k it
    rw [iterate, iterate, ← advance_congr hagree hbox hproper hit]
    cases hresult : p.advance f box k it with
    | stop r => rfl
    | next it' =>
      rw [hresult] at hadvance
      exact ih (k + 1) (hit.next hbox hadvance)

theorem minimize_congr
    (hagree : Set.EqOn f h {y | NearBox box p.differenceStep y}) {x : List R}
    (hbox : box.length = x.length) (hproper : ∀ b ∈ box, b.isProper = true) :
    p.minimize f x box = p.minimize h x box := by
  -- one start, and from it one run
  rw [minimize, minimize, ← start_congr hagree hbox hproper]
  dsimp only
  rw [iterate_congr hagree hbox hproper _ _ (p.sized_start f x box)]

end QuasiNewton

/-! ### Both searches -/

/-- **The searches look at their objective only in and near the box.**  From a
start with at least one coordinate, in a box with a proper interval for each,
and whatever the parameters: two objectives that agree on the box have one
answer by the simplex search, and two that agree near the box, up to the width
of a difference, have one by the quasi-Newton search, in all that an answer
tells. -/
theorem minimize_eq_of_agree_near_box [Std.IsLinearPreorder R]
    [Std.LawfulOrderLT R] (x : List R) (box : List (Interval R)) (hx : x ≠ [])
    (hbox : box.length = x.length) (hproper : ∀ b ∈ box, b.isProper = true) :
    (∀ (p : SimplexSearch R V) (f h : List R → V),
      Set.EqOn f h {y | InBox box y} →
      ∃ r, p.minimize f x box = .ok r ∧ p.minimize h x box = .ok r) ∧
    ∀ (p : QuasiNewton R) (f h : List R → R),
      Set.EqOn f h {y | NearBox box p.differenceStep y} →
      p.minimize f x box = p.minimize h x box ∧
        (p.memory ≤ QuasiNewton.memoryLimit → ∃ r,
          p.minimize f x box = .ok r) := by
  constructor
  · -- the simplex search only looks inside the box
    intro p f h hagree
    obtain ⟨r, hr⟩ :=
      SimplexSearch.exists_minimize (p := p) (f := f) hx hbox hproper
    exact ⟨r, hr, SimplexSearch.minimize_congr hagree hbox hproper ▸ hr⟩
  · -- the other search also looks one difference step beside it
    intro p f h hagree
    exact ⟨QuasiNewton.minimize_congr hagree hbox hproper,
      fun hmemory => ⟨_, QuasiNewton.minimize_of_proper hmemory hproper⟩⟩

theorem nearBox_unit {width : ℝ} (hwidth : 0 ≤ width) {y : List ℝ}
    (hy : NearBox [⟨0, 1⟩] width y) :
    ∃ a, y = [a] ∧ -width ≤ a ∧ a ≤ 1 + width := by
  have hunit : ∀ {x : List ℝ}, InBox [⟨0, 1⟩] x → ∃ a, x = [a] ∧ 0 ≤ a ∧
      a ≤ 1 := by
    intro x hx
    cases hx with
    | cons ha hrest =>
      cases hrest
      exact ⟨_, rfl, ha⟩
  cases hy with
  | inside hx =>
    obtain ⟨a, rfl, hlow, hhigh⟩ := hunit hx
    exact ⟨a, rfl, by linarith, by linarith⟩
  | above hx i hi =>
    obtain ⟨a, rfl, hlow, hhigh⟩ := hunit hx
    obtain rfl := Nat.lt_one_iff.mp hi
    exact ⟨a + width, rfl, by linarith, by linarith⟩
  | below hx i hi =>
    obtain ⟨a, rfl, hlow, hhigh⟩ := hunit hx
    obtain rfl := Nat.lt_one_iff.mp hi
    exact ⟨a - width, rfl, by linarith, by linarith⟩

/-- The identity, and the same cut off beyond the width of a difference from the
unit interval. -/
theorem minimize_eq_of_agree_near_box_cut :
    ∃ f h : List ℝ → ℝ, f [3] ≠ h [3] ∧
      (∃ r, SimplexSearch.default.minimize f [2] [⟨0, 1⟩] = .ok r ∧
        SimplexSearch.default.minimize h [2] [⟨0, 1⟩] = .ok r) ∧
      ∃ r, QuasiNewton.default.minimize f [2] [⟨0, 1⟩] = .ok r ∧
        QuasiNewton.default.minimize h [2] [⟨0, 1⟩] = .ok r := by
  let f : List ℝ → ℝ := fun x => x.headD 0
  let h : List ℝ → ℝ := fun x =>
    if -1e-6 ≤ x.headD 0 ∧ x.headD 0 ≤ 1 + 1e-6 then x.headD 0 else 7
  have hnear : Set.EqOn f h {y | NearBox [⟨0, 1⟩] 1e-6 y} := by
    intro y hy
    obtain ⟨a, rfl, hlow, hhigh⟩ := nearBox_unit (by norm_num) hy
    exact (if_pos ⟨hlow, hhigh⟩).symm
  have hinside : Set.EqOn f h {y | InBox [⟨0, 1⟩] y} :=
    fun y hy => hnear (.inside hy)
  have hcut : h [3] = 7 := if_neg (by norm_num)
  obtain ⟨hsimplex, hquasi⟩ := minimize_eq_of_agree_near_box (V := ℝ) [(2 : ℝ)]
    [⟨0, 1⟩]
    (List.cons_ne_nil _ _) rfl isProper_of_mem_unit
  obtain ⟨hequal, hanswer⟩ := hquasi .default f h hnear
  obtain ⟨r, hr⟩ := hanswer (show 10 ≤ QuasiNewton.memoryLimit by decide)
  refine ⟨f, h, ?_, hsimplex .default f h hinside, r, hr, hequal ▸ hr⟩
  rw [hcut]
  norm_num [f]

end Gimbal
