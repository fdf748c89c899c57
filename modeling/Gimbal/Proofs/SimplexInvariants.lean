/-
Gimbal/Proofs/SimplexInvariants.lean

The simplex search on any objective.  Its coordinates are totally ordered
numbers with any arithmetic; its values are of any type with a total order for
sorting (`Ranked`), while the comparisons `<` and `≤` and the difference of two
values may give any answer, as they do for what is not a number.

What a round keeps does not depend on these answers.  Whatever it does to the
other vertices,

* every new vertex is at a clamped point, with its value there (`Clamped`), and
* the best vertex stays, so that no least value is lost (`Descends`).

The first gives the simplices that the search visits (`SimplexSearch.Visits`),
the second the answer:  it is a best vertex of the last simplex, and so no worse
than the first ones.
-/
import Mathlib
import Gimbal.Binary64
import Gimbal.Proofs.BoxedSearch

namespace Gimbal

/-- The order used for sorting is total. -/
class Ranked (V : Type) [Score V] : Prop where
  totalLe_trans : ∀ a b c : V, Score.totalLe a b = true →
    Score.totalLe b c = true →
    Score.totalLe a c = true
  totalLe_total : ∀ a b : V, (Score.totalLe a b || Score.totalLe b a) = true

instance : Ranked ℝ where
  totalLe_trans a b c hab hbc :=
    decide_eq_true ((of_decide_eq_true hab).trans (of_decide_eq_true hbc))
  totalLe_total a b := by
    rw [Bool.or_eq_true]
    exact (le_total a b).imp decide_eq_true decide_eq_true

/-- The order of the representations, by which floating point numbers are
sorted. -/
instance : Ranked Float where
  totalLe_trans a b c hab hbc :=
    decide_eq_true
      (UInt64.le_trans (of_decide_eq_true hab) (of_decide_eq_true hbc))
  totalLe_total a b := by
    rw [Bool.or_eq_true]
    exact (UInt64.le_total _ _).imp decide_eq_true decide_eq_true

section Ranked

variable {V : Type} [Score V] [Ranked V]

theorem totalLe_refl (a : V) : Score.totalLe a a = true := by
  rw [← Bool.or_self (Score.totalLe a a)]
  exact Ranked.totalLe_total a a

theorem totalLe_of_not {a b : V} (h : ¬ Score.totalLe a b = true) :
    Score.totalLe b a = true :=
  (Bool.or_eq_true _ _ ▸ Ranked.totalLe_total a b).resolve_left h

/-- The first element of least score has no larger score than any other. -/
theorem totalLe_firstLeast {α : Type} (score : α → V) (x : α) (xs : List α) :
    ∀ y ∈ x :: xs, Score.totalLe (score (firstLeast score x xs)) (score y) =
      true := by
  -- induction on the vertices behind the best one so far
  induction xs generalizing x with
  | nil =>
    intro y hy
    rw [List.mem_singleton.mp hy]
    exact totalLe_refl _
  | cons z xs ih =>
    -- the search goes on with the better of the first two
    obtain ⟨best, hbest, hx, hz⟩ :
        ∃ best, firstLeast score x (z :: xs) = firstLeast score best xs ∧
        Score.totalLe (score best) (score x) = true ∧
        Score.totalLe (score best) (score z) = true := by
      by_cases h : Score.totalLe (score x) (score z) = true
      · exact ⟨x, congrArg (xs.foldl _) (if_pos h), totalLe_refl _, h⟩
      · exact ⟨z, congrArg (xs.foldl _) (if_neg h), totalLe_of_not h,
          totalLe_refl _⟩
    obtain ⟨hfirst, hrest⟩ := List.forall_mem_cons.mp (ih best)
    rw [hbest, List.forall_mem_cons, List.forall_mem_cons]
    exact ⟨Ranked.totalLe_trans _ _ _ hfirst hx,
      Ranked.totalLe_trans _ _ _ hfirst hz, hrest⟩

end Ranked

namespace SimplexSearch

variable {R V : Type} [Scalar R] [Score V] {p : SimplexSearch R V}
  {f : List R → V}
  {box : List (Interval R)} {x : List R} {n k : ℕ}
  {vertices vertices' : List (Vertex R V)}

/-! ### The simplices of a search -/

/-- The simplices that a search goes through, each with the number of rounds
before it. -/
def Visits (p : SimplexSearch R V) (f : List R → V) (box : List (Interval R))
    (x : List R) :
    ℕ → List (Vertex R V) → Prop :=
  Reaches p.maxIterations
    (fun k vertices vertices' => p.advance f box x.length k vertices =
      .ok (.next vertices'))
    (p.initial f box x)

/-- An answer is given in a round that stops, or after the last one. -/
theorem exists_visits_of_iterate {left : ℕ} {r : Minimum R V}
    (hvisits : p.Visits f box x k vertices) (hleft : k + left = p.maxIterations)
    (h : p.iterate f box x.length left k vertices = .ok r) :
    ∃ k vertices, p.Visits f box x k vertices ∧
      (p.advance f box x.length k vertices = .ok (.stop r) ∨
        p.iterate f box x.length 0 k vertices = .ok r) := by
  induction left generalizing k vertices with
  | zero => exact ⟨k, vertices, hvisits, .inr h⟩
  | succ left ih =>
    rw [iterate] at h
    obtain ⟨progress, hadvance, h⟩ := exists_of_bind_eq_ok h
    cases progress with
    | stop result =>
      obtain rfl : result = r := Except.ok.inj h
      exact ⟨k, vertices, hvisits, .inl hadvance⟩
    | next vertices' => exact ih (hvisits.next (by omega) hadvance) (by omega) h

/-! ### Clamped vertices -/

/-- A vertex at a clamped point, with the value there. -/
def Clamped (f : List R → V) (box : List (Interval R))
    (v : Vertex R V) : Prop :=
  ∃ y, v = vertexAt f (project box y)

omit [Score V] in
theorem clamped_initial : ∀ v ∈ p.initial f box x, Clamped f box v := by
  rw [initial, List.forall_mem_cons]
  refine ⟨⟨x, rfl⟩, ?_⟩
  intro v hv
  obtain ⟨i, hi, rfl⟩ := List.mem_iff_getElem.mp hv
  rw [List.getElem_zipWith]
  exact ⟨_, rfl⟩

/-- A vertex after a round was one before it, or is at a clamped point. -/
theorem clamped_next (hclamped : ∀ v ∈ vertices, Clamped f box v)
    (hadvance : Advances p f box n k vertices (.ok (.next vertices'))) :
    ∀ v ∈ vertices', Clamped f box v := by
  have hold : ∀ {best others}, sortVertices vertices = best :: others →
      ∀ v ∈ best :: others,
      Clamped f box v := by
    intro best others hsort v hv
    exact hclamped v (List.mem_mergeSort.mp (hsort ▸ hv))
  -- a new vertex is a projected one, whether it replaces the worst or comes
  -- from shrinking
  cases hadvance with
  | @replace best second new others hsort _ _ hreplace =>
    rw [List.forall_mem_append, List.forall_mem_singleton]
    obtain ⟨toward, t, -, rfl⟩ := replacement?_eq_some hreplace
    exact ⟨fun v hv => hold hsort v (List.mem_of_mem_dropLast hv), _, rfl⟩
  | @shrink best second others hsort _ _ _ =>
    rw [SimplexSearch.shrink, List.forall_mem_cons, List.forall_mem_map]
    exact ⟨hold hsort best List.mem_cons_self, fun v _ => ⟨_, rfl⟩⟩

/-- Every simplex of a search has its vertices at clamped points. -/
theorem Visits.invariant (hbox : x.length ≤ box.length)
    (h : p.Visits f box x k vertices) :
    IsSimplex f x.length vertices ∧ ∀ v ∈ vertices, Clamped f box v := by
  induction h with
  | start => exact ⟨.initial hbox, clamped_initial⟩
  | next _ _ hstep ih =>
    obtain ⟨hsimplex, hclamped⟩ := ih
    have hadvance := hstep ▸ advances_advance _ _
    exact ⟨hsimplex.next hadvance, clamped_next hclamped hadvance⟩

/-! ### The least value -/

/-- No value of the first simplex lies below all those of the second. -/
def Descends (vertices vertices' : List (Vertex R V)) : Prop :=
  ∀ v ∈ vertices, ∃ w ∈ vertices', Score.totalLe w.value v.value = true

/-- A vertex of a simplex whose value is the least. -/
structure IsBest (vertices : List (Vertex R V)) (v : Vertex R V) : Prop where
  mem : v ∈ vertices
  totalLe_value : ∀ w ∈ vertices, Score.totalLe v.value w.value = true

variable [Ranked V]

omit [Scalar R] in
theorem Descends.refl (vertices : List (Vertex R V)) :
    Descends vertices vertices :=
  fun v hv => ⟨v, hv, totalLe_refl v.value⟩

omit [Scalar R] in
theorem Descends.trans {first second third : List (Vertex R V)}
    (h : Descends first second) (h' : Descends second third) :
    Descends first third := by
  intro u hu
  obtain ⟨v, hv, hvu⟩ := h u hu
  obtain ⟨w, hw, hwv⟩ := h' v hv
  exact ⟨w, hw, Ranked.totalLe_trans _ _ _ hwv hvu⟩

omit [Scalar R] in
/-- Sorting puts a best vertex in front. -/
theorem isBest_of_sort {best : Vertex R V} {others : List (Vertex R V)}
    (hsort : sortVertices vertices = best :: others) :
    IsBest vertices best where
  mem := List.mem_mergeSort.mp (hsort ▸ List.mem_cons_self)
  totalLe_value := by
    have hsorted : (sortVertices vertices).Pairwise
        fun a b => Score.totalLe a.value b.value = true :=
      List.pairwise_mergeSort
        (fun a b c => Ranked.totalLe_trans a.value b.value c.value)
        (fun a b => Ranked.totalLe_total a.value b.value) vertices
    rw [hsort, List.pairwise_cons] at hsorted
    intro w hw
    have hw' : w ∈ best :: others := hsort ▸ List.mem_mergeSort.mpr hw
    rcases List.mem_cons.mp hw' with rfl | hother
    · exact totalLe_refl w.value
    · exact hsorted.1 w hother

/-- The best vertex stays in a round. -/
theorem descends_next
    (hadvance : Advances p f box n k vertices (.ok (.next vertices'))) :
    Descends vertices vertices' := by
  -- the best vertex is never the one replaced, and shrinking goes toward it
  cases hadvance with
  | @replace best second v others hsort _ hsecond _ =>
    have hbest : best ∈ (best :: others).dropLast := by
      cases others with
      | nil => cases hsecond
      | cons w others => exact List.mem_cons_self
    exact fun u hu =>
      ⟨best, List.mem_append_left _ hbest,
        (isBest_of_sort hsort).totalLe_value u hu⟩
  | @shrink best second others hsort _ _ _ =>
    exact fun u hu =>
      ⟨best, List.mem_cons_self, (isBest_of_sort hsort).totalLe_value u hu⟩

/-- The least value never increases in a search. -/
theorem Visits.descends {j : ℕ} (h : p.Visits f box x j vertices)
    (h' : p.Visits f box x k vertices') (hle : j ≤ k) :
    Descends vertices vertices' := by
  -- the search has one course, so the earlier state is on the way to the later
  have hone : ∀ k (s t t' : List (Vertex R V)),
      p.advance f box x.length k s = .ok (.next t) →
      p.advance f box x.length k s = .ok (.next t') → t = t' := by
    intro k s t t' ht ht'
    cases ht.symm.trans ht'
    rfl
  -- induction on the iterations after the first `j`
  induction h' with
  | start =>
    obtain rfl := Nat.le_zero.mp hle
    rw [Reaches.unique hone h .start]
    exact .refl _
  | next hs hk hstep ih =>
    rcases Nat.lt_or_eq_of_le hle with hlt | rfl
    · exact (ih (Nat.le_of_lt_succ hlt)).trans
        (descends_next (hstep ▸ advances_advance _ _))
    · rw [Reaches.unique hone h (.next hs hk hstep)]
      exact .refl _

/-- The answer of a search is a best vertex of the last simplex that it
visits. -/
theorem exists_isBest_of_minimize {r : Minimum R V}
    (h : p.minimize f x box = .ok r) :
    ∃ vertices, p.Visits f box x r.iterations vertices ∧
      IsBest vertices ⟨r.point, r.value⟩ := by
  obtain ⟨-, hiterate⟩ := minimize_eq_ok h
  obtain ⟨k, vertices, hvisits, hstop | hlimit⟩ :=
    exists_visits_of_iterate .start (Nat.zero_add _) hiterate
  · -- the simplex collapsed: its first vertex in order is returned
    have hadvance : Advances p f box x.length k vertices (.ok (.stop r)) :=
      hstop ▸ advances_advance k vertices
    cases hadvance with
    | collapse hsort _ => exact ⟨vertices, hvisits, isBest_of_sort hsort⟩
  · -- the budget ran out: the first least vertex is returned
    cases vertices with
    | nil => cases hlimit
    | cons v rest =>
      obtain rfl := Except.ok.inj hlimit
      exact ⟨v :: rest, hvisits, firstLeast_mem Vertex.value v rest,
        totalLe_firstLeast Vertex.value v rest⟩

/-! ### The whole search -/

omit [Ranked V] in
theorem exists_minimize (hx : x ≠ []) (hbox : box.length = x.length)
    (hproper : ∀ b ∈ box, b.isProper = true) :
    ∃ r, p.minimize f x box = .ok r := by
  rw [minimize, checkBox_eq_ok hproper, if_neg (Nat.not_lt.mpr hbox.ge)]
  exact (iterate_spec p.maxIterations 0 (.initial hbox.ge)).1
    (List.length_pos_iff.mpr hx)

/-- **A simplex search keeps its invariants on every objective.**  In a box with
a proper interval for each coordinate, and at least one, whatever the
parameters: every simplex that the search visits has a vertex more than there
are coordinates, all of them in the box and with their values, and the least
value never increases.  The search comes to an answer, at a point in the box and
with the value there, which is the least of the last simplex and is not above
the value at any first vertex, or at the start once it is brought into the
box. -/
theorem search_invariants [Std.IsLinearPreorder R] [Std.LawfulOrderLT R]
    (p : SimplexSearch R V) (f : List R → V) (x : List R)
    (box : List (Interval R)) (hx : x ≠ []) (hbox : box.length = x.length)
    (hproper : ∀ b ∈ box, b.isProper = true) :
    (∀ k vertices, p.Visits f box x k vertices →
      vertices.length = x.length + 1 ∧
      ∀ v ∈ vertices, v.point.length = x.length ∧ InBox box v.point ∧
      v.value = f v.point) ∧
    (∀ j k vertices vertices', j ≤ k → p.Visits f box x j vertices →
      p.Visits f box x k vertices' → Descends vertices vertices') ∧
    ∃ r, p.minimize f x box = .ok r ∧ r.point.length = x.length ∧
      InBox box r.point ∧
      r.value = f r.point ∧
      (∃ vertices, p.Visits f box x r.iterations vertices ∧
        IsBest vertices ⟨r.point, r.value⟩) ∧
      (∀ v ∈ p.initial f box x, Score.totalLe r.value v.value = true) ∧
      Score.totalLe r.value (f (project box x)) = true := by
  have hvisited : ∀ k vertices, p.Visits f box x k vertices →
      vertices.length = x.length + 1 ∧
      ∀ v ∈ vertices, v.point.length = x.length ∧ InBox box v.point ∧
      v.value = f v.point := by
    intro k vertices hvisits
    obtain ⟨hsimplex, hclamped⟩ := hvisits.invariant hbox.ge
    refine ⟨hsimplex.length_eq, fun v hv => ?_⟩
    obtain ⟨y, rfl⟩ := hclamped v hv
    have hlength : (project box y).length = x.length :=
      (hsimplex.isVertex _ hv).length_point
    refine ⟨hlength, inBox_project ?_ hproper, rfl⟩
    rw [hbox, ← hlength, length_project]
  refine ⟨hvisited,
    fun j k vertices vertices' hle h h' => h.descends h' hle, ?_⟩
  obtain ⟨r, hr⟩ := exists_minimize (p := p) (f := f) hx hbox hproper
  obtain ⟨vertices, hvisits, hbest⟩ := exists_isBest_of_minimize hr
  obtain ⟨hlength, hin, hvalue⟩ := (hvisited _ _ hvisits).2 _ hbest.mem
  have hfirst : ∀ v ∈ p.initial f box x,
      Score.totalLe r.value v.value = true := by
    intro v hv
    obtain ⟨w, hw, hwv⟩ := Visits.descends .start hvisits (Nat.zero_le _) v hv
    exact Ranked.totalLe_trans _ _ _ (hbest.totalLe_value w hw) hwv
  exact ⟨r, hr, hlength, hin, hvalue, ⟨vertices, hvisits, hbest⟩, hfirst,
    hfirst _ List.mem_cons_self⟩

/-- An objective in floating point that is no number on the left half of the
unit interval: from there the search comes to a point of the other half. -/
theorem search_invariants_not_a_number :
    ∃ (f : List ℝ → Float) (p : SimplexSearch ℝ Float) (r : Minimum ℝ Float),
      f [1 / 4] = Float.ofBits 0x7FF8000000000000 ∧ f [3 / 4] = 0 ∧
      p.minimize f [1 / 4] [⟨0, 1⟩] = .ok r ∧ InBox [⟨0, 1⟩] r.point ∧
      f r.point = 0 := by
  let f : List ℝ → Float := fun x =>
    if x.headD 0 < 1 / 2 then Float.ofBits 0x7FF8000000000000 else 0
  let p : SimplexSearch ℝ Float := ⟨0, 1 / 10, 1 / 2, 100⟩
  have hleft : f [1 / 4] = Float.ofBits 0x7FF8000000000000 :=
    if_pos (by norm_num)
  have hright : f [3 / 4] = 0 := if_neg (by norm_num)
  have hstart : project [⟨0, 1⟩] [(1 / 4 : ℝ)] = [1 / 4] := by
    norm_num [project, Interval.clamp]
  have hoffset : p.offset [⟨0, 1⟩] [1 / 4] 0 (1 / 4) ⟨0, 1⟩ = [3 / 4] := by
    norm_num [offset, p, project, Interval.clamp]
  have hinitial :
      p.initial f [⟨0, 1⟩] [1 / 4] =
        [vertexAt f [1 / 4], vertexAt f [3 / 4]] := by
    rw [initial, hstart, ← hoffset]
    rfl
  obtain ⟨-, -, r, hr, -, hin, hvalue, -, hfirst, -⟩ :=
    search_invariants p f [1 / 4] [⟨0, 1⟩] (List.cons_ne_nil _ _) rfl
      isProper_of_mem_unit
  rw [hinitial, List.forall_mem_cons, List.forall_mem_singleton] at hfirst
  have hle : Score.totalLe (f r.point) (0 : Float) = true := by
    rw [← hvalue, ← hright]
    exact hfirst.2
  refine ⟨f, p, r, hleft, hright, hr, hin, ?_⟩
  -- of the two values only one is not above zero
  by_cases hr' : r.point.headD 0 < 1 / 2
  · rw [show f r.point = Float.ofBits 0x7FF8000000000000 from if_pos hr'] at hle
    exact absurd hle (by decide)
  · exact if_neg hr'

end SimplexSearch

end Gimbal
