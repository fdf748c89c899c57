/-
Gimbal/Proofs/BoxedSearch.lean

What the two searches in a box have in common: where their points lie, and which
states they go through.

A point lies in a box (`InBox`) if there are as many intervals as coordinates
and each coordinate is between the ends of its interval.  What is clamped lies
there, wherever it comes from, as soon as the numbers are totally ordered;
nothing is asked of the arithmetic.  Over such numbers a bound for the largest
absolute component of a vector is one for all of them.

The states of a search are numbered by the iterations before them (`Reaches`):
they start with the first one, and each further one is where an iteration leads
that the limit allows.
-/
import Mathlib
import Gimbal.Proofs.Exact
import Gimbal.Proofs.MinimizerRuns

namespace Gimbal

/-! ### Points in a box -/

section Ordered

variable {R : Type} [Scalar R]

/-- Each coordinate is between the ends of its interval. -/
def InBox (box : List (Interval R)) (x : List R) : Prop :=
  List.Forall₂ (fun b xi => b.lower ≤ xi ∧ xi ≤ b.upper) box x

variable [Std.IsLinearPreorder R] [Std.LawfulOrderLT R]

theorem Interval.clamp_mem {b : Interval R} (hb : b.isProper = true) (x : R) :
    b.lower ≤ b.clamp x ∧ b.clamp x ≤ b.upper := by
  have hends : b.lower ≤ b.upper := of_decide_eq_true hb
  rw [clamp]
  split
  · exact ⟨Std.le_refl _, hends⟩
  · next hlow =>
    split
    · exact ⟨hends, Std.le_refl _⟩
    · next hhigh => exact ⟨Std.not_lt.mp hlow, Std.not_lt.mp hhigh⟩

/-- What is clamped lies in the box. -/
theorem inBox_project {box : List (Interval R)} {x : List R}
    (hbox : box.length = x.length) (hproper : ∀ b ∈ box, b.isProper = true) :
    InBox box (project box x) := by
  induction box generalizing x with
  | nil =>
    rw [List.eq_nil_of_length_eq_zero hbox.symm]
    exact .nil
  | cons b box ih =>
    obtain ⟨xi, rest, rfl⟩ := List.exists_cons_of_length_eq_add_one hbox.symm
    obtain ⟨hb, hrest⟩ := List.forall_mem_cons.mp hproper
    exact .cons (b.clamp_mem hb xi) (ih (Nat.succ.inj hbox) hrest)

/-- The unit interval. -/
theorem isProper_of_mem_unit : ∀ b ∈ ([⟨0, 1⟩] : List (Interval ℝ)),
      b.isProper = true := by
  rw [List.forall_mem_singleton]
  exact decide_eq_true zero_le_one

/-! ### Largest components -/

theorem larger_le_iff {a b c : R} : larger a b ≤ c ↔ a ≤ c ∧ b ≤ c := by
  rw [larger]
  split
  · next hlt =>
    exact ⟨fun h => ⟨Std.le_trans (Std.le_of_lt hlt) h, h⟩, And.right⟩
  · next hnot =>
    exact ⟨fun h => ⟨h, Std.le_trans (Std.not_lt.mp hnot) h⟩, And.left⟩

/-- A bound for the largest absolute component is a bound for all. -/
theorem maxAbs_le_iff {xs : List R} {bound : R} :
    maxAbs xs ≤ bound ↔ 0 ≤ bound ∧ ∀ x ∈ xs, Scalar.abs x ≤ bound := by
  have hfold : ∀ m : R,
      xs.foldl (fun m v => larger m (Scalar.abs v)) m ≤ bound ↔
        m ≤ bound ∧ ∀ x ∈ xs, Scalar.abs x ≤ bound := by
    -- induction on the components, with any largest component so far
    induction xs with
    | nil => simp
    | cons x xs ih =>
      intro m
      rw [List.foldl_cons, ih, larger_le_iff, List.forall_mem_cons, and_assoc]
  exact hfold 0

end Ordered

/-! ### The states of a search -/

/-- The states that a search goes through from its start, each with the number
of iterations before it. -/
inductive Reaches {S : Type} (limit : ℕ) (next : ℕ → S → S → Prop) (start : S) :
    ℕ → S → Prop
  | start : Reaches limit next start 0 start
  | next {k : ℕ} {s s' : S} (hs : Reaches limit next start k s) (hk : k < limit)
      (hnext : next k s s') : Reaches limit next start (k + 1) s'

/-- Where each iteration leads to one state only, there is one state after so
many iterations. -/
theorem Reaches.unique {S : Type} {limit : ℕ} {next : ℕ → S → S → Prop}
    {start : S} (hnext : ∀ k s t t', next k s t → next k s t' → t = t') {k : ℕ}
    {s s' : S} (h : Reaches limit next start k s)
    (h' : Reaches limit next start k s') : s = s' := by
  -- induction on the way to `s`; the way to `s'` has the same number of steps,
  -- so it ends in the same case
  induction h generalizing s' with
  | start =>
    cases h'
    rfl
  | next _ _ hstep ih =>
    cases h' with
    | next hs' _ hstep' =>
      obtain rfl := ih hs'
      exact hnext _ _ _ _ hstep hstep'

end Gimbal
