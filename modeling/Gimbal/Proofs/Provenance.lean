/-
Gimbal/Proofs/Provenance.lean

Where the entries of a reduced circuit come from.  The rules look at neighbours
in the whole circuit, and commuting moves entries past each other; but it never
exchanges two of a kind.  Seen on the phase flips alone, or on the rotations
alone, a reduction is therefore a rewriting of that list:

    flips      …, f, f, …    becomes    …, …              (`Cancels`)
    rotations  …, r, …       becomes    …, …              where `r` does nothing
               …, r, r', …   becomes    …, r'', …         where `r` and `r'` are merged  (`Condenses`).

Neighbours in the circuit that a rule acts on are of one kind, so they are
neighbours in their list too.  From the rewriting of the flips, each flip occurs
as often as before or an even number of times less; from that of the rotations,
no axis of a qubit is turned about that was not before.
-/
import Mathlib.Logic.Relation
import Gimbal.Proofs.Rules

namespace Gimbal

open Relation (ReflTransGen)

variable {R : Type}

/-! ### The two kinds of entries -/

namespace Circuit

/-- The phase flips of a circuit, in order. -/
def flips (c : Circuit R) : Circuit R := c.filter Entry.isCz

/-- The rotations of a circuit, in order. -/
def rotations (c : Circuit R) : Circuit R := c.filter fun e => !e.isCz

/-- How often a phase flip occurs. -/
def flipCount (control target : ℕ) (c : Circuit R) : ℕ :=
  c.countP (cancels (.cz control target))

theorem flipCount_flips (control target : ℕ) (c : Circuit R) :
    flipCount control target (flips c) = flipCount control target c := by
  rw [flipCount, flips, List.countP_filter, flipCount]
  congr 1
  funext e
  cases e <;> simp [cancels, Entry.isCz]

end Circuit

open Circuit

/-! ### Rewriting one kind -/

/-- Two equal neighbouring phase flips are deleted. -/
inductive Cancels : Circuit R → Circuit R → Prop
  | pair (front back : Circuit R) (control target : ℕ) :
      Cancels (front ++ .cz control target :: .cz control target :: back)
        (front ++ back)

/-- A rotation that does nothing is deleted, or two neighbouring rotations about
one axis of one qubit are replaced by one. -/
inductive Condenses [Scalar R] : Circuit R → Circuit R → Prop
  | drop (front back : Circuit R) (axis : Axis) (angle : R) (q : ℕ)
      (h : isIdentityAngle angle = true) :
      Condenses (front ++ .rotation axis angle q :: back) (front ++ back)
  | merge (front back : Circuit R) (axis : Axis) (x y : R) (q : ℕ) :
      Condenses (front ++ .rotation axis x q :: .rotation axis y q :: back)
        (front ++ .rotation axis (mergeAngles x y) q :: back)

theorem Cancels.cons (e : Entry R) {c d : Circuit R} (h : Cancels c d) :
    Cancels (e :: c) (e :: d) := by
  cases h with
  | pair front back control target =>
    exact .pair (e :: front) back control target

theorem Condenses.cons [Scalar R] (e : Entry R) {c d : Circuit R}
    (h : Condenses c d) :
    Condenses (e :: c) (e :: d) := by
  cases h with
  | drop front back axis angle q h =>
    exact .drop (e :: front) back axis angle q h
  | merge front back axis x y q => exact .merge (e :: front) back axis x y q

/-! ### What rewriting keeps -/

/-- Each phase flip is left as often as before, or an even number of times
less. -/
theorem flipCount_of_cancels {c d : Circuit R} (h : ReflTransGen Cancels c d)
    (control target : ℕ) :
    flipCount control target d ≤ flipCount control target c ∧
      flipCount control target d % 2 = flipCount control target c % 2 := by
  induction h with
  | refl => exact ⟨le_rfl, rfl⟩
  | tail _ hstep ih =>
    cases hstep with
    | pair front back control' target' =>
      simp only [flipCount, List.countP_append, List.countP_cons] at ih ⊢
      omega

/-- Every axis of a qubit that is turned about was turned about before. -/
theorem exists_rotation_of_condenses [Scalar R] {c d : Circuit R}
    (h : ReflTransGen Condenses c d) {axis : Axis} {angle : R} {q : ℕ}
    (hmem : .rotation axis angle q ∈ d) :
    ∃ x, .rotation axis x q ∈ c := by
  -- induction on the steps of the reduction, from the last one backwards
  induction h generalizing angle with
  | refl => exact ⟨angle, hmem⟩
  | tail _ hstep ih =>
    cases hstep with
    | drop front back axis' angle' q' h =>
      -- nothing new is left when a rotation is dropped
      refine @ih angle ?_
      rcases List.mem_append.mp hmem with hfront | hback
      · exact List.mem_append_left _ hfront
      · exact List.mem_append_right _ (List.mem_cons_of_mem _ hback)
    | merge front back axis' x y q' =>
      rcases List.mem_append.mp hmem with hfront | hback
      · exact ih (List.mem_append_left _ hfront)
      · rcases List.mem_cons.mp hback with heq | hlater
        · -- the merged rotation has the axis and the qubit of the two it came
          -- from
          cases heq
          exact @ih x (by simp)
        · exact @ih angle (by simp [hlater])

/-! ### Descent of circuits -/

/-- The phase flips and the rotations of `d` come from those of `c` by rewriting
each kind. -/
structure Descends [Scalar R] (c d : Circuit R) : Prop where
  flips : ReflTransGen Cancels c.flips d.flips
  rotations : ReflTransGen Condenses c.rotations d.rotations

namespace Descends

variable [Scalar R] {c d e : Circuit R}

theorem refl (c : Circuit R) : Descends c c := ⟨.refl, .refl⟩

theorem trans (h : Descends c d) (h' : Descends d e) : Descends c e :=
  ⟨h.flips.trans h'.flips, h.rotations.trans h'.rotations⟩

/-- Circuits with the same flips and the same rotations. -/
theorem of_eq (hflips : d.flips = c.flips)
    (hrotations : d.rotations = c.rotations) :
    Descends c d := by
  constructor
  · rw [hflips]
  · rw [hrotations]

/-- An entry in front stays as it is. -/
theorem cons (a : Entry R) (h : Descends c d) : Descends (a :: c) (a :: d) := by
  cases a with
  | rotation axis angle q =>
    refine ⟨h.flips, ?_⟩
    exact ReflTransGen.lift (Entry.rotation axis angle q :: ·)
      (fun _ _ => Condenses.cons _) _ _
      h.rotations
  | cz control target =>
    refine ⟨?_, h.rotations⟩
    exact ReflTransGen.lift (Entry.cz control target :: ·)
      (fun _ _ => Cancels.cons _) _ _ h.flips

end Descends

/-! ### The rules -/

section Rules

variable [Scalar R]

theorem descends_removeIdentities (c : Circuit R) :
    Descends c (removeIdentities c) := by
  induction c with
  | nil => exact .refl []
  | cons e c ih =>
    by_cases hid : e.isIdentity
    · have hskip : removeIdentities (e :: c) = removeIdentities c := by
        simp [removeIdentities, hid]
      rw [hskip]
      cases e with
      | cz control target => simp [Entry.isIdentity] at hid
      | rotation axis angle q =>
        have hdrop :
            Condenses (rotations (.rotation axis angle q :: c)) (rotations c) :=
          .drop [] (rotations c) axis angle q hid
        exact ⟨ih.flips, ih.rotations.head hdrop⟩
    · have hkeep : removeIdentities (e :: c) = e :: removeIdentities c := by
        simp [removeIdentities, hid]
      rw [hkeep]
      exact ih.cons e

/-- Entries that are exchanged are of different kinds. -/
theorem descends_sweepFrom (first : Entry R) (rest : Circuit R) :
    Descends (first :: rest) (sweepFrom first rest) := by
  induction rest generalizing first with
  | nil => exact .refl [first]
  | cons next rest ih =>
    unfold sweepFrom
    split
    · next hmeet =>
      -- neither the flips nor the rotations change their order
      obtain ⟨angle, q, control, target, -, rfl, rfl⟩ := meetsCz_iff.mp hmeet
      have hswap : Descends (.rotation .z angle q :: .cz control target :: rest)
          (.cz control target :: .rotation .z angle q :: rest) := .of_eq rfl rfl
      exact hswap.trans ((ih (.rotation .z angle q)).cons (.cz control target))
    · exact (ih next).cons first

theorem descends_commuteThroughCz (c : Circuit R) :
    Descends c (commuteThroughCz c) := by
  fun_induction commuteThroughCz c with
  | case1 c _ ih =>
    cases c with
    | nil => exact ih
    | cons first rest => exact (descends_sweepFrom first rest).trans ih
  | case2 c _ => exact .refl c

theorem descends_mergeFrom (first : Entry R) (rest : Circuit R) :
    Descends (first :: rest) (mergeFrom first rest) := by
  fun_induction mergeFrom first rest with
  | case1 first => exact .refl [first]
  | case2 first next rest e hfuse ih =>
    obtain ⟨axis, x, y, q, rfl, rfl, rfl⟩ := fuse?_eq_some_iff.mp hfuse
    -- the two rotations are neighbours also among the rotations
    have hmerge :
        Condenses (rotations (.rotation axis x q :: .rotation axis y q :: rest))
        (rotations (.rotation axis (mergeAngles x y) q :: rest)) :=
      .merge [] (rotations rest) axis x y q
    exact ⟨ih.flips, ih.rotations.head hmerge⟩
  | case3 first next rest _ ih => exact ih.cons first

theorem descends_mergeRotations (c : Circuit R) :
    Descends c (mergeRotations c) := by
  cases c with
  | nil => exact .refl []
  | cons first rest => exact descends_mergeFrom first rest

theorem descends_cancelOnto (e : Entry R) (c : Circuit R) :
    Descends (e :: c) (cancelOnto e c) := by
  cases c with
  | nil => exact .refl [e]
  | cons next rest =>
    rw [cancelOnto]
    split
    · next hcancel =>
      obtain ⟨control, target, rfl, rfl⟩ := cancels_iff.mp hcancel
      exact ⟨.single (.pair [] (flips rest) control target), .refl⟩
    · exact .refl _

theorem descends_cancelCzPairs (c : Circuit R) :
    Descends c (cancelCzPairs c) := by
  induction c with
  | nil => exact .refl []
  | cons e c ih =>
    rw [cancelCzPairs_cons]
    exact (ih.cons e).trans (descends_cancelOnto e (cancelCzPairs c))

/-- Every rule keeps the descent from a circuit. -/
theorem rulesKeep_descends (rules : List Rule) (c : Circuit R) :
    RulesKeep rules (Descends c) where
  removeIdentities _ d h := h.trans (descends_removeIdentities d)
  commuteThroughCz _ d h := h.trans (descends_commuteThroughCz d)
  mergeRotations _ d h := h.trans (descends_mergeRotations d)
  cancelCzPairs _ d h := h.trans (descends_cancelCzPairs d)

/-! ### Reductions -/

/-- **Reduction neither invents nor reorders within a kind.**  The phase flips
of a reduced circuit come from those of the circuit by deleting equal
neighbours, its rotations from the rotations by deleting some that do nothing
and merging neighbours.  So each flip is left as often as it was or an even
number of times less, and each axis of a qubit that is turned about was turned
about before. -/
theorem reduce_descends (rules : List Rule) (c : Circuit R) :
    ReflTransGen Cancels c.flips (flips (reduce rules c)) ∧
      ReflTransGen Condenses c.rotations (rotations (reduce rules c)) ∧
      (∀ control target,
        flipCount control target (reduce rules c) ≤ flipCount control target c ∧
          flipCount control target (reduce rules c) % 2 =
            flipCount control target c % 2) ∧
      ∀ axis angle q, .rotation axis angle q ∈ reduce rules c → ∃ x,
        .rotation axis x q ∈ c := by
  obtain ⟨hflips, hrotations⟩ :=
    (rulesKeep_descends rules c).reduce (Descends.refl c)
  refine ⟨hflips, hrotations, ?_, ?_⟩
  · intro control target
    rw [← flipCount_flips, ← flipCount_flips control target c]
    exact flipCount_of_cancels hflips control target
  · intro axis angle q hmem
    have hrot : .rotation axis angle q ∈ rotations (reduce rules c) :=
      List.mem_filter.mpr ⟨hmem, rfl⟩
    obtain ⟨x, hx⟩ := exists_rotation_of_condenses hrotations hrot
    exact ⟨x, List.mem_of_mem_filter hx⟩

end Rules

end Gimbal
