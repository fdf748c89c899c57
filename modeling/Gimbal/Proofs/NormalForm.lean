/-
Gimbal/Proofs/NormalForm.lean

Reduction ends in a normal form.

Passes stop when one of them leaves the *length* unchanged, and that pass may
still have moved entries.  It is nevertheless the last one that could do
anything: every rule but commuting shortens the circuit where it applies at all,
so a pass that keeps the length has only commuted, and what it commuted has no
meeting left.  Hence the result is free of redexes of every enabled rule,
another pass does not change it, and neither does another reduction.

Nothing here depends on the angles: scalars have no laws, and equality of
entries is structural.
-/
import Mathlib.Data.List.Chain
import Mathlib.Logic.Function.Iterate
import Gimbal.Proofs.Rules

namespace Gimbal

variable {R : Type} [Scalar R]

/-! ### Redexes -/

/-- A circuit in which no enabled rule finds anything to do, said by the entries
that must not occur in it, alone or next to each other. -/
structure RedexFree (rules : List Rule) (c : Circuit R) : Prop where
  /-- No rotation that does nothing. -/
  noIdentity : enabled rules .removeIdentities →
    ∀ axis angle q, Entry.rotation axis angle q ∈ c →
      isIdentityAngle angle = false
  /-- No `z` rotation directly before a phase flip on its qubit. -/
  noMeeting : enabled rules .commuteThroughCz →
    ∀ angle q control target, q = control ∨ q = target →
      ¬ [Entry.rotation .z angle q, Entry.cz control target] <:+: c
  /-- No neighbouring rotations about one axis of one qubit. -/
  noMergeable : enabled rules .mergeRotations →
    ∀ axis x y q, ¬ [Entry.rotation axis x q, Entry.rotation axis y q] <:+: c
  /-- No two equal neighbouring phase flips. -/
  noPair : enabled rules .cancelCzPairs →
    ∀ control target,
      ¬ [Entry.cz control target, Entry.cz control target] <:+: c

omit [Scalar R] in
theorem isChain_iff_neighbours {P : Entry R → Entry R → Prop} {c : Circuit R} :
    c.IsChain P ↔ ∀ a b, [a, b] <:+: c → P a b := by
  rw [List.isChain_iff_forall_rel_of_append_cons_cons]
  constructor
  · rintro h a b ⟨s, t, hst⟩
    exact h (by rw [← hst, List.append_assoc]; rfl)
  · rintro h a b s t rfl
    exact h a b ⟨s, t, by simp⟩

theorem forall_isIdentity_iff {c : Circuit R} :
    (∀ e ∈ c, e.isIdentity = false) ↔
      ∀ axis angle q, Entry.rotation axis angle q ∈ c →
        isIdentityAngle angle = false := by
  constructor
  · intro h axis angle q hmem
    exact h _ hmem
  · intro h e hmem
    cases e with
    | rotation axis angle q => exact h axis angle q hmem
    | cz control target => rfl

omit [Scalar R] in
theorem isChain_meetsCz_iff {c : Circuit R} :
    (c.IsChain fun a b => meetsCz a b = false) ↔
      ∀ angle q control target, q = control ∨ q = target →
        ¬ [Entry.rotation .z angle q, Entry.cz control target] <:+: c := by
  simp only [isChain_iff_neighbours, ← Bool.not_eq_true, meetsCz_iff]
  constructor
  · intro h angle q control target hq hin
    exact h _ _ hin ⟨angle, q, control, target, hq, rfl, rfl⟩
  · rintro h a b hin ⟨angle, q, control, target, hq, rfl, rfl⟩
    exact h angle q control target hq hin

theorem isChain_fuse_iff {c : Circuit R} :
    (c.IsChain fun a b => a.fuse? b = none) ↔
      ∀ axis x y q,
        ¬ [Entry.rotation axis x q, Entry.rotation axis y q] <:+: c := by
  simp only [isChain_iff_neighbours, Option.eq_none_iff_forall_ne_some, ne_eq,
    fuse?_eq_some_iff]
  constructor
  · intro h axis x y q hin
    exact h _ _ hin _ ⟨axis, x, y, q, rfl, rfl, rfl⟩
  · rintro h a b hin e ⟨axis, x, y, q, rfl, rfl, rfl⟩
    exact h axis x y q hin

omit [Scalar R] in
theorem noPair_iff {c : Circuit R} :
    NoPair c ↔ ∀ control target,
      ¬ [Entry.cz control target, Entry.cz control target] <:+: c := by
  simp only [NoPair, isChain_iff_neighbours, ← Bool.not_eq_true, cancels_iff]
  constructor
  · intro h control target hin
    exact h _ _ hin ⟨control, target, rfl, rfl⟩
  · rintro h a b hin ⟨control, target, rfl, rfl⟩
    exact h control target hin

/-! ### One pass -/

omit [Scalar R] in
/-- A rule that does nothing or shortens the circuit still does so where it may
be disabled. -/
theorem applyIf_eq_or_lt (rules : List Rule) (rule : Rule)
    {f : Circuit R → Circuit R} {P : Circuit R → Prop}
    (hf : ∀ c, (f c = c ∧ P c) ∨ (f c).length < c.length) (c : Circuit R) :
    (applyIf rules rule f c = c ∧ (enabled rules rule → P c)) ∨
      (applyIf rules rule f c).length < c.length := by
  unfold applyIf
  split
  · rcases hf c with ⟨heq, hP⟩ | hlt
    · exact Or.inl ⟨heq, fun _ => hP⟩
    · exact Or.inr hlt
  · next hdis => exact Or.inl ⟨rfl, fun h => absurd h hdis⟩

omit [Scalar R] in
theorem length_le_of_eq_or_lt {c d : Circuit R} {P : Prop}
    (h : (d = c ∧ P) ∨ d.length < c.length) :
    d.length ≤ c.length := by
  rcases h with ⟨rfl, -⟩ | hlt
  · exact Nat.le_refl _
  · exact Nat.le_of_lt hlt

omit [Scalar R] in
/-- Commuting, where it is enabled. -/
theorem applyIf_commute_spec (rules : List Rule) (c : Circuit R) :
    (applyIf rules .commuteThroughCz commuteThroughCz c).Perm c ∧
      (enabled rules .commuteThroughCz →
        (applyIf rules .commuteThroughCz commuteThroughCz c).IsChain
          fun a b => meetsCz a b = false) := by
  unfold applyIf
  split
  · exact ⟨commuteThroughCz_perm c,
      fun _ => (hasMeeting_eq_false_iff _).mp (hasMeeting_commuteThroughCz c)⟩
  · next hdis => exact ⟨List.Perm.refl c, fun h => absurd h hdis⟩

/-- **A pass shortens the circuit or leaves no redex.** -/
theorem pass_lt_or_redexFree (rules : List Rule) (c : Circuit R) :
    (pass rules c).length < c.length ∨
      (pass rules c).length = c.length ∧ RedexFree rules (pass rules c) := by
  unfold pass
  -- the four rules in the order of a pass, each with what it says about lengths
  have hdrop :=
    applyIf_eq_or_lt rules .removeIdentities removeIdentities_eq_or_lt c
  generalize applyIf rules .removeIdentities removeIdentities c = c₁ at hdrop ⊢
  obtain ⟨hperm, hmeet⟩ := applyIf_commute_spec rules c₁
  generalize applyIf rules .commuteThroughCz commuteThroughCz c₁ =
    c₂ at hperm hmeet ⊢
  have hmerge :=
    applyIf_eq_or_lt rules .mergeRotations mergeRotations_eq_or_lt c₂
  generalize applyIf rules .mergeRotations mergeRotations c₂ = c₃ at hmerge ⊢
  have hcancel :=
    applyIf_eq_or_lt rules .cancelCzPairs cancelCzPairs_eq_or_lt c₃
  generalize applyIf rules .cancelCzPairs cancelCzPairs c₃ = c₄ at hcancel ⊢
  have hlen₁ := length_le_of_eq_or_lt hdrop
  have hlen₃ := length_le_of_eq_or_lt hmerge
  have hlen₄ := length_le_of_eq_or_lt hcancel
  have hlen₂ := hperm.length_eq
  by_cases hlt : c₄.length < c.length
  · exact Or.inl hlt
  · -- no rule shortened anything, so only commuting can have happened
    obtain ⟨rfl, hdropped⟩ := hdrop.resolve_right (by omega)
    obtain ⟨rfl, hmerged⟩ := hmerge.resolve_right (by omega)
    obtain ⟨rfl, hcancelled⟩ := hcancel.resolve_right (by omega)
    refine Or.inr
      ⟨by omega, ⟨fun hon => ?_, fun hon => ?_, fun hon => ?_, fun hon => ?_⟩⟩
    · refine forall_isIdentity_iff.mp fun e he => ?_
      exact hdropped hon e (hperm.mem_iff.mp he)
    · exact isChain_meetsCz_iff.mp (hmeet hon)
    · exact isChain_fuse_iff.mp (hmerged hon)
    · exact noPair_iff.mp (hcancelled hon)

omit [Scalar R] in
theorem applyIf_eq_self {rules : List Rule} {rule : Rule}
    {f : Circuit R → Circuit R} {c : Circuit R}
    (h : enabled rules rule → f c = c) : applyIf rules rule f c = c := by
  unfold applyIf
  split
  · next hon => exact h hon
  · rfl

/-- A pass does not change a circuit without redexes. -/
theorem RedexFree.pass_eq_self {rules : List Rule} {c : Circuit R}
    (h : RedexFree rules c) :
    pass rules c = c := by
  have hdrop : applyIf rules .removeIdentities removeIdentities c = c := by
    refine applyIf_eq_self fun hon => List.filter_eq_self.mpr fun e he => ?_
    rw [forall_isIdentity_iff.mpr (h.noIdentity hon) e he]
    rfl
  have hcommute : applyIf rules .commuteThroughCz commuteThroughCz c = c := by
    refine applyIf_eq_self fun hon => commuteThroughCz_eq_self ?_
    exact (hasMeeting_eq_false_iff c).mpr
      (isChain_meetsCz_iff.mpr (h.noMeeting hon))
  have hmerge : applyIf rules .mergeRotations mergeRotations c = c :=
    applyIf_eq_self fun hon =>
      mergeRotations_eq_self (isChain_fuse_iff.mpr (h.noMergeable hon))
  have hcancel : applyIf rules .cancelCzPairs cancelCzPairs c = c :=
    applyIf_eq_self fun hon =>
      cancelCzPairs_eq_self (noPair_iff.mpr (h.noPair hon))
  rw [pass, hdrop, hcommute, hmerge, hcancel]

/-! ### All passes -/

theorem RedexFree.reduce_eq_self {rules : List Rule} {c : Circuit R}
    (h : RedexFree rules c) :
    reduce rules c = c := by
  rw [reduce, h.pass_eq_self, if_neg (Nat.lt_irrefl _)]

theorem redexFree_reduce (rules : List Rule) (c : Circuit R) :
    RedexFree rules (reduce rules c) := by
  fun_induction reduce rules c with
  | case1 c next hlt ih => exact ih
  | case2 c next hge =>
    rcases pass_lt_or_redexFree rules c with hlt | ⟨-, hfree⟩
    · exact absurd hlt hge
    · exact hfree

/-- There is at most one more pass than there are entries. -/
theorem length_passLengths_le (rules : List Rule) (c : Circuit R) :
    (passLengths rules c).length ≤ c.length + 1 := by
  fun_induction passLengths rules c with
  | case1 c next ih =>
    rw [List.length_cons]
    split
    · next hlt =>
      have := ih hlt
      omega
    · simp

/-- A reduction is made of the passes that its record lists. -/
theorem reduce_eq_iterate (rules : List Rule) (c : Circuit R) :
    reduce rules c = (pass rules)^[(passLengths rules c).length] c := by
  -- induction on the passes: each adds its record and one application
  fun_induction reduce rules c with
  | case1 c next hlt ih =>
    have hrecord :
        passLengths rules c =
          (c.length, next.length) :: passLengths rules next := by
      rw [passLengths, if_pos hlt]
    rw [ih, hrecord, List.length_cons, Function.iterate_succ_apply]
  | case2 c next hge =>
    have hrecord : passLengths rules c = [(c.length, next.length)] := by
      rw [passLengths, if_neg hge]
    rw [hrecord]
    rfl

/-- **Reduction stops only at a fixpoint**: after at most one more pass than
there are entries, in a circuit without redexes of the enabled rules, which
neither a pass nor a reduction changes. -/
theorem reduce_fixpoint (rules : List Rule) (c : Circuit R) :
    (passLengths rules c).length ≤ c.length + 1 ∧
      reduce rules c = (pass rules)^[(passLengths rules c).length] c ∧
      RedexFree rules (reduce rules c) ∧
      pass rules (reduce rules c) = reduce rules c ∧
      reduce rules (reduce rules c) = reduce rules c := by
  have hfree := redexFree_reduce rules c
  refine ⟨length_passLengths_le rules c, reduce_eq_iterate rules c,
    hfree, ?_, ?_⟩
  · exact hfree.pass_eq_self
  · exact hfree.reduce_eq_self

end Gimbal
