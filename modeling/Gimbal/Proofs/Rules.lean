/-
Gimbal/Proofs/Rules.lean

What the rules of reduction do to the list of entries, whatever its angles are.
Three of them act on two neighbours, which they recognize by their form
(`meetsCz_iff`, `fuse?_eq_some_iff`, `cancels_iff`).

Commuting permutes the entries and leaves no meeting.  Each of the other rules
either finds nothing to do and returns the circuit as it is, or makes it
shorter:

    f c = c, and c has no redex of f,        or        (f c).length < c.length.

So the length of a pass tells whether anything but commuting happened in it.

What every enabled rule keeps, a reduction keeps (`RulesKeep.reduce`).  So it is
with a property of all entries that passes from two rotations to the one they
are merged into (`rulesKeep_forall_mem`).
-/
import Mathlib.Data.List.Chain
import Gimbal.Reduce

namespace Gimbal

variable {R : Type}

/-! ### Redexes of two neighbours -/

theorem meetsCz_iff {a b : Entry R} :
    meetsCz a b = true ↔ ∃ angle q control target, (q = control ∨ q = target) ∧
      a = .rotation .z angle q ∧ b = .cz control target := by
  constructor
  · intro h
    unfold meetsCz at h
    split at h
    · next angle q control target =>
      exact ⟨angle, q, control, target, by simpa using h, rfl, rfl⟩
    · cases h
  · rintro ⟨angle, q, control, target, hq, rfl, rfl⟩
    simpa [meetsCz] using hq

theorem fuse?_eq_some_iff [Scalar R] {a b e : Entry R} :
    a.fuse? b = some e ↔ ∃ axis x y q, a = .rotation axis x q ∧
      b = .rotation axis y q ∧
      e = .rotation axis (mergeAngles x y) q := by
  constructor
  · intro h
    unfold Entry.fuse? at h
    split at h
    · next axis x p axis' y q =>
      split at h
      · next heq =>
        obtain ⟨rfl, rfl⟩ := heq
        exact ⟨axis, x, y, p, rfl, rfl, (Option.some.inj h).symm⟩
      · cases h
    · cases h
  · rintro ⟨axis, x, y, q, rfl, rfl, rfl⟩
    simp [Entry.fuse?]

theorem cancels_iff {a b : Entry R} :
    cancels a b = true ↔ ∃ control target, a = .cz control target ∧
      b = .cz control target := by
  constructor
  · intro h
    unfold cancels at h
    split at h
    · next control target control' target' =>
      obtain ⟨rfl, rfl⟩ := by simpa using h
      exact ⟨control, target, rfl, rfl⟩
    · cases h
  · rintro ⟨control, target, rfl, rfl⟩
    simp [cancels]

/-! ### Commuting -/

theorem sweepFrom_perm (first : Entry R) (rest : Circuit R) :
    (sweepFrom first rest).Perm (first :: rest) := by
  induction rest generalizing first with
  | nil => exact List.Perm.refl _
  | cons next rest ih =>
    unfold sweepFrom
    split
    · exact ((ih first).cons next).trans (List.Perm.swap first next rest)
    · exact (ih next).cons first

theorem sweep_perm (c : Circuit R) : (sweep c).Perm c := by
  cases c with
  | nil => exact List.Perm.refl _
  | cons first rest => exact sweepFrom_perm first rest

theorem commuteThroughCz_perm (c : Circuit R) :
    (commuteThroughCz c).Perm c := by
  fun_induction commuteThroughCz c with
  | case1 c _ ih => exact ih.trans (sweep_perm c)
  | case2 c _ => exact List.Perm.refl c

theorem hasMeeting_commuteThroughCz (c : Circuit R) :
    hasMeeting (commuteThroughCz c) = false := by
  fun_induction commuteThroughCz c with
  | case1 c _ ih => exact ih
  | case2 c h => simpa using h

theorem commuteThroughCz_eq_self {c : Circuit R} (h : hasMeeting c = false) :
    commuteThroughCz c = c := by
  rw [commuteThroughCz, if_neg (by simp [h])]

theorem hasMeeting_eq_false_iff (c : Circuit R) :
    hasMeeting c = false ↔ c.IsChain fun a b => meetsCz a b = false := by
  fun_induction hasMeeting c with
  | case1 first next rest ih => simp [ih]
  | case2 c h =>
    match c, h with
    | [], _ => simp
    | [_], _ => simp
    | first :: next :: rest, h => exact absurd rfl (h first next rest)

/-! ### Dropping -/

theorem removeIdentities_eq_or_lt [Scalar R] (c : Circuit R) :
    (removeIdentities c = c ∧ ∀ e ∈ c, e.isIdentity = false) ∨
      (removeIdentities c).length < c.length := by
  by_cases h : ∀ e ∈ c, e.isIdentity = false
  · refine Or.inl ⟨List.filter_eq_self.mpr fun e he => ?_, h⟩
    rw [h e he]
    rfl
  · refine Or.inr (List.length_filter_lt_length_iff_exists.mpr ?_)
    obtain ⟨e, he, hid⟩ := by simpa using h
    exact ⟨e, he, by simp [hid]⟩

/-! ### Merging -/

theorem mergeFrom_eq_or_lt [Scalar R] (first : Entry R) (rest : Circuit R) :
    (mergeFrom first rest = first :: rest ∧
        (first :: rest).IsChain fun a b => a.fuse? b = none) ∨
      (mergeFrom first rest).length < (first :: rest).length := by
  fun_induction mergeFrom first rest with
  | case1 first => exact Or.inl ⟨rfl, List.isChain_singleton first⟩
  | case2 first next rest e _ ih =>
    -- two entries became one, whatever happens later
    right
    rcases ih with ⟨heq, _⟩ | hlt
    · rw [heq]
      simp
    · simp only [List.length_cons] at hlt ⊢
      omega
  | case3 first next rest hfuse ih =>
    -- nothing happened at this place, so the rest decides
    rcases ih with ⟨heq, hchain⟩ | hlt
    · exact Or.inl ⟨by rw [heq], List.isChain_cons_cons.mpr ⟨hfuse, hchain⟩⟩
    · right
      simpa using hlt

theorem mergeRotations_eq_or_lt [Scalar R] (c : Circuit R) :
    (mergeRotations c = c ∧ c.IsChain fun a b => a.fuse? b = none) ∨
      (mergeRotations c).length < c.length := by
  cases c with
  | nil => exact Or.inl ⟨rfl, List.isChain_nil⟩
  | cons first rest => exact mergeFrom_eq_or_lt first rest

theorem mergeFrom_eq_self [Scalar R] {first : Entry R} {rest : Circuit R}
    (h : (first :: rest).IsChain fun a b => a.fuse? b = none) :
    mergeFrom first rest = first :: rest := by
  induction rest generalizing first with
  | nil => rfl
  | cons next rest ih =>
    obtain ⟨hfuse, hrest⟩ := List.isChain_cons_cons.mp h
    rw [mergeFrom, hfuse]
    exact congrArg _ (ih hrest)

theorem mergeRotations_eq_self [Scalar R] {c : Circuit R}
    (h : c.IsChain fun a b => a.fuse? b = none) : mergeRotations c = c := by
  cases c with
  | nil => rfl
  | cons first rest => exact mergeFrom_eq_self h

/-! ### Cancelling -/

/-- No two neighbours cancel: so it is with the stack at any time, read from
either end. -/
abbrev NoPair (c : Circuit R) : Prop := c.IsChain fun a b => cancels a b = false

theorem cancels_comm (a b : Entry R) : cancels a b = cancels b a := by
  rw [Bool.eq_iff_iff, cancels_iff, cancels_iff]
  constructor <;> rintro ⟨control, target, rfl, rfl⟩ <;> exact ⟨_, _, rfl, rfl⟩

theorem noPair_reverse {c : Circuit R} : NoPair c.reverse ↔ NoPair c := by
  rw [NoPair, List.isChain_reverse]
  simp only [cancels_comm, NoPair]

theorem noPair_cancelOnto (e : Entry R) {c : Circuit R} (h : NoPair c) :
    NoPair (cancelOnto e c) := by
  cases c with
  | nil => exact List.isChain_singleton e
  | cons next rest =>
    rw [cancelOnto]
    split
    · exact h.tail
    · next hne => exact List.isChain_cons_cons.mpr ⟨by simpa using hne, h⟩

theorem noPair_foldr_cancelOnto (c : Circuit R) :
    NoPair (c.foldr cancelOnto []) := by
  induction c with
  | nil => exact List.isChain_nil
  | cons e c ih => exact noPair_cancelOnto e ih

/-- In front of a chain nothing cancels. -/
theorem foldr_cancelOnto_eq_self {c : Circuit R} (h : NoPair c) :
    c.foldr cancelOnto [] = c := by
  induction c with
  | nil => rfl
  | cons e c ih =>
    rw [List.foldr_cons, ih h.tail]
    cases c with
    | nil => rfl
    | cons next rest =>
      obtain ⟨hne, -⟩ := List.isChain_cons_cons.mp h
      rw [cancelOnto, if_neg (by simp [hne])]

/-- Two equal phase flips in front of a chain are gone, whatever they meet
there. -/
theorem cancelOnto_cancelOnto {a b : Entry R} (hab : cancels a b = true)
    {c : Circuit R} (h : NoPair c) : cancelOnto a (cancelOnto b c) = c := by
  obtain ⟨control, target, rfl, rfl⟩ := cancels_iff.mp hab
  cases c with
  | nil => simp [cancelOnto, hab]
  | cons next rest =>
    by_cases hnext : cancels (.cz control target) next
    · -- the second takes `next` away, the first puts it back
      obtain ⟨_, _, hflip, rfl⟩ := cancels_iff.mp hnext
      rw [← hflip] at h hnext ⊢
      rw [cancelOnto, if_pos hnext]
      cases rest with
      | nil => rfl
      | cons after rest =>
        obtain ⟨hne, -⟩ := List.isChain_cons_cons.mp h
        rw [cancelOnto, if_neg (by simp [hne])]
    · rw [cancelOnto, if_neg hnext, cancelOnto, if_pos hab]

/-- Going on with a stack is putting its entries in front of what the rest
leaves. -/
theorem reverse_foldl_cancelOnto (c : Circuit R) {stack : Circuit R}
    (h : NoPair stack) :
    (c.foldl (fun stack e => cancelOnto e stack) stack).reverse =
      stack.reverse.foldr cancelOnto (c.foldr cancelOnto []) := by
  -- induction on what is still to be read, for every stack without a pair
  induction c generalizing stack with
  | nil => exact (foldr_cancelOnto_eq_self (noPair_reverse.mpr h)).symm
  | cons e c ih =>
    rw [List.foldl_cons, ih (noPair_cancelOnto e h), List.foldr_cons]
    cases stack with
    | nil => rfl
    | cons top rest =>
      rw [cancelOnto]
      split
      · next htop =>
        -- what was on top cancels `e` from either side
        have hgone := cancelOnto_cancelOnto ((cancels_comm top e).trans htop)
          (noPair_foldr_cancelOnto c)
        rw [List.reverse_cons, List.foldr_append, List.foldr_cons,
          List.foldr_nil, hgone]
      · rw [List.reverse_cons, List.foldr_append, List.foldr_cons,
          List.foldr_nil]

/-- **The stack does what a walk from the end does**: which of three equal
phase flips stays does not matter. -/
theorem cancelCzPairs_eq_foldr (c : Circuit R) :
    cancelCzPairs c = c.foldr cancelOnto [] :=
  reverse_foldl_cancelOnto c List.isChain_nil

@[simp] theorem cancelCzPairs_cons (e : Entry R) (c : Circuit R) :
    cancelCzPairs (e :: c) = cancelOnto e (cancelCzPairs c) := by
  rw [cancelCzPairs_eq_foldr, cancelCzPairs_eq_foldr, List.foldr_cons]

theorem cancelOnto_sublist (e : Entry R) (c : Circuit R) :
    (cancelOnto e c).Sublist (e :: c) := by
  cases c with
  | nil => exact List.Sublist.refl _
  | cons next rest =>
    rw [cancelOnto]
    split
    · exact ((List.Sublist.refl rest).cons next).cons e
    · exact List.Sublist.refl _

theorem cancelCzPairs_sublist (c : Circuit R) :
    (cancelCzPairs c).Sublist c := by
  induction c with
  | nil => exact List.Sublist.refl _
  | cons e c ih =>
    rw [cancelCzPairs_cons]
    exact (cancelOnto_sublist e (cancelCzPairs c)).trans (ih.cons_cons e)

theorem cancelCzPairs_eq_or_lt (c : Circuit R) :
    (cancelCzPairs c = c ∧ NoPair c) ∨ (cancelCzPairs c).length < c.length := by
  induction c with
  | nil => exact Or.inl ⟨rfl, List.isChain_nil⟩
  | cons e c ih =>
    rw [cancelCzPairs_cons]
    rcases ih with ⟨heq, hchain⟩ | hlt
    · rw [heq]
      cases c with
      | nil => exact Or.inl ⟨rfl, List.isChain_singleton e⟩
      | cons next rest =>
        -- the rest has kept its length, so the two heads decide
        by_cases h : cancels e next
        · right
          simp only [cancelOnto, h, if_true, List.length_cons]
          omega
        · left
          refine ⟨by simp [cancelOnto, h], List.isChain_cons_cons.mpr ⟨?_, hchain⟩⟩
          simpa using h
    · -- putting an entry in front adds at most that one
      right
      have hle := (cancelOnto_sublist e (cancelCzPairs c)).length_le
      rw [List.length_cons] at hle ⊢
      omega

theorem cancelCzPairs_eq_self {c : Circuit R} (h : NoPair c) :
    cancelCzPairs c = c :=
  (cancelCzPairs_eq_foldr c).trans (foldr_cancelOnto_eq_self h)

/-! ### What every rule keeps -/

/-- Every enabled rule keeps a property of circuits. -/
structure RulesKeep [Scalar R] (rules : List Rule) (P : Circuit R → Prop) :
    Prop where
  removeIdentities : enabled rules .removeIdentities → ∀ {c}, P c →
    P (removeIdentities c)
  commuteThroughCz : enabled rules .commuteThroughCz → ∀ {c}, P c →
    P (commuteThroughCz c)
  mergeRotations : enabled rules .mergeRotations → ∀ {c}, P c →
    P (mergeRotations c)
  cancelCzPairs : enabled rules .cancelCzPairs → ∀ {c}, P c →
    P (cancelCzPairs c)

theorem applyIf_keeps {rules : List Rule} {rule : Rule}
    {f : Circuit R → Circuit R} {P : Circuit R → Prop}
    (hf : enabled rules rule → ∀ {c}, P c → P (f c)) {c : Circuit R} (h : P c) :
    P (applyIf rules rule f c) := by
  unfold applyIf
  split
  · next hon => exact hf hon h
  · exact h

namespace RulesKeep

variable [Scalar R] {rules : List Rule} {P : Circuit R → Prop}

theorem pass (hkeep : RulesKeep rules P) {c : Circuit R} (h : P c) :
    P (pass rules c) := by
  unfold Gimbal.pass
  apply applyIf_keeps hkeep.cancelCzPairs
  apply applyIf_keeps hkeep.mergeRotations
  apply applyIf_keeps hkeep.commuteThroughCz
  exact applyIf_keeps hkeep.removeIdentities h

theorem reduce (hkeep : RulesKeep rules P) {c : Circuit R} (h : P c) :
    P (reduce rules c) := by
  fun_induction Gimbal.reduce rules c with
  | case1 c next _ ih => exact ih (hkeep.pass h)
  | case2 c next _ => exact hkeep.pass h

end RulesKeep

theorem forall_mem_mergeFrom [Scalar R] {P : Entry R → Prop}
    (hP : ∀ axis x y q, P (.rotation axis x q) → P (.rotation axis y q) →
      P (.rotation axis (mergeAngles x y) q))
    {first : Entry R} {rest : Circuit R}
    (h : ∀ e ∈ first :: rest, P e) : ∀ e ∈ mergeFrom first rest, P e := by
  fun_induction mergeFrom first rest with
  | case1 first => exact h
  | case2 first next rest e hfuse ih =>
    obtain ⟨hfirst, hrest⟩ := List.forall_mem_cons.mp h
    obtain ⟨hnext, hlater⟩ := List.forall_mem_cons.mp hrest
    obtain ⟨axis, x, y, q, rfl, rfl, rfl⟩ := fuse?_eq_some_iff.mp hfuse
    exact ih (List.forall_mem_cons.mpr ⟨hP axis x y q hfirst hnext, hlater⟩)
  | case3 first next rest _ ih =>
    obtain ⟨hfirst, hrest⟩ := List.forall_mem_cons.mp h
    exact List.forall_mem_cons.mpr ⟨hfirst, ih hrest⟩

/-- What holds of all entries, and of a merged rotation if it holds of the two,
is kept by every rule. -/
theorem rulesKeep_forall_mem [Scalar R] {P : Entry R → Prop}
    (hP : ∀ axis x y q, P (.rotation axis x q) → P (.rotation axis y q) →
      P (.rotation axis (mergeAngles x y) q))
    (rules : List Rule) :
    RulesKeep rules fun c => ∀ e ∈ c, P e := by
  constructor
  · intro _ c h e he
    exact h e (List.mem_of_mem_filter he)
  · intro _ c h e he
    exact h e ((commuteThroughCz_perm c).subset he)
  · intro _ c h
    cases c with
    | nil => exact h
    | cons first rest => exact forall_mem_mergeFrom hP h
  · intro _ c h e he
    exact h e ((cancelCzPairs_sublist c).subset he)

end Gimbal
