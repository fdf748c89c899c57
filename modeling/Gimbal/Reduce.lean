/-
Gimbal/Reduce.lean

Shrinking a circuit by local rules.

Four rules look at one entry or at two neighbours:

* a rotation by nothing, or by almost a full turn, is dropped;
* a `z` rotation moves behind a phase flip that shares its qubit, for both are
  diagonal;
* neighbouring rotations about one axis of one qubit become one;
* two equal neighbouring phase flips cancel.

A pass applies the enabled rules once each, in this order.  Passes repeat while
the circuit gets shorter, so there is at most one more of them than there are
entries.
-/
import Gimbal.Circuit

namespace Gimbal

/-! ### Angles -/

section Angles

variable {R : Type} [Scalar R]

/-- From this angle on a rotation counts as a full turn. -/
def fullTurnBand : R := 6.25

/-- Sums above this angle are brought back into one turn. -/
def wrapThreshold : R := 6.28

/-- Whether a rotation by the angle does nothing, to two decimals. -/
def isIdentityAngle (angle : R) : Bool :=
  angle == 0 || (decide (fullTurnBand ≤ angle) && decide (angle ≤ tau))

/-- The sum of two angles, in one turn and rounded to two decimals. -/
def mergeAngles (a b : R) : R :=
  let s := a + b
  if wrapThreshold < s then
    roundHundredth (s - Scalar.floor (s / tau) * tau)
  else roundHundredth s

end Angles

/-! ### The rules -/

/-- The rules by name. -/
inductive Rule
  | removeIdentities
  | commuteThroughCz
  | mergeRotations
  | cancelCzPairs
  /-- All of them. -/
  | all
deriving DecidableEq, Repr

section Rules

variable {R : Type}

/-- Whether an entry is a rotation that does nothing. -/
def Entry.isIdentity [Scalar R] : Entry R → Bool
  | .rotation _ angle _ => isIdentityAngle angle
  | .cz _ _ => false

/-- Drops the rotations that do nothing. -/
def removeIdentities [Scalar R] (c : Circuit R) : Circuit R :=
  c.filter fun e => !e.isIdentity

/-- Whether the first entry is a `z` rotation and the second a phase flip on its
qubit. -/
def meetsCz : Entry R → Entry R → Bool
  | .rotation .z _ q, .cz c t => q == c || q == t
  | _, _ => false

/-- Walks once along the circuit with `first` in hand, exchanging it with each
phase flip it meets and setting it down, in favour of the next entry, where it
meets none. -/
def sweepFrom (first : Entry R) : Circuit R → Circuit R
  | [] => [first]
  | next :: rest =>
    if meetsCz first next then next :: sweepFrom first rest
    else first :: sweepFrom next rest

/-- One walk along the circuit. -/
def sweep : Circuit R → Circuit R
  | [] => []
  | first :: rest => sweepFrom first rest

/-- Whether some `z` rotation stands directly before a phase flip on its
qubit. -/
def hasMeeting : Circuit R → Bool
  | first :: next :: rest => meetsCz first next || hasMeeting (next :: rest)
  | _ => false

/-- Whether an entry is a `z` rotation. -/
def Entry.isZRotation : Entry R → Bool
  | .rotation .z _ _ => true
  | _ => false

/-- Whether an entry is a phase flip. -/
def Entry.isCz : Entry R → Bool
  | .cz _ _ => true
  | _ => false

/-- The number of pairs of a `z` rotation and a phase flip somewhere behind
it. -/
def inversions : Circuit R → Nat
  | [] => 0
  | e :: rest =>
    (if e.isZRotation then rest.countP Entry.isCz else 0) + inversions rest

theorem isZRotation_of_meetsCz {a b : Entry R} (h : meetsCz a b) :
    a.isZRotation := by
  unfold meetsCz at h
  split at h
  · rfl
  · simp at h

theorem isCz_of_meetsCz {a b : Entry R} (h : meetsCz a b) : b.isCz := by
  unfold meetsCz at h
  split at h
  · rfl
  · simp at h

theorem not_isZRotation_of_isCz {e : Entry R} (h : e.isCz) :
    e.isZRotation = false := by
  cases e with
  | rotation axis angle q => simp [Entry.isCz] at h
  | cz c t => rfl

theorem countP_isCz_sweepFrom (first : Entry R) (rest : Circuit R) :
    (sweepFrom first rest).countP Entry.isCz =
      (first :: rest).countP Entry.isCz := by
  induction rest generalizing first with
  | nil => rfl
  | cons next rest ih =>
    unfold sweepFrom
    split
    · simp only [List.countP_cons, ih]
      omega
    · simp only [List.countP_cons, ih]

/-- A walk never adds inversions, and removes one wherever it exchanges two
entries. -/
theorem inversions_sweepFrom_le (first : Entry R) (rest : Circuit R) :
    inversions (sweepFrom first rest) +
      (if hasMeeting (first :: rest) then 1 else 0)
      ≤ inversions (first :: rest) := by
  induction rest generalizing first with
  | nil => simp [sweepFrom, hasMeeting]
  | cons next rest ih =>
    by_cases h : meetsCz first next
    · have hz := isZRotation_of_meetsCz h
      have hc := isCz_of_meetsCz h
      have hn := not_isZRotation_of_isCz hc
      have := ih first
      simp only [sweepFrom, hasMeeting, h, inversions, hz, hn, hc,
        List.countP_cons, if_true, Bool.true_or, Bool.false_eq_true,
        if_false] at this ⊢
      split at this <;> omega
    · have := ih next
      have hcount := countP_isCz_sweepFrom next rest
      simp only [sweepFrom, hasMeeting, h, inversions, Bool.false_or,
        Bool.false_eq_true, if_false, hcount] at this ⊢
      split
      · simp_all
        omega
      · simp_all

theorem inversions_sweep_lt {c : Circuit R} (h : hasMeeting c) :
    inversions (sweep c) < inversions c := by
  cases c with
  | nil => simp [hasMeeting] at h
  | cons first rest =>
    have := inversions_sweepFrom_le first rest
    simp only [h, if_true] at this
    exact this

/-- Moves every `z` rotation behind the phase flips it meets: walks until
nothing is exchanged. -/
def commuteThroughCz (c : Circuit R) : Circuit R :=
  if hasMeeting c then commuteThroughCz (sweep c) else c
termination_by inversions c
decreasing_by exact inversions_sweep_lt (by assumption)

/-- Two neighbours that are rotations about one axis of one qubit, as one. -/
def Entry.fuse? [Scalar R] : Entry R → Entry R → Option (Entry R)
  | .rotation a x p, .rotation b y q =>
    if a = b ∧ p = q then some (.rotation a (mergeAngles x y) p) else none
  | _, _ => none

/-- Merges rotations from the left, with `first` in hand. -/
def mergeFrom [Scalar R] (first : Entry R) : Circuit R → Circuit R
  | [] => [first]
  | next :: rest =>
    match first.fuse? next with
    | some e => mergeFrom e rest
    | none => first :: mergeFrom next rest

/-- Merges neighbouring rotations about one axis of one qubit. -/
def mergeRotations [Scalar R] : Circuit R → Circuit R
  | [] => []
  | first :: rest => mergeFrom first rest

/-- Whether two entries are the same phase flip. -/
def cancels : Entry R → Entry R → Bool
  | .cz c t, .cz c' t' => c == c' && t == t'
  | _, _ => false

/-- Puts an entry on a stack, or takes the phase flip on top away that it
cancels. -/
def cancelOnto (e : Entry R) : Circuit R → Circuit R
  | [] => [e]
  | next :: rest => if cancels e next then rest else e :: next :: rest

/-- Cancels neighbouring equal phase flips, and those that become neighbours by
that: the entries go on a stack one after the other. -/
def cancelCzPairs (c : Circuit R) : Circuit R :=
  (c.foldl (fun stack e => cancelOnto e stack) []).reverse

/-! ### Passes -/

/-- Whether a rule is among the given ones. -/
def enabled (rules : List Rule) (rule : Rule) : Bool :=
  rules.contains rule || rules.contains .all

/-- Applies a rule if it is enabled. -/
def applyIf (rules : List Rule) (rule : Rule) (f : Circuit R → Circuit R)
    (c : Circuit R) :
    Circuit R :=
  if enabled rules rule then f c else c

/-- Applies every enabled rule once. -/
def pass [Scalar R] (rules : List Rule) (c : Circuit R) : Circuit R :=
  applyIf rules .cancelCzPairs cancelCzPairs <|
  applyIf rules .mergeRotations mergeRotations <|
  applyIf rules .commuteThroughCz commuteThroughCz <|
  applyIf rules .removeIdentities removeIdentities c

/-- Applies passes until one leaves the length unchanged. -/
def reduce [Scalar R] (rules : List Rule) (c : Circuit R) : Circuit R :=
  let next := pass rules c
  if next.length < c.length then reduce rules next else next
termination_by c.length

/-- The lengths before and after each pass of a reduction. -/
def passLengths [Scalar R] (rules : List Rule) (c : Circuit R) :
    List (Nat × Nat) :=
  let next := pass rules c
  (c.length, next.length) ::
    if next.length < c.length then passLengths rules next else []
termination_by c.length

end Rules

end Gimbal
