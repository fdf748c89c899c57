/-
Gimbal/Proofs/Exchanges.lean

Commuting as rewriting.  One step exchanges a `z` rotation with a phase flip on
its qubit that follows directly:

    …, rz, cz, …    becomes    …, cz, rz, …        (`Exchange`).

Every step takes away one pair of a rotation and a flip behind it, so runs of
steps end, wherever the steps are taken.  Two different steps from one circuit
never overlap, for the second entry of a redex is a flip and the first one is
not; either can still be taken after the other, with the same result
(`Exchange.diamond`).  Hence all runs that end where nothing can be exchanged
end in the same circuit.

Commuting is the run that walks along the circuit again and again.
-/
import Mathlib.Data.List.Chain
import Mathlib.Logic.Relation
import Mathlib.Logic.Function.Iterate
import Gimbal.Proofs.NormalForm

namespace Gimbal

open Relation (ReflTransGen TransGen Join)

variable {R : Type}

/-! ### One step -/

/-- A `z` rotation and a phase flip on its qubit, directly behind it, change
places. -/
inductive Exchange : Circuit R → Circuit R → Prop
  | swap (front back : Circuit R) (angle : R) (q control target : ℕ)
      (h : q = control ∨ q = target) :
      Exchange (front ++ .rotation .z angle q :: .cz control target :: back)
        (front ++ .cz control target :: .rotation .z angle q :: back)

/-- A circuit with no `z` rotation directly before a phase flip on its qubit. -/
def Settled (c : Circuit R) : Prop :=
  ∀ angle q control target, q = control ∨ q = target →
    ¬ [Entry.rotation .z angle q, Entry.cz control target] <:+: c

theorem Exchange.cons (a : Entry R) {c d : Circuit R} (h : Exchange c d) :
    Exchange (a :: c) (a :: d) := by
  cases h with
  | swap front back angle q control target h =>
    exact .swap (a :: front) back angle q control target h

theorem Exchange.head {a b : Entry R} (h : meetsCz a b) (c : Circuit R) :
    Exchange (a :: b :: c) (b :: a :: c) := by
  obtain ⟨angle, q, control, target, hq, rfl, rfl⟩ := meetsCz_iff.mp h
  exact .swap [] c angle q control target hq

theorem not_exchange_nil (d : Circuit R) : ¬ Exchange [] d := by
  intro h
  generalize hc : ([] : Circuit R) = c at h
  cases h with
  | swap front back angle q control target h => simp at hc

/-- A step acts on the first two entries, or behind the first one. -/
theorem exchange_cons_iff {a : Entry R} {c d : Circuit R} :
    Exchange (a :: c) d ↔
      (∃ b rest, meetsCz a b ∧ c = b :: rest ∧ d = b :: a :: rest) ∨
        ∃ d', Exchange c d' ∧ d = a :: d' := by
  constructor
  · intro h
    generalize hc : a :: c = e at h
    cases h with
    | swap front back angle q control target h =>
      cases front with
      | nil =>
        obtain ⟨rfl, rfl⟩ := List.cons.inj hc
        exact Or.inl
          ⟨_, back, meetsCz_iff.mpr ⟨angle, q, control, target, h, rfl, rfl⟩,
            rfl, rfl⟩
      | cons b front =>
        obtain ⟨rfl, rfl⟩ := List.cons.inj hc
        exact Or.inr ⟨_, .swap front back angle q control target h, rfl⟩
  · rintro (⟨b, rest, hab, rfl, rfl⟩ | ⟨d', h, rfl⟩)
    · exact .head hab rest
    · exact h.cons a

theorem settled_iff_hasMeeting {c : Circuit R} :
    Settled c ↔ hasMeeting c = false := by
  rw [hasMeeting_eq_false_iff, isChain_meetsCz_iff]
  rfl

instance (c : Circuit R) : Decidable (Settled c) :=
  decidable_of_iff (hasMeeting c = false) settled_iff_hasMeeting.symm

/-- A settled circuit is one that no step leaves. -/
theorem settled_iff {c : Circuit R} : Settled c ↔ ∀ d, ¬ Exchange c d := by
  constructor
  · intro h d hd
    cases hd with
    | swap front back angle q control target hq =>
      exact h angle q control target hq ⟨front, back, by simp⟩
  · rintro h angle q control target hq ⟨front, back, rfl⟩
    refine h (front ++ .cz control target :: .rotation .z angle q :: back) ?_
    simpa using Exchange.swap front back angle q control target hq

/-! ### Runs end -/

theorem Exchange.perm {c d : Circuit R} (h : Exchange c d) : d.Perm c := by
  cases h with
  | swap front back angle q control target h =>
    exact (List.Perm.swap _ _ back).append_left front

/-- A step takes away one inversion. -/
theorem Exchange.inversions_eq {c d : Circuit R} (h : Exchange c d) :
    inversions c = inversions d + 1 := by
  -- induction on the circuit; the exchange is at its head or behind it
  induction c generalizing d with
  | nil => exact absurd h (not_exchange_nil d)
  | cons a c ih =>
    rcases exchange_cons_iff.mp h with ⟨b, rest, hab, rfl, rfl⟩ | ⟨d', h', rfl⟩
    · -- at the head the one inversion that goes is that of the two
      have hz := isZRotation_of_meetsCz hab
      have hcz := isCz_of_meetsCz hab
      have hnot := not_isZRotation_of_isCz hcz
      simp only [inversions, List.countP_cons, hz, hcz, hnot, if_true,
        Bool.false_eq_true, if_false]
      omega
    · -- behind it the flips stay the same in number
      have hcount : d'.countP Entry.isCz = c.countP Entry.isCz :=
        h'.perm.countP_eq _
      rw [inversions, inversions, hcount, ih h', Nat.add_assoc]

/-- Along a run there is one inversion less for every step. -/
theorem inversions_eq_of_isChain {c : Circuit R} {run : List (Circuit R)}
    (h : (c :: run).IsChain Exchange) :
    inversions c = inversions ((c :: run).getLast (List.cons_ne_nil c run)) +
      run.length := by
  induction run generalizing c with
  | nil => rfl
  | cons d run ih =>
    obtain ⟨hstep, hrun⟩ := List.isChain_cons_cons.mp h
    rw [List.getLast_cons_cons, hstep.inversions_eq, ih hrun, List.length_cons,
      Nat.add_assoc]

theorem reaches_getLast {c : Circuit R} {run : List (Circuit R)}
    (h : (c :: run).IsChain Exchange) :
    ReflTransGen Exchange c ((c :: run).getLast (List.cons_ne_nil c run)) := by
  induction run generalizing c with
  | nil => exact .refl
  | cons d run ih =>
    obtain ⟨hstep, hrun⟩ := List.isChain_cons_cons.mp h
    rw [List.getLast_cons_cons]
    exact .head hstep (ih hrun)

/-! ### Runs agree -/

/-- A step on the first two entries and one further back can follow each
other. -/
theorem exchange_join_head {a b : Entry R} (hab : meetsCz a b) {c d : Circuit R}
    (h : Exchange (b :: c) d) : ∃ e, Exchange (b :: a :: c) e ∧
      Exchange (a :: d) e := by
  rcases exchange_cons_iff.mp h with ⟨b', rest, hb, rfl, rfl⟩ | ⟨d', h', rfl⟩
  · -- the flip of one redex is not the rotation of another
    have hz := isZRotation_of_meetsCz hb
    rw [not_isZRotation_of_isCz (isCz_of_meetsCz hab)] at hz
    cases hz
  · exact ⟨b :: a :: d', (h'.cons a).cons b, .head hab d'⟩

/-- **Two steps from one circuit** lead to the same one, or to two that meet
after one more step each. -/
theorem Exchange.diamond {c d e : Circuit R} (hd : Exchange c d)
    (he : Exchange c e) :
    d = e ∨ ∃ f, Exchange d f ∧ Exchange e f := by
  -- induction on the circuit, by where each of the two exchanges takes place
  induction c generalizing d e with
  | nil => exact absurd hd (not_exchange_nil d)
  | cons a c ih =>
    rcases exchange_cons_iff.mp hd with ⟨b, rest, hab, rfl, rfl⟩ |
        ⟨d', hd', rfl⟩
    · rcases exchange_cons_iff.mp he with ⟨b', rest', -, hc, rfl⟩ |
          ⟨e', he', rfl⟩
      · -- both at the head
        obtain ⟨rfl, rfl⟩ := List.cons.inj hc
        exact Or.inl rfl
      · -- one at the head, the other behind it
        exact Or.inr (exchange_join_head hab he')
    · rcases exchange_cons_iff.mp he with ⟨b, rest, hab, rfl, rfl⟩ |
          ⟨e', he', rfl⟩
      · obtain ⟨f, hf, hf'⟩ := exchange_join_head hab hd'
        exact Or.inr ⟨f, hf', hf⟩
      · -- both behind the head
        rcases ih hd' he' with rfl | ⟨f, hf, hf'⟩
        · exact Or.inl rfl
        · exact Or.inr ⟨a :: f, hf.cons a, hf'.cons a⟩

theorem join_of_reaches {c d e : Circuit R} (hd : ReflTransGen Exchange c d)
    (he : ReflTransGen Exchange c e) : Join (ReflTransGen Exchange) d e := by
  refine Relation.church_rosser (fun c d e hd he => ?_) hd he
  rcases hd.diamond he with rfl | ⟨f, hf, hf'⟩
  · exact ⟨d, .refl, .refl⟩
  · exact ⟨f, .single hf, .single hf'⟩

theorem Settled.eq_of_reaches {c d : Circuit R} (h : Settled c)
    (hd : ReflTransGen Exchange c d) :
    c = d := by
  rcases hd.cases_head with heq | ⟨e, hstep, -⟩
  · exact heq
  · exact absurd hstep (settled_iff.mp h e)

theorem Settled.unique {c d e : Circuit R} (hd : Settled d) (he : Settled e)
    (hcd : ReflTransGen Exchange c d) (hce : ReflTransGen Exchange c e) :
    d = e := by
  obtain ⟨f, hdf, hef⟩ := join_of_reaches hcd hce
  exact (hd.eq_of_reaches hdf).trans (he.eq_of_reaches hef).symm

/-! ### Commuting is a run -/

theorem reaches_cons (a : Entry R) {c d : Circuit R}
    (h : ReflTransGen Exchange c d) :
    ReflTransGen Exchange (a :: c) (a :: d) :=
  h.lift (a :: ·) fun _ _ => Exchange.cons a

theorem reaches_sweepFrom (first : Entry R) (rest : Circuit R) :
    ReflTransGen Exchange (first :: rest) (sweepFrom first rest) := by
  induction rest generalizing first with
  | nil => exact .refl
  | cons next rest ih =>
    unfold sweepFrom
    split
    · next hmeet =>
      exact .head (.head hmeet rest) (reaches_cons next (ih first))
    · exact reaches_cons first (ih next)

theorem reaches_sweep (c : Circuit R) : ReflTransGen Exchange c (sweep c) := by
  cases c with
  | nil => exact .refl
  | cons first rest => exact reaches_sweepFrom first rest

/-- A walk along a circuit that is not settled exchanges something. -/
theorem transGen_sweep {c : Circuit R} (h : hasMeeting c) :
    TransGen Exchange c (sweep c) := by
  rcases Relation.reflTransGen_iff_eq_or_transGen.mp (reaches_sweep c) with
      heq | hstep
  · have hlt := inversions_sweep_lt h
    rw [heq] at hlt
    exact absurd hlt (Nat.lt_irrefl _)
  · exact hstep

theorem Settled.sweep_eq_self {c : Circuit R} (h : Settled c) : sweep c = c :=
  (h.eq_of_reaches (reaches_sweep c)).symm

theorem settled_commuteThroughCz (c : Circuit R) :
    Settled (commuteThroughCz c) :=
  settled_iff_hasMeeting.mpr (hasMeeting_commuteThroughCz c)

theorem reaches_commuteThroughCz (c : Circuit R) :
    ReflTransGen Exchange c (commuteThroughCz c) := by
  fun_induction commuteThroughCz c with
  | case1 c _ ih => exact (reaches_sweep c).trans ih
  | case2 c _ => exact .refl

/-- Commuting walks along the circuit as long as there is something to exchange,
and not more often than there are inversions. -/
theorem exists_rounds (c : Circuit R) :
    ∃ rounds ≤ inversions c, (∀ i < rounds, hasMeeting (sweep^[i] c)) ∧
      sweep^[rounds] c = commuteThroughCz c := by
  -- induction on the walks; each takes away at least one inversion
  fun_induction commuteThroughCz c with
  | case1 c hmeet ih =>
    obtain ⟨rounds, hle, hwalks, hlast⟩ := ih
    refine ⟨rounds + 1, hle.trans_lt (inversions_sweep_lt hmeet),
      fun i hi => ?_, hlast⟩
    cases i with
    | zero => exact hmeet
    | succ i => exact hwalks i (Nat.lt_of_succ_lt_succ hi)
  | case2 c _ =>
    exact ⟨0, Nat.zero_le _, fun i hi => absurd hi (Nat.not_lt_zero i), rfl⟩

/-- **Commuting ends in the only settled circuit.**  The walks stop: after at
most as many of them as the circuit has inversions, each exchanging something,
one more changes nothing.  What they leave has no `z` rotation directly before a
phase flip on its qubit, and it is the only such circuit that exchanges of a
rotation with a flip lead to.  In whatever order these are made, there are at
most as many of them as inversions, and they end there when none is left to
make. -/
theorem commuteThroughCz_unique_settled (c : Circuit R) :
    (∃ rounds ≤ inversions c,
      (∀ i < rounds, TransGen Exchange (sweep^[i] c) (sweep^[i + 1] c)) ∧
      sweep^[rounds] c = commuteThroughCz c ∧
      sweep^[rounds + 1] c = commuteThroughCz c) ∧
    Settled (commuteThroughCz c) ∧
    (∀ d, ReflTransGen Exchange c d ∧ Settled d ↔ d = commuteThroughCz c) ∧
    ∀ run : List (Circuit R), (c :: run).IsChain Exchange →
      run.length ≤ inversions c ∧
      ((∀ d, ¬ Exchange ((c :: run).getLast (List.cons_ne_nil c run)) d) →
        (c :: run).getLast (List.cons_ne_nil c run) = commuteThroughCz c) := by
  have hsettled := settled_commuteThroughCz c
  have hreaches := reaches_commuteThroughCz c
  refine ⟨?_, hsettled, fun d => ⟨?_, ?_⟩,
    fun run hrun => ⟨?_, fun hlast => ?_⟩⟩
  · obtain ⟨rounds, hle, hwalks, hlast⟩ := exists_rounds c
    refine ⟨rounds, hle, fun i hi => ?_, hlast, ?_⟩
    · rw [Function.iterate_succ_apply']
      exact transGen_sweep (hwalks i hi)
    · rw [Function.iterate_succ_apply', hlast, hsettled.sweep_eq_self]
  · rintro ⟨hd, hd'⟩
    exact hd'.unique hsettled hd hreaches
  · rintro rfl
    exact ⟨hreaches, hsettled⟩
  · rw [inversions_eq_of_isChain hrun]
    exact Nat.le_add_left _ _
  · exact (settled_iff.mpr hlast).unique hsettled (reaches_getLast hrun)
      hreaches

/-- Exchanging the last redex first, which no walk does, gives what the walks
give; the rotation of qubit 0 stays before the flip of the qubits 1 and 2. -/
theorem commuteThroughCz_unique_settled_backwards :
    commuteThroughCz [Entry.rz 1 0, .rz 2 1, .cz 0 1, .rz 3 1, .cz 1 2]
      = [.cz 0 1, .rz 1 0, .cz 1 2, .rz 2 1, .rz 3 1] := by
  let c : Circuit ℕ := [.rz 1 0, .rz 2 1, .cz 0 1, .rz 3 1, .cz 1 2]
  let run : List (Circuit ℕ) :=
    [[.rz 1 0, .rz 2 1, .cz 0 1, .cz 1 2, .rz 3 1],
      [.rz 1 0, .cz 0 1, .rz 2 1, .cz 1 2, .rz 3 1],
      [.rz 1 0, .cz 0 1, .cz 1 2, .rz 2 1, .rz 3 1],
      [.cz 0 1, .rz 1 0, .cz 1 2, .rz 2 1, .rz 3 1]]
  have hrun : (c :: run).IsChain Exchange := by
    refine .cons_cons
      (.swap [.rz 1 0, .rz 2 1, .cz 0 1] [] 3 1 1 2 (Or.inl rfl)) ?_
    refine .cons_cons
      (.swap [.rz 1 0] [.cz 1 2, .rz 3 1] 2 1 0 1 (Or.inr rfl)) ?_
    refine .cons_cons
      (.swap [.rz 1 0, .cz 0 1] [.rz 3 1] 2 1 1 2 (Or.inl rfl)) ?_
    exact .cons_cons (.swap [] [.cz 1 2, .rz 2 1, .rz 3 1] 1 0 0 1 (Or.inl rfl))
      (.singleton _)
  have hlast :
      Settled [.cz 0 1, .rz 1 0, .cz 1 2, .rz 2 1, Entry.rz 3 1] := by decide
  obtain ⟨-, -, -, hruns⟩ := commuteThroughCz_unique_settled c
  exact ((hruns run hrun).2 (settled_iff.mp hlast)).symm

end Gimbal
