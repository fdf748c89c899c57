/-
Gimbal/Proofs/RememberedTurns.lean

Which searches an expansion makes.  A rotation about the second axis is searched
for where its angle first stands, and never again.  Let `firstTurns input` be
these angles, in the order of the input with the repeats dropped.  Then the
searcher ends as if it had been asked for them alone, one by one,

    e.searcher = s.afterTurns (firstTurns input)        (`searches_of_expand`),

and the decomposition of an angle, wherever it stands, is the one that is found
after the searches for the angles before it.  So it depends on no other gate, on
no repeat and on no qubit, and two inputs that agree on their first angles agree
on their decompositions.

What carries the induction is what an expander remembers after some angles
(`Remembers`): exactly these angles are known, each with the decomposition that
its search has found.
-/
import Mathlib
import Gimbal.Binary64
import Gimbal.Proofs.Acceptance
import Gimbal.Proofs.Exact

namespace Gimbal

variable {G R : Type}

/-! ### The angles of an input circuit -/

/-- Numbers that have the same representation exactly if they are equal. -/
class LawfulSame (R : Type) [Scalar R] : Prop where
  same_iff : ∀ {a b : R}, Scalar.same a b = true ↔ a = b

instance : LawfulSame ℝ := ⟨decide_eq_true_iff⟩

instance : LawfulSame Float := ⟨beq_iff_eq.trans Float.toBits_inj⟩

/-- The angle of a rotation about the second axis. -/
def Occurrence.turnAngle? : Occurrence R → Option R
  | .parametrized name angle _ =>
    if name = Direction.y.label then some angle else none
  | _ => none

theorem Occurrence.turnAngle?_eq_some_iff {o : Occurrence R} {angle : R} :
    o.turnAngle? = some angle ↔ ∃ q, o = .ofRotation .y angle q := by
  cases o <;> simp [turnAngle?, ofRotation]

/-- The angles of the rotations about the second axis, each where it first
stands. -/
def firstTurns [Scalar R] (input : List (Occurrence R)) : List R :=
  (input.filterMap Occurrence.turnAngle?).eraseDupsBy Scalar.same

/-- The angles of a list that are not among those met before, each where it
first stands. -/
def unmet [Scalar R] (met angles : List R) : List R :=
  (angles.filter fun a => !met.any (Scalar.same · a)).eraseDupsBy Scalar.same

section Unmet

variable [Scalar R]

theorem unmet_nil_left (angles : List R) :
    unmet [] angles = angles.eraseDupsBy Scalar.same := by
  simp [unmet]

theorem unmet_nil_right (met : List R) : unmet met [] = [] := rfl

variable [LawfulSame R] {met angles : List R} {a : R}

theorem any_same_iff : met.any (Scalar.same · a) = true ↔ a ∈ met := by
  simp [LawfulSame.same_iff]

theorem unmet_cons_of_mem (h : a ∈ met) :
    unmet met (a :: angles) = unmet met angles := by
  rw [unmet, List.filter_cons_of_neg (by simpa using any_same_iff.mpr h), unmet]

theorem unmet_cons_of_notMem (h : a ∉ met) :
    unmet met (a :: angles) = a :: unmet (met ++ [a]) angles := by
  have hnew : (met.any (Scalar.same · a)) = false := by
    rwa [Bool.eq_false_iff, Ne, any_same_iff]
  rw [unmet, List.filter_cons_of_pos (by simp [hnew]), List.eraseDupsBy_cons,
    List.filter_filter, unmet]
  refine congrArg (fun rest => a :: rest.eraseDupsBy Scalar.same)
    (List.filter_congr fun b _ => ?_)
  have hcomm : Scalar.same b a = Scalar.same a b := by
    rw [Bool.eq_iff_iff, LawfulSame.same_iff, LawfulSame.same_iff, eq_comm]
  simp [hcomm, Bool.and_comm]

theorem nodup_append_unmet (h : met.Nodup) (angles : List R) :
    (met ++ unmet met angles).Nodup := by
  induction angles generalizing met with
  | nil => rwa [unmet_nil_right, List.append_nil]
  | cons a angles ih =>
    by_cases ha : a ∈ met
    · rw [unmet_cons_of_mem ha]
      exact ih h
    · rw [unmet_cons_of_notMem ha, List.append_cons]
      exact ih (List.nodup_append.mpr ⟨h, List.nodup_singleton a, by grind⟩)

/-- What a longer list adds is what its parts add, one after the other. -/
theorem unmet_append (met angles more : List R) :
    unmet met (angles ++ more) =
      unmet met angles ++ unmet (met ++ unmet met angles) more := by
  induction angles generalizing met with
  | nil =>
    rw [List.nil_append, unmet_nil_right, List.nil_append, List.append_nil]
  | cons a angles ih =>
    by_cases h : a ∈ met
    · rw [List.cons_append, unmet_cons_of_mem h, unmet_cons_of_mem h, ih]
    · rw [List.cons_append, unmet_cons_of_notMem h, unmet_cons_of_notMem h, ih,
        List.append_assoc]
      rfl

theorem nodup_firstTurns (input : List (Occurrence R)) :
    (firstTurns input).Nodup := by
  rw [firstTurns, ← unmet_nil_left]
  exact nodup_append_unmet List.nodup_nil _

end Unmet

/-! ### Searching for one angle after the other -/

/-- Whether an event says that an occurrence was replaced. -/
def Event.isExpansion : Event R → Bool
  | .expanded _ _ => true
  | _ => false

namespace Synthesizer

variable [Scalar R] [AngleSource G R]

/-- The gates that a search for a rotation about the second axis finds. -/
def turnSteps (s : Synthesizer G R) (angle : R) :
    Except SynthesisError (Decomposition R) :=
  (s.synthesize (Direction.y.rotation angle)).1.bind Synthesis.steps

/-- The searcher after searches for the rotations by the given angles, one for
each. -/
def afterTurns (s : Synthesizer G R) (angles : List R) : Synthesizer G R :=
  angles.foldl
    (fun s angle => (s.synthesize (Direction.y.rotation angle)).2.1) s

/-- What these searches report, each followed by the decomposition that it has
found. -/
def turnEvents (s : Synthesizer G R) : List R → List (Event R)
  | [] => []
  | angle :: rest =>
    (s.synthesize (Direction.y.rotation angle)).2.2 ++
      ((s.turnSteps angle).toOption.map (Event.decomposed angle)).toList ++
      turnEvents (s.afterTurns [angle]) rest

theorem afterTurns_append (s : Synthesizer G R) (angles more : List R) :
    s.afterTurns (angles ++ more) = (s.afterTurns angles).afterTurns more :=
  List.foldl_append

theorem turnEvents_append (s : Synthesizer G R) (angles more : List R) :
    s.turnEvents (angles ++ more) =
      s.turnEvents angles ++ (s.afterTurns angles).turnEvents more := by
  induction angles generalizing s with
  | nil => rfl
  | cons angle angles ih =>
    rw [List.cons_append, turnEvents, turnEvents, ih, ← afterTurns_append,
      List.append_assoc, List.append_assoc, List.append_assoc]
    rfl

/-- The searches do not report on occurrences. -/
theorem filter_turnEvents (s : Synthesizer G R) (angles : List R) :
    (s.turnEvents angles).filter (!·.isExpansion) = s.turnEvents angles := by
  rw [List.filter_eq_self]
  induction angles generalizing s with
  | nil => exact List.forall_mem_nil _
  | cons angle angles ih =>
    rw [turnEvents, List.forall_mem_append, List.forall_mem_append]
    refine ⟨⟨fun event hevent => ?_, fun event hevent => ?_⟩, ih _⟩
    · have hsearch := s.isSearch_synthesize _ event hevent
      cases event <;> first | rfl | cases hsearch
    · simp only [Option.mem_toList, Option.map_eq_some_iff] at hevent
      obtain ⟨d, -, rfl⟩ := hevent
      rfl

end Synthesizer

/-! ### One step -/

namespace Expander

variable [Scalar R] [AngleSource G R] {e e' : Expander G R} {o : Occurrence R}
  {events : List (Event R)}

/-- The expander after a search for an angle, with what was found. -/
def remember (e : Expander G R) (angle : R) (d : Decomposition R) :
    Expander G R :=
  ⟨e.table, e.searcher.afterTurns [angle], (angle, d) :: e.remembered⟩

/-- An angle is known, or it is searched for and remembered. -/
theorem decomposeTurn_cases {angle : R} {d : Decomposition R}
    (h : e.decomposeTurn angle = (.ok d, e', events)) :
    (e.known? angle = some d ∧ e' = e ∧ events = []) ∨
      (e.known? angle = none ∧ e.searcher.turnSteps angle = .ok d ∧
        e' = e.remember angle d ∧ events = e.searcher.turnEvents [angle]) := by
  rw [decomposeTurn] at h
  split at h
  · next known hknown =>
    cases h
    exact Or.inl ⟨hknown, rfl, rfl⟩
  · next hnew =>
    dsimp only at h
    split at h
    · cases h
    · next found hfound =>
      have hsteps : e.searcher.turnSteps angle = .ok found := hfound
      cases h
      refine Or.inr ⟨hnew, hsteps, rfl, ?_⟩
      rw [Synthesizer.turnEvents, hsteps, Synthesizer.turnEvents,
        List.append_nil]
      rfl

/-- Where the table has no entry for them, rotations about the second axis are
decomposed. -/
theorem expandOne_ofRotation_y (hy : e.table.find? Direction.y.label = none)
    (angle : R) (q : ℕ) :
    e.decompositionFor (.ofRotation .y angle q) = (e.decomposeTurn angle).1 ∧
      (e.expandOne (.ofRotation .y angle q)).2 = (e.decomposeTurn angle).2 := by
  have hname :
      e.table.find? (Occurrence.ofRotation .y angle q).name = none := hy
  rw [decompositionFor, expandOne, hname]
  exact ⟨rfl, rfl⟩

/-- No other occurrence changes an expander, and none is reported on before it
is replaced. -/
theorem expandOne_of_turnAngle?_eq_none (ho : o.turnAngle? = none) :
    (e.expandOne o).2 = (e, []) := by
  rw [expandOne]
  -- from the table; otherwise only a rotation about y changes the expander
  split
  · rfl
  · cases o with
    | single name q => rfl
    | controlled name c t =>
      rw [expandUnlisted]
      split <;> rfl
    | parametrized name angle q =>
      rw [expandUnlisted]
      split
      · rfl
      · rfl
      · next hlabel =>
        rw [← Direction.ofLabel?_eq_some_iff.mp hlabel] at ho
        cases ho
      · rfl

section Known

variable [LawfulSame R] (e) (angle : R) (d : Decomposition R)

theorem known?_remember_self : (e.remember angle d).known? angle = some d := by
  have hsame : Scalar.same angle angle = true := LawfulSame.same_iff.mpr rfl
  simp only [known?, remember, List.find?_cons, hsame, Option.map_some]

theorem known?_remember_of_ne {other : R} (h : other ≠ angle) :
    (e.remember angle d).known? other = e.known? other := by
  have hdiffer : Scalar.same angle other = false := by
    rw [Bool.eq_false_iff, Ne, LawfulSame.same_iff]
    exact h.symm
  simp only [known?, remember, List.find?_cons, hdiffer]

end Known

/-- What is bound for the occurrences makes up the circuit. -/
theorem mapM_bindSteps_decompositions {input : List (Occurrence R)}
    {c : Circuit R} (h : (e.expand input).1 = .ok c) :
    ((e.decompositions input).mapM fun p => bindSteps p.2 p.1).map List.flatten
      = .ok c := by
  -- induction on the occurrences, with the expander each leaves behind
  induction input generalizing e c with
  | nil =>
    obtain rfl : [] = c := Except.ok.inj h
    rfl
  | cons o input ih =>
    obtain ⟨d, piece, rest, hd, hbind, hrest, rfl⟩ := expand_cons_eq_ok h
    have hlater := ih hrest
    rcases hpieces : ((e.expandOne o).2.1.decompositions input).mapM fun p =>
      bindSteps p.2 p.1 with
      cause | pieces
    · rw [hpieces] at hlater
      cases hlater
    · rw [hpieces] at hlater
      obtain rfl := Except.ok.inj hlater
      rw [hd, List.mapM_cons, hbind, hpieces]
      rfl

/-- The state and the report of a run, from those of its first step. -/
theorem expand_cons_state {piece : Circuit R}
    (h : (e.expandOne o).1 = .ok piece) (input : List (Occurrence R)) :
    (e.expand (o :: input)).2 =
      (((e.expandOne o).2.1.expand input).2.1,
        (e.expandOne o).2.2 ++ .expanded o piece.length ::
          ((e.expandOne o).2.1.expand input).2.2) := by
  rw [expand]
  rcases hstep : e.expandOne o with ⟨result, e', events⟩
  rw [hstep] at h
  obtain rfl : result = .ok piece := h
  rfl

/-! ### What is remembered -/

/-- The expander has met the given angles, in this order: its searcher was asked
for them and nothing else, and it knows what was found for each of them. -/
structure Remembers (s : Synthesizer G R) (met : List R) (e : Expander G R) :
    Prop where
  searcher : e.searcher = s.afterTurns met
  known : ∀ {angle}, (∃ d, e.known? angle = some d) ↔ angle ∈ met
  found : ∀ {earlier angle d}, earlier ++ [angle] <+: met →
    e.known? angle = some d →
    (s.afterTurns earlier).turnSteps angle = .ok d

theorem remembers_ofTable (t : Table R) (s : Synthesizer G R) :
    Remembers s [] (ofTable t s) where
  searcher := rfl
  known := iff_of_false nofun List.not_mem_nil
  found _ := nofun

/-- What happens to an expander that has met some angles, from `e` to `e'`,
where `angles` are the angles on the way: the new ones among them are searched
for, in order, and nothing is forgotten. -/
structure Meets (s : Synthesizer G R) (met angles : List R)
    (e e' : Expander G R) (events : List (Event R)) : Prop where
  remembers : Remembers s (met ++ unmet met angles) e'
  keeps : ∀ {angle d}, e.known? angle = some d → e'.known? angle = some d
  reports : events.filter (!·.isExpansion) =
    (s.afterTurns met).turnEvents (unmet met angles)

variable {s : Synthesizer G R} {met angles : List R}

theorem Meets.refl (hrem : Remembers s met e) : Meets s met [] e e [] where
  remembers := by rwa [unmet_nil_right, List.append_nil]
  keeps := id
  reports := rfl

variable [LawfulSame R]

theorem Meets.trans {more : List R} {e'' : Expander G R}
    {later : List (Event R)} (h : Meets s met angles e e' events)
    (h' : Meets s (met ++ unmet met angles) more e' e'' later) :
    Meets s met (angles ++ more) e e'' (events ++ later) where
  remembers := by
    rw [unmet_append, ← List.append_assoc]
    exact h'.remembers
  keeps hknown := h'.keeps (h.keeps hknown)
  reports := by
    rw [List.filter_append, h.reports, h'.reports, unmet_append,
      Synthesizer.turnEvents_append, Synthesizer.afterTurns_append]

/-- An angle that is searched for comes last among those that were met. -/
theorem Remembers.remember (hrem : Remembers s met e) {angle : R}
    {d : Decomposition R} (hnew : angle ∉ met)
    (hfound : e.searcher.turnSteps angle = .ok d) :
    Remembers s (met ++ [angle]) (e.remember angle d) where
  searcher := by
    rw [Synthesizer.afterTurns_append, ← hrem.searcher]
    rfl
  known {other} := by
    by_cases h : other = angle
    · subst h
      exact iff_of_true ⟨d, e.known?_remember_self other d⟩ (by simp)
    · rw [known?_remember_of_ne e angle d h]
      simpa [h] using hrem.known
  found {earlier other d'} hbefore hknown := by
    rcases List.prefix_concat_iff.mp hbefore with hall | hbefore
    · obtain ⟨rfl, hlast⟩ := List.append_inj' hall rfl
      obtain rfl := List.singleton_injective hlast
      obtain rfl :=
        Option.some.inj ((e.known?_remember_self other d).symm.trans hknown)
      rwa [← hrem.searcher]
    · have hmet : other ∈ met := hbefore.subset (by simp)
      have hne : other ≠ angle := fun h => hnew (h ▸ hmet)
      rw [known?_remember_of_ne e angle d hne] at hknown
      exact hrem.found hbefore hknown

theorem Meets.decomposeTurn (hrem : Remembers s met e) {angle : R}
    {d : Decomposition R} (h : e.decomposeTurn angle = (.ok d, e', events)) :
    Meets s met [angle] e e' events ∧ e'.known? angle = some d := by
  rcases decomposeTurn_cases h with ⟨hknown, rfl, rfl⟩ |
      ⟨hnew, hfound, rfl, rfl⟩
  · -- remembered: nothing is searched and nothing changes
    have hmet : angle ∈ met := hrem.known.mp ⟨d, hknown⟩
    refine ⟨⟨?_, id, ?_⟩, hknown⟩
    · rwa [unmet_cons_of_mem hmet, unmet_nil_right, List.append_nil]
    · rw [unmet_cons_of_mem hmet]
      rfl
  · -- new: one more search, and one more angle remembered
    have hmet : angle ∉ met := by
      intro hmem
      obtain ⟨d', hd'⟩ := hrem.known.mpr hmem
      cases hnew.symm.trans hd'
    refine ⟨⟨?_, ?_, ?_⟩, e.known?_remember_self angle d⟩
    · rw [unmet_cons_of_notMem hmet, unmet_nil_right]
      exact hrem.remember hmet hfound
    · intro other d' hknown
      have hne : other ≠ angle := by
        rintro rfl
        cases hnew.symm.trans hknown
      rwa [known?_remember_of_ne e angle d hne]
    · rw [unmet_cons_of_notMem hmet, unmet_nil_right,
        Synthesizer.filter_turnEvents, hrem.searcher]

/-- **One step**: an occurrence adds its own angle, if it has one, and the
decomposition that is bound for it is remembered. -/
theorem Meets.expandOne (hrem : Remembers s met e)
    (hy : e.table.find? Direction.y.label = none) {d : Decomposition R}
    (hd : e.decompositionFor o = .ok d) :
    Meets s met o.turnAngle?.toList e (e.expandOne o).2.1 (e.expandOne o).2.2 ∧
      ∀ angle, o.turnAngle? = some angle →
        (e.expandOne o).2.1.known? angle = some d := by
  cases ho : o.turnAngle? with
  | none =>
    rw [expandOne_of_turnAngle?_eq_none ho]
    exact ⟨.refl hrem, nofun⟩
  | some angle =>
    obtain ⟨q, rfl⟩ := Occurrence.turnAngle?_eq_some_iff.mp ho
    obtain ⟨hdec, hstate⟩ := expandOne_ofRotation_y hy angle q
    rw [hstate]
    have hturn : e.decomposeTurn angle = (.ok d, (e.decomposeTurn angle).2) :=
      Prod.ext (hdec.symm.trans hd) rfl
    obtain ⟨hmeets, hknown⟩ := Meets.decomposeTurn hrem hturn
    refine ⟨hmeets, fun other hother => ?_⟩
    obtain rfl := Option.some.inj hother
    exact hknown

/-! ### Whole runs -/

/-- **A whole run**: what one step adds, for all the angles of the input. -/
theorem Meets.expand (hrem : Remembers s met e)
    (hy : e.table.find? Direction.y.label = none) {input : List (Occurrence R)}
    {c : Circuit R} (h : (e.expand input).1 = .ok c) :
    Meets s met (input.filterMap Occurrence.turnAngle?) e (e.expand input).2.1
        (e.expand input).2.2 ∧
      ∀ p ∈ e.decompositions input, ∀ angle, p.1.turnAngle? = some angle →
        (e.expand input).2.1.known? angle = some p.2 := by
  -- induction on the occurrences, for any angles met before
  induction input generalizing e met c with
  | nil => exact ⟨.refl hrem, nofun⟩
  | cons o input ih =>
    obtain ⟨piece, rest, hone, hrest, -⟩ := expand_cons_eq_ok_iff.mp h
    obtain ⟨d, hd, -⟩ := expandOne_eq_ok_iff.mp hone
    obtain ⟨hstep, hknown⟩ := Meets.expandOne hrem hy hd
    obtain ⟨hlater, hall⟩ := ih hstep.remembers (by rwa [table_expandOne]) hrest
    have hangles : (o :: input).filterMap Occurrence.turnAngle?
        = o.turnAngle?.toList ++ input.filterMap Occurrence.turnAngle? := by
      cases ho : o.turnAngle? <;> simp [ho]
    rw [expand_cons_state hone, hangles]
    have htrans := hstep.trans hlater
    refine ⟨⟨htrans.remembers, htrans.keeps, ?_⟩, ?_⟩
    · rw [← htrans.reports]
      simp [Event.isExpansion]
    · rw [decompositions, hd, List.forall_mem_cons]
      exact ⟨fun angle ho => hlater.keeps (hknown angle ho), hall⟩

end Expander

/-! ### Two runs -/

section Runs

variable [Scalar R] [AngleSource G R] [LawfulSame R]

/-- **The searches of an expansion** that starts with nothing remembered. -/
theorem searches_of_expand {t : Table R} {s : Synthesizer G R}
    (hy : t.find? Direction.y.label = none) {input : List (Occurrence R)}
    {c : Circuit R} (h : ((Expander.ofTable t s).expand input).1 = .ok c) :
    ((Expander.ofTable t s).expand input).2.1.searcher =
      s.afterTurns (firstTurns input) ∧
      ((Expander.ofTable t s).expand input).2.2.filter (!·.isExpansion)
        = s.turnEvents (firstTurns input) ∧
      ∀ earlier angle, earlier ++ [angle] <+: firstTurns input →
        ∃ d, (s.afterTurns earlier).turnSteps angle = .ok d ∧
          ∀ p ∈ (Expander.ofTable t s).decompositions input,
            p.1.turnAngle? = some angle → p.2 = d := by
  obtain ⟨hmeets, hall⟩ :=
    Expander.Meets.expand (Expander.remembers_ofTable t s) hy h
  have hfirst : [] ++ unmet [] (input.filterMap Occurrence.turnAngle?) =
      firstTurns input :=
    unmet_nil_left _
  have hrem := hmeets.remembers
  rw [hfirst] at hrem
  refine ⟨hrem.searcher, hmeets.reports.trans (congrArg _ hfirst),
    fun earlier angle hbefore => ?_⟩
  have hmet : angle ∈ firstTurns input :=
    hbefore.subset (List.mem_append_right earlier (List.mem_singleton.mpr rfl))
  obtain ⟨d, hd⟩ := hrem.known.mpr hmet
  refine ⟨d, hrem.found hbefore hd, fun p hp hangle => ?_⟩
  exact Option.some.inj ((hall p hp angle hangle).symm.trans hd)

/-- **A decomposition depends only on the angles met so far.**  Let the table
have no entry for rotations about the second axis.  An expansion that succeeds
searches for each of their angles once, in the order in which the angles first
stand, and searches for nothing else.  Where two inputs that are expanded have
the same first `k` angles, each of these gets one decomposition in both, at all
its occurrences. -/
theorem expand_turns_agree (t : Table R) (s : Synthesizer G R)
    (hy : t.find? Direction.y.label = none) :
    (∀ (input : List (Occurrence R)) (c : Circuit R),
      ((Expander.ofTable t s).expand input).1 = .ok c →
        (firstTurns input).Nodup ∧
        ((Expander.ofTable t s).expand input).2.1.searcher =
          s.afterTurns (firstTurns input) ∧
        ((Expander.ofTable t s).expand input).2.2.filter (!·.isExpansion)
          = s.turnEvents (firstTurns input) ∧
        ((Expander.ofTable t s).decompositions input).map Prod.fst = input ∧
        (((Expander.ofTable t s).decompositions input).mapM fun p =>
          bindSteps p.2 p.1).map List.flatten = .ok c) ∧
    ∀ (input input' : List (Occurrence R)) (c c' : Circuit R) (k : ℕ),
      ((Expander.ofTable t s).expand input).1 = .ok c →
      ((Expander.ofTable t s).expand input').1 = .ok c' →
      (firstTurns input).take k = (firstTurns input').take k →
        ∀ angle ∈ (firstTurns input).take k, ∃ d : Decomposition R,
          (∀ p ∈ (Expander.ofTable t s).decompositions input,
            p.1.turnAngle? = some angle → p.2 = d) ∧
          ∀ p ∈ (Expander.ofTable t s).decompositions input',
            p.1.turnAngle? = some angle → p.2 = d := by
  refine ⟨fun input c h => ?_,
    fun input input' c c' k h h' hk angle hangle => ?_⟩
  · obtain ⟨hsearcher, hevents, -⟩ := searches_of_expand hy h
    exact ⟨nodup_firstTurns input, hsearcher, hevents,
      Expander.map_fst_decompositions h,
      Expander.mapM_bindSteps_decompositions h⟩
  · -- the angles met before this one are the same in both runs
    obtain ⟨earlier, later, hsplit⟩ := List.append_of_mem hangle
    have hbefore : earlier ++ [angle] <+: (firstTurns input).take k :=
      ⟨later, by rw [hsplit, List.append_assoc, List.singleton_append]⟩
    have hbefore' : earlier ++ [angle] <+: (firstTurns input').take k :=
      hk ▸ hbefore
    obtain ⟨-, -, hfound⟩ := searches_of_expand hy h
    obtain ⟨-, -, hfound'⟩ := searches_of_expand hy h'
    have htake := List.take_prefix k (firstTurns input)
    have htake' := List.take_prefix k (firstTurns input')
    obtain ⟨d, hd, hall⟩ := hfound earlier angle (hbefore.trans htake)
    obtain ⟨d', hd', hall'⟩ := hfound' earlier angle (hbefore'.trans htake')
    -- both are what the search after the same searches finds
    obtain rfl := Except.ok.inj (hd.symm.trans hd')
    exact ⟨d, hall, hall'⟩

end Runs

/-! ### Runs that succeed -/

/-- A standard table has no entry for rotations. -/
theorem Table.Standard.find?_label {t : Table R} (ht : t.Standard)
    (d : Direction) :
    t.find? d.label = none := by
  rw [Option.eq_none_iff_forall_ne_some]
  intro steps hsteps
  obtain ⟨g, -, hname⟩ := (ht.names d.label).mp ⟨steps, hsteps⟩
  exact d.label_ne_name g hname.symm

namespace Expander

variable [Scalar R] [AngleSource G R] {e : Expander G R}

/-- An expander that never fails to decompose a rotation about the second axis:
its searcher finds each of them, from any state of its source, and what it
remembers acts on one qubit. -/
structure Reliable (e : Expander G R) : Prop where
  finds : ∀ (g : G) (angle : R), ∃ found,
    (({ e.searcher with source := g }).synthesize
      (Direction.y.rotation angle)).1 = .ok found
  single : ∀ p ∈ e.remembered, p.2.any Step.entangles = false

namespace Reliable

theorem findsTurn (he : e.Reliable) (angle : R) : e.FindsTurn angle := by
  -- a remembered decomposition serves as well as a new one
  cases hknown : e.known? angle with
  | none =>
    obtain ⟨found, hfound⟩ := he.finds e.searcher.source angle
    exact findsTurn_of_known?_eq_none hknown hfound
  | some d =>
    obtain ⟨p, hp, rfl⟩ := Option.map_eq_some_iff.mp hknown
    refine ⟨p.2, ?_, he.single p (List.mem_of_find?_eq_some hp)⟩
    simp only [decomposeTurn, hknown]

/-- The searcher that a new angle leaves is the same one with another source. -/
theorem remember (he : e.Reliable) {angle : R} {d : Decomposition R}
    (hd : d.any Step.entangles = false) : (e.remember angle d).Reliable where
  finds := he.finds
  single := List.forall_mem_cons.mpr ⟨hd, he.single⟩

theorem expandOne (he : e.Reliable) (ht : e.table.Standard)
    (o : Occurrence R) : (e.expandOne o).2.1.Reliable := by
  cases ho : o.turnAngle? with
  | none => rwa [expandOne_of_turnAngle?_eq_none ho]
  | some angle =>
    obtain ⟨q, rfl⟩ := Occurrence.turnAngle?_eq_some_iff.mp ho
    rw [(expandOne_ofRotation_y (ht.find?_label .y) angle q).2]
    obtain ⟨d, hd, hsingle⟩ := he.findsTurn angle
    have hturn : e.decomposeTurn angle = (.ok d, (e.decomposeTurn angle).2) :=
      Prod.ext hd rfl
    rcases decomposeTurn_cases hturn with ⟨-, hleft, -⟩ | ⟨-, -, hleft, -⟩
    · rwa [hleft]
    · rw [hleft]
      exact he.remember hsingle

end Reliable

/-- A reliable expander with a standard table accepts all circuits of known
gates on distinct qubits. -/
theorem exists_expand (he : e.Reliable) (ht : e.table.Standard)
    {input : List (Occurrence R)}
    (hinput : ∀ o ∈ input, o.qubits.Nodup ∧ o.Known) :
    ∃ c, (e.expand input).1 = .ok c := by
  -- induction on the occurrences, with the expander each leaves behind
  induction input generalizing e with
  | nil => exact ⟨[], rfl⟩
  | cons o input ih =>
    obtain ⟨⟨hnd, hknown⟩, hinput⟩ := List.forall_mem_cons.mp hinput
    obtain ⟨piece, hpiece⟩ :=
      (exists_expandOne_iff ht o).mpr ⟨hnd, Or.inl hknown,
        fun angle _ _ => he.findsTurn angle⟩
    obtain ⟨rest, hrest⟩ :=
      ih (he.expandOne ht o) (by rwa [table_expandOne]) hinput
    exact ⟨_, expand_cons_eq_ok_iff.mpr ⟨piece, rest, hpiece, hrest, rfl⟩⟩

end Expander

/-- A minimizer that takes its start for a perfect fit. -/
noncomputable def Minimizer.content : Minimizer ℝ where
  name := "content"
  minimize _ start _ := .ok ⟨start, 0, true, 0, .other "content"⟩

/-- A searcher that accepts the first angles it draws. -/
noncomputable def Synthesizer.content : Synthesizer Keystream ℝ :=
  .withMinimizers .default .content .content

theorem Synthesizer.exists_synthesize_content (g : Keystream) (angle : ℝ) :
    ∃ found,
      (({ content with source := g }).synthesize (Direction.y.rotation angle)).1
      = .ok found :=
  exists_synthesize_of_first_run (Nat.succ_ne_zero 9) (Nat.succ_ne_zero 2)
    (Nat.succ_ne_zero 49)
    (fun _ _ => rfl) rfl rfl acceptable_zero angle

/-- The same two angles among other gates, with a repeat and with one angle
more. -/
theorem expand_turns_agree_content :
    ∃ (e : Expander Keystream ℝ) (input input' : List (Occurrence ℝ))
      (c c' : Circuit ℝ),
      e = .ofTable .filled .content ∧
      input = [.single "H" 0, .parametrized "Ry" 1 0, .controlled "CNOT" 0 1,
        .parametrized "Ry" 1 1, .parametrized "Ry" 2 0] ∧
      input' =
        [.parametrized "Ry" 1 5, .parametrized "Rz" 0.5 5,
          .parametrized "Ry" 2 3, .parametrized "Ry" 7 3] ∧
      (e.expand input).1 = .ok c ∧ (e.expand input').1 = .ok c' ∧
      firstTurns input = [1, 2] ∧ firstTurns input' = [1, 2, 7] ∧
      ∃ d : Decomposition ℝ,
        (∀ p ∈ e.decompositions input, p.1.turnAngle? = some 2 → p.2 = d) ∧
        ∀ p ∈ e.decompositions input', p.1.turnAngle? = some 2 → p.2 = d := by
  let e : Expander Keystream ℝ := .ofTable .filled .content
  let input : List (Occurrence ℝ) := [.single "H" 0, .parametrized "Ry" 1 0,
    .controlled "CNOT" 0 1, .parametrized "Ry" 1 1, .parametrized "Ry" 2 0]
  let input' : List (Occurrence ℝ) := [.parametrized "Ry" 1 5,
    .parametrized "Rz" 0.5 5, .parametrized "Ry" 2 3, .parametrized "Ry" 7 3]
  -- a searcher that finds every rotation expands all known gates
  have hexpand : ∀ input : List (Occurrence ℝ),
      (∀ o ∈ input, o.qubits.Nodup ∧ o.Known) →
      ∃ c, (e.expand input).1 = .ok c := fun input hinput =>
    Expander.exists_expand
      ⟨Synthesizer.exists_synthesize_content, List.forall_mem_nil _⟩
      Table.standard_filled hinput
  obtain ⟨c, hc⟩ := hexpand input (by
    simp only [input, List.forall_mem_cons]
    exact ⟨⟨List.nodup_singleton 0, .h, rfl, rfl⟩,
      ⟨List.nodup_singleton 0, .y, rfl⟩, ⟨by decide, .cnot, rfl, rfl⟩,
      ⟨List.nodup_singleton 1, .y, rfl⟩,
      ⟨List.nodup_singleton 0, .y, rfl⟩, List.forall_mem_nil _⟩)
  obtain ⟨c', hc'⟩ := hexpand input' (by
    simp only [input', List.forall_mem_cons]
    exact ⟨⟨List.nodup_singleton 5, .y, rfl⟩, ⟨List.nodup_singleton 5, .z, rfl⟩,
      ⟨List.nodup_singleton 3, .y, rfl⟩, ⟨List.nodup_singleton 3, .y, rfl⟩,
      List.forall_mem_nil _⟩)
  have hsame : ∀ a b : ℝ, Scalar.same a b = decide (a = b) := fun _ _ => rfl
  have hturns : firstTurns input = [1, 2] := by
    rw [firstTurns,
      show input.filterMap Occurrence.turnAngle? = [1, 1, 2] from rfl]
    norm_num [List.eraseDupsBy_cons, hsame]
  have hturns' : firstTurns input' = [1, 2, 7] := by
    rw [firstTurns,
      show input'.filterMap Occurrence.turnAngle? = [1, 2, 7] from rfl]
    norm_num [List.eraseDupsBy_cons, hsame]
  refine ⟨e, input, input', c, c', rfl, rfl, rfl, hc, hc', hturns, hturns', ?_⟩
  refine (expand_turns_agree _ _ (Table.standard_filled.find?_label .y)).2
    input input' c c' 2 hc hc' ?_ 2 ?_
  · rw [hturns, hturns']
    rfl
  · rw [hturns]
    exact List.mem_cons_of_mem _ (List.mem_singleton.mpr rfl)

end Gimbal
