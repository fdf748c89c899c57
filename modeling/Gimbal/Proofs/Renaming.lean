/-
Gimbal/Proofs/Renaming.lean

Compilation does not look at the numbers of qubits, only at which of them are
equal.  An injective renaming keeps that, so it can be done before a compilation
or after it:

    compile (rename p input) = rename p (compile input)        (`compile_rename`).

The rules recognize their redexes by comparing qubits, each rule and each pass
therefore commutes with the renaming, and since a pass has the same lengths
before and after it, the passes of the two reductions stop together.  Expansion
binds the same decompositions, for it looks them up by name and by angle; so the
searches are the same ones, and the searchers end in the same state.  What is
left of the qubits in an account of an error or in a report of an event is
renamed as well.
-/
import Mathlib
import Gimbal.Proofs.Binding
import Gimbal.Proofs.SynthesisOutcome
import Gimbal.Compile

namespace Gimbal

variable {G R : Type} {p : ℕ → ℕ}

/-! ### Redexes -/

theorem meetsCz_rename (hp : Function.Injective p) (a b : Entry R) :
    meetsCz (a.rename p) (b.rename p) = meetsCz a b := by
  cases a with
  | cz => rfl
  | rotation axis angle q =>
    cases axis with
    | x => rfl
    | z => cases b <;> simp [meetsCz, Entry.rename, hp.beq_eq]

theorem cancels_rename (hp : Function.Injective p) (a b : Entry R) :
    cancels (a.rename p) (b.rename p) = cancels a b := by
  cases a <;> cases b <;> simp [cancels, Entry.rename, hp.beq_eq]

section Rules

variable [Scalar R]

theorem isIdentity_rename (p : ℕ → ℕ) (e : Entry R) :
    (e.rename p).isIdentity = e.isIdentity := by
  cases e <;> rfl

theorem fuse?_rename (hp : Function.Injective p) (a b : Entry R) :
    (a.rename p).fuse? (b.rename p) = (a.fuse? b).map (Entry.rename p) := by
  cases a with
  | cz => rfl
  | rotation axis x q =>
    cases b with
    | cz => rfl
    | rotation axis' y q' =>
      simp only [Entry.rename, Entry.fuse?, hp.eq_iff]
      split <;> rfl

end Rules

/-! ### Rules -/

theorem sweepFrom_rename (hp : Function.Injective p) (first : Entry R)
    (rest : Circuit R) :
    sweepFrom (first.rename p) (rest.map (Entry.rename p))
      = (sweepFrom first rest).map (Entry.rename p) := by
  induction rest generalizing first with
  | nil => rfl
  | cons next rest ih =>
    simp only [List.map_cons, sweepFrom, meetsCz_rename hp]
    split
    · rw [ih, List.map_cons]
    · rw [ih, List.map_cons]

theorem sweep_rename (hp : Function.Injective p) (c : Circuit R) :
    sweep (c.map (Entry.rename p)) = (sweep c).map (Entry.rename p) := by
  cases c with
  | nil => rfl
  | cons first rest => exact sweepFrom_rename hp first rest

theorem hasMeeting_rename (hp : Function.Injective p) (c : Circuit R) :
    hasMeeting (c.map (Entry.rename p)) = hasMeeting c := by
  fun_induction hasMeeting c with
  | case1 first next rest ih =>
    rw [List.map_cons] at ih
    rw [List.map_cons, List.map_cons, hasMeeting, meetsCz_rename hp, ih]
  | case2 c h =>
    -- a shorter circuit has no neighbours
    rcases c with _ | ⟨first, _ | ⟨next, rest⟩⟩
    · rfl
    · rfl
    · exact absurd rfl (h first next rest)

theorem commuteThroughCz_rename (hp : Function.Injective p) (c : Circuit R) :
    commuteThroughCz (c.map (Entry.rename p)) =
      (commuteThroughCz c).map (Entry.rename p) := by
  -- both circuits have a meeting or none, so the walks end together
  fun_induction commuteThroughCz c with
  | case1 c h ih =>
    rw [commuteThroughCz, hasMeeting_rename hp, if_pos h, sweep_rename hp, ih]
  | case2 c h => rw [commuteThroughCz, hasMeeting_rename hp, if_neg h]

theorem cancelOnto_rename (hp : Function.Injective p) (e : Entry R)
    (c : Circuit R) :
    cancelOnto (e.rename p) (c.map (Entry.rename p)) =
      (cancelOnto e c).map (Entry.rename p) := by
  cases c with
  | nil => rfl
  | cons next rest =>
    simp only [List.map_cons, cancelOnto, cancels_rename hp]
    split <;> rfl

theorem cancelCzPairs_rename (hp : Function.Injective p) (c : Circuit R) :
    cancelCzPairs (c.map (Entry.rename p)) =
      (cancelCzPairs c).map (Entry.rename p) := by
  induction c with
  | nil => rfl
  | cons e c ih =>
    rw [List.map_cons, cancelCzPairs_cons, ih, cancelOnto_rename hp,
      cancelCzPairs_cons]

section Reduction

variable [Scalar R]

theorem removeIdentities_rename (p : ℕ → ℕ) (c : Circuit R) :
    removeIdentities (c.map (Entry.rename p)) =
      (removeIdentities c).map (Entry.rename p) := by
  rw [removeIdentities, removeIdentities, List.filter_map]
  refine congrArg _ (List.filter_congr fun e _ => ?_)
  rw [Function.comp_apply, isIdentity_rename]

theorem mergeFrom_rename (hp : Function.Injective p) (first : Entry R)
    (rest : Circuit R) :
    mergeFrom (first.rename p) (rest.map (Entry.rename p))
      = (mergeFrom first rest).map (Entry.rename p) := by
  fun_induction mergeFrom first rest with
  | case1 first => rfl
  | case2 first next rest e hfuse ih =>
    rw [List.map_cons, mergeFrom, fuse?_rename hp, hfuse]
    exact ih
  | case3 first next rest hfuse ih =>
    rw [List.map_cons, mergeFrom, fuse?_rename hp, hfuse]
    exact congrArg _ ih

theorem mergeRotations_rename (hp : Function.Injective p) (c : Circuit R) :
    mergeRotations (c.map (Entry.rename p)) =
      (mergeRotations c).map (Entry.rename p) := by
  cases c with
  | nil => rfl
  | cons first rest => exact mergeFrom_rename hp first rest

/-! ### Reduction -/

omit [Scalar R] in
theorem applyIf_rename {f : Circuit R → Circuit R}
    (hf : ∀ c, f (c.map (Entry.rename p)) = (f c).map (Entry.rename p))
    (rules : List Rule) (rule : Rule) (c : Circuit R) :
    applyIf rules rule f (c.map (Entry.rename p))
      = (applyIf rules rule f c).map (Entry.rename p) := by
  rw [applyIf, applyIf]
  split
  · exact hf c
  · rfl

theorem pass_rename (hp : Function.Injective p) (rules : List Rule)
    (c : Circuit R) :
    pass rules (c.map (Entry.rename p)) =
      (pass rules c).map (Entry.rename p) := by
  rw [pass, applyIf_rename (removeIdentities_rename p),
    applyIf_rename (commuteThroughCz_rename hp),
    applyIf_rename (mergeRotations_rename hp),
    applyIf_rename (cancelCzPairs_rename hp), pass]

theorem reduce_rename (hp : Function.Injective p) (rules : List Rule)
    (c : Circuit R) :
    reduce rules (c.map (Entry.rename p)) =
      (reduce rules c).map (Entry.rename p) := by
  -- a renamed pass has the same lengths, so the passes go on and end together
  fun_induction reduce rules c with
  | case1 c next h ih =>
    rw [reduce, pass_rename hp, List.length_map, List.length_map, if_pos h]
    exact ih
  | case2 c next h =>
    rw [reduce, pass_rename hp, List.length_map, List.length_map, if_neg h]

theorem passLengths_rename (hp : Function.Injective p) (rules : List Rule)
    (c : Circuit R) :
    passLengths rules (c.map (Entry.rename p)) = passLengths rules c := by
  fun_induction passLengths rules c with
  | case1 c next ih =>
    rw [passLengths, pass_rename hp, List.length_map, List.length_map]
    refine congrArg _ ?_
    split
    · next h => exact ih h
    · rfl

end Reduction

/-! ### Binding -/

namespace Occurrence

@[simp] theorem name_rename (p : ℕ → ℕ) (o : Occurrence R) :
    (o.rename p).name = o.name := by
  cases o <;> rfl

end Occurrence

/-- Renames the qubits in the account of an error: only an occurrence has
any. -/
def CompileError.rename (p : ℕ → ℕ) : CompileError R → CompileError R
  | .arityMismatch name o => .arityMismatch name (o.rename p)
  | e => e

/-- Renames the qubits in the report of an event: only an occurrence has any. -/
def Event.rename (p : ℕ → ℕ) : Event R → Event R
  | .expanded o n => .expanded (o.rename p) n
  | e => e

/-- Renames the qubits of a circuit, or those in the account of an error. -/
def renameOutcome (p : ℕ → ℕ) :
    Except (CompileError R) (Circuit R) → Except (CompileError R) (Circuit R)
  | .ok c => .ok (c.map (Entry.rename p))
  | .error cause => .error (cause.rename p)

theorem map_bindControlled_rename (p : ℕ → ℕ) (c t : ℕ) (d : Decomposition R) :
    d.map (Step.bindControlled (p c) (p t))
      = (d.map (Step.bindControlled c t)).map (Entry.rename p) := by
  rw [List.map_map]
  exact List.map_congr_left fun s _ => (Step.rename_bindControlled p c t s).symm

theorem bindSteps_rename (hp : Function.Injective p) (d : Decomposition R)
    (o : Occurrence R) :
    bindSteps d (o.rename p) = renameOutcome p (bindSteps d o) := by
  cases o with
  | controlled name c t =>
    simp only [Occurrence.rename, bindSteps, hp.eq_iff,
      map_bindControlled_rename]
    split <;> rfl
  | single name q | parametrized name angle q =>
    simp only [Occurrence.rename, bindSteps, Step.mapM_bindSingle?,
      map_bindControlled_rename]
    cases d.any Step.entangles <;> rfl

/-! ### Expansion -/

theorem rename_of_isSearch (p : ℕ → ℕ) {event : Event R}
    (h : event.isSearch = true) :
    event.rename p = event := by
  cases event <;> first | rfl | cases h

/-- Renames the qubits in all that a run of the expander or of the compiler
shows; the state that it leaves has none. -/
def renameRun {S : Type} (p : ℕ → ℕ)
    (r : Except (CompileError R) (Circuit R) × S × List (Event R)) :
    Except (CompileError R) (Circuit R) × S × List (Event R) :=
  (renameOutcome p r.1, r.2.1, r.2.2.map (Event.rename p))

namespace Expander

variable [Scalar R] [AngleSource G R]

/-- Neither the decomposition of a rotation about the second axis nor what is
reported of it has any qubits. -/
theorem rename_decomposeTurn (p : ℕ → ℕ) (e : Expander G R) (angle : R) :
    (∀ cause, (e.decomposeTurn angle).1 = .error cause → cause.rename p = cause) ∧
      (e.decomposeTurn angle).2.2.map (Event.rename p) =
        (e.decomposeTurn angle).2.2 := by
  -- the events of a search name no qubits
  have hsearch :
      (e.searcher.synthesize (SourceGate.rotation .y angle).matrix).2.2.map
      (Event.rename p) =
        (e.searcher.synthesize (SourceGate.rotation .y angle).matrix).2.2 := by
    refine (List.map_congr_left fun event hevent => ?_).trans (List.map_id' _)
    exact rename_of_isSearch p
      (Synthesizer.isSearch_synthesize _ _ event hevent)
  rw [decomposeTurn]
  split
  · exact ⟨nofun, rfl⟩
  · dsimp only
    split
    · refine ⟨fun cause h => ?_, hsearch⟩
      cases h
      rfl
    · refine ⟨nofun, ?_⟩
      rw [List.map_append, hsearch]
      rfl

theorem expandUnlisted_rename (hp : Function.Injective p) (e : Expander G R)
    (o : Occurrence R) :
    e.expandUnlisted (o.rename p) = renameRun p (e.expandUnlisted o) := by
  cases o with
  | single name q => rfl
  | controlled name c t =>
    simp only [Occurrence.rename, expandUnlisted, hp.eq_iff]
    -- the phase flip only asks whether the qubits coincide, which a renaming
    -- keeps
    split
    · by_cases hct : c = t <;> simp only [hct, if_true, if_false] <;> rfl
    · rfl
  | parametrized name angle q =>
    simp only [Occurrence.rename, expandUnlisted]
    split
    · rfl
    · rfl
    · obtain ⟨herror, hevents⟩ := e.rename_decomposeTurn p angle
      -- a search for the rotation about y does not depend on the qubit
      have hbind : ((e.decomposeTurn angle).1.bind fun d =>
            bindSteps d (.parametrized name angle (p q)))
          = renameOutcome p ((e.decomposeTurn angle).1.bind fun d =>
            bindSteps d (.parametrized name angle q)) := by
        rcases hd : (e.decomposeTurn angle).1 with cause | d
        · exact congrArg Except.error (herror cause hd).symm
        · exact bindSteps_rename hp d (.parametrized name angle q)
      rw [hbind, renameRun, hevents]
    · rfl

theorem expandOne_rename (hp : Function.Injective p) (e : Expander G R)
    (o : Occurrence R) :
    e.expandOne (o.rename p) = renameRun p (e.expandOne o) := by
  rw [expandOne, expandOne, Occurrence.name_rename]
  cases e.table.find? o.name with
  | none => exact e.expandUnlisted_rename hp o
  | some d =>
    show (bindSteps d (o.rename p), e, []) =
      (renameOutcome p (bindSteps d o), e, [])
    rw [bindSteps_rename hp]

/-- The expander goes through the same states. -/
theorem expand_rename (hp : Function.Injective p) (e : Expander G R)
    (input : List (Occurrence R)) :
    e.expand (input.map (Occurrence.rename p)) =
      renameRun p (e.expand input) := by
  -- induction on the occurrences, for whatever the expander remembers
  induction input generalizing e with
  | nil => rfl
  | cons o input ih =>
    rw [List.map_cons, expand, expand, expandOne_rename hp]
    rcases e.expandOne o with ⟨cause | piece, e', events⟩
    · rfl
    · simp only [renameRun, renameOutcome, ih]
      rcases e'.expand input with ⟨cause | rest, e'', more⟩ <;>
        simp [Except.map, Event.rename]

end Expander

/-! ### Compilation -/

section Compilation

variable [Scalar R] [AngleSource G R]

theorem reductionEvents_rename (hp : Function.Injective p) (rules : List Rule)
    (c : Circuit R) :
    reductionEvents rules (c.map (Entry.rename p))
      = (reductionEvents rules c).map (Event.rename p) := by
  rw [reductionEvents, reductionEvents, passLengths_rename hp, List.map_map]
  rfl

/-- **Compilation is equivariant**: with the qubits of the input renamed, by any
injective map, it succeeds or fails as before, with the same circuit on the
renamed qubits or the same error, it leaves the searcher in the same state, and
it reports the same events. -/
theorem compile_rename (hp : Function.Injective p) (input : List (Occurrence R))
    (table : Table R) (searcher : Synthesizer G R) :
    compile (input.map (Occurrence.rename p)) table searcher
      = (renameOutcome p (compile input table searcher).1,
        (compile input table searcher).2.1,
          (compile input table searcher).2.2.map (Event.rename p)) := by
  rw [compile, compile, Expander.expand_rename hp]
  rcases (Expander.ofTable table searcher).expand input with
      ⟨cause | expanded, e, events⟩
  · rfl
  · simp [renameRun, renameOutcome, reduce_rename hp, reductionEvents_rename hp,
      Event.rename]

end Compilation

/-- Two qubits change places: in a circuit, and in the account of an error. -/
theorem compile_rename_exchanged :
    ∃ (searcher : Synthesizer Keystream ℝ) (c : Circuit ℝ),
      (compile [.controlled "CNOT" 0 1, .parametrized "Rz" 0.5 0] .withDefaults
        searcher).1 = .ok c ∧
      (compile [.controlled "CNOT" 1 0, .parametrized "Rz" 0.5 1] .withDefaults
        searcher).1
        = .ok (c.map (Entry.rename (Equiv.swap 0 1))) ∧
      (compile [.single "CNOT" 1] .withDefaults searcher).1
        = .error (.arityMismatch "CNOT" (.single "CNOT" 1)) := by
  let searcher : Synthesizer Keystream ℝ := .ofConfig .default
  have hswap : Function.Injective (Equiv.swap 0 1 : ℕ → ℕ) := Equiv.injective _
  refine ⟨searcher, _, rfl, ?_, ?_⟩
  · exact congrArg Prod.fst (compile_rename hswap
      [.controlled "CNOT" 0 1, .parametrized "Rz" 0.5 0] .withDefaults searcher)
  · exact congrArg Prod.fst
      (compile_rename hswap [.single "CNOT" 0] .withDefaults searcher)

end Gimbal
