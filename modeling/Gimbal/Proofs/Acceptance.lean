/-
Gimbal/Proofs/Acceptance.lean

Which occurrences are expanded, with a standard table: those of known gates, on
distinct qubits, and one kind more,

    expand [o] succeeds   iff   o.qubits are distinct, and o has a matrix or is `AngledFixed`.

A table is asked for names only, so a fixed gate on one qubit that is given an
angle gets the entry of its name and the angle is ignored.  Such an occurrence
has no matrix (`expand_angled_hadamard`), and an input circuit that compiles has
a unitary to be compared with exactly if it holds none of them.

`Expander.exists_expandOne_iff` is the statement for one step of any expander.
It leaves open whether a rotation about the second axis can be decomposed, since
that depends on the searcher.
-/
import Mathlib
import Gimbal.Proofs.Population
import Gimbal.Proofs.Containment

namespace Gimbal

variable {G R : Type}

/-! ### Names -/

theorem FixedGate.ofName?_eq_some_iff {name : String} {g : FixedGate} :
    ofName? name = some g ↔ g.name = name := by
  constructor
  · intro h
    have hname := List.find?_some h
    exact eq_of_beq hname
  · rintro rfl
    exact ofName?_name g

theorem Direction.ofLabel?_eq_some_iff {name : String} {d : Direction} :
    ofLabel? name = some d ↔ d.label = name := by
  constructor
  · intro h
    have hname := List.find?_some h
    exact eq_of_beq hname
  · rintro rfl
    cases d <;> rfl

theorem Direction.label_ne_name (d : Direction) (g : FixedGate) :
    d.label ≠ g.name := by
  cases d <;> cases g <;> decide

theorem FixedGate.mem_of_ne_cz {g : FixedGate} (h : g ≠ .cz) :
    g ∈ .cnot :: singleQubit := by
  revert h
  cases g <;> decide

theorem FixedGate.mem_singleQubit_of_arity {g : FixedGate} (h : g.arity = 1) :
    g ∈ singleQubit := by
  revert h
  cases g <;> decide

/-! ### Occurrences of known gates -/

namespace Occurrence

/-- The gate of an occurrence is known by its name, and has as many qubits. -/
def Known : Occurrence R → Prop
  | .single name _ => ∃ g : FixedGate, g.name = name ∧ g.arity = 1
  | .controlled name _ _ => ∃ g : FixedGate, g.name = name ∧ g.arity = 2
  | .parametrized name _ _ => ∃ d : Direction, d.label = name

/-- A fixed gate on one qubit that is given an angle. -/
def AngledFixed : Occurrence R → Prop
  | .parametrized name _ _ => ∃ g ∈ FixedGate.singleQubit, g.name = name
  | _ => False

theorem exists_matrix?_iff [Scalar R] {o : Occurrence R} :
    (∃ m, o.matrix? = some m) ↔ o.Known := by
  have hfixed : ∀ (name : String) (k : ℕ),
      (∃ m : Mat (Amplitude R),
        ((FixedGate.ofName? name).filter fun g => g.arity == k).map
        FixedGate.matrix = some m) ↔
        ∃ g : FixedGate, g.name = name ∧ g.arity = k := by
    intro name k
    simp only [Option.map_eq_some_iff, Option.filter_eq_some_iff,
      FixedGate.ofName?_eq_some_iff, beq_iff_eq]
    constructor
    · rintro ⟨-, g, hg, -⟩
      exact ⟨g, hg⟩
    · rintro ⟨g, hg⟩
      exact ⟨_, g, hg, rfl⟩
  cases o with
  | single name q => exact hfixed name 1
  | controlled name c t => exact hfixed name 2
  | parametrized name angle q =>
    simp only [matrix?, Option.map_eq_some_iff,
      Direction.ofLabel?_eq_some_iff, Known]
    constructor
    · rintro ⟨-, d, hd, -⟩
      exact ⟨d, hd⟩
    · rintro ⟨d, hd⟩
      exact ⟨_, d, hd, rfl⟩

/-- The name of a fixed gate with an angle is not that of a rotation. -/
theorem AngledFixed.not_known {o : Occurrence R} (h : o.AngledFixed) :
    ¬ o.Known := by
  cases o with
  | single name q => exact h.elim
  | controlled name c t => exact h.elim
  | parametrized name angle q =>
    obtain ⟨g, -, rfl⟩ := h
    rintro ⟨d, hd⟩
    exact d.label_ne_name g hd

/-- An occurrence of the name of a listed gate is in order if it has as many
qubits, with or without an angle. -/
theorem known_or_angled_iff {o : Occurrence R} {g : FixedGate}
    (hname : g.name = o.name) :
    o.Known ∨ o.AngledFixed ↔ (g.arity = 2 ↔ o.qubits.length = 2) := by
  -- no other gate has this name, so its arity decides
  have hfixed : ∀ k, (∃ f : FixedGate, f.name = o.name ∧ f.arity = k) ↔
      g.arity = k := by
    intro k
    rw [← hname]
    constructor
    · rintro ⟨f, hf, rfl⟩
      rw [FixedGate.name_injective hf]
    · intro hk
      exact ⟨g, rfl, hk⟩
  have hcases : g.arity = 1 ∨ g.arity = 2 := by
    cases g <;> simp [FixedGate.arity]
  cases o with
  | single name q =>
    show (_ ∨ False) ↔ (_ ↔ 1 = 2)
    rw [or_false]
    refine (hfixed 1).trans ?_
    omega
  | controlled name c t =>
    show (_ ∨ False) ↔ (_ ↔ 2 = 2)
    rw [or_false]
    refine (hfixed 2).trans ?_
    omega
  | parametrized name angle q =>
    -- a gate in the table is no rotation, so an angle makes it an angled one
    have hknown : ¬ (parametrized name angle q : Occurrence R).Known := by
      rintro ⟨d, hd⟩
      exact d.label_ne_name g (hd.trans hname.symm)
    have hangled : (parametrized name angle q : Occurrence R).AngledFixed ↔
        g.arity = 1 := by
      rw [← hfixed 1]
      constructor
      · rintro ⟨f, hf, hfname⟩
        exact ⟨f, hfname, FixedGate.arity_of_mem_singleQubit hf⟩
      · rintro ⟨f, hfname, hone⟩
        exact ⟨f, FixedGate.mem_singleQubit_of_arity hone, hfname⟩
    rw [or_iff_right hknown, hangled]
    show _ ↔ (_ ↔ 1 = 2)
    omega

end Occurrence

/-! ### One step -/

theorem exists_bindSteps_iff {d : Decomposition R} {o : Occurrence R} :
    (∃ piece, bindSteps d o = .ok piece) ↔
      o.qubits.Nodup ∧ (d.any Step.entangles ↔ o.qubits.length = 2) := by
  rw [bindSteps_eq]
  split
  · next h => exact iff_of_true ⟨_, rfl⟩ h
  · next h => exact iff_of_false (by simp) h

variable [Scalar R] [AngleSource G R]

namespace Expander

/-- The searcher finds a rotation about the second axis, without joining
qubits. -/
def FindsTurn (e : Expander G R) (angle : R) : Prop :=
  ∃ d, (e.decomposeTurn angle).1 = .ok d ∧ d.any Step.entangles = false

/-- Rotations stand for themselves or are searched for. -/
theorem exists_rotation_iff {e : Expander G R} {dir : Direction} {angle : R}
    {q : ℕ} :
    (∃ d, e.unlistedDecomposition (.ofRotation dir angle q) = .ok d ∧
        d.any Step.entangles = false) ↔ (dir = .y → e.FindsTurn angle) := by
  cases dir with
  | x => exact iff_of_true ⟨[.rx angle], rfl, rfl⟩ fun h => by cases h
  | z => exact iff_of_true ⟨[.rz angle], rfl, rfl⟩ fun h => by cases h
  | y =>
    constructor
    · intro h _
      exact h
    · intro h
      exact h rfl

/-- An occurrence that the table has no entry for is accepted: there is a
decomposition, and it fits the qubits. -/
abbrev AcceptsUnlisted (e : Expander G R) (o : Occurrence R) : Prop :=
  ∃ d, e.unlistedDecomposition o = .ok d ∧ o.qubits.Nodup ∧
    (d.any Step.entangles ↔ o.qubits.length = 2)

/-- An occurrence is in order: distinct qubits, a name with as many of them, and
a turn that is found. -/
abbrev InOrder (e : Expander G R) (o : Occurrence R) : Prop :=
  o.qubits.Nodup ∧ (o.Known ∨ o.AngledFixed) ∧
    ∀ angle q, o = .ofRotation .y angle q → e.FindsTurn angle

section Unlisted

variable {e : Expander G R} {name : String} {angle : R} {q c t : ℕ}

/-- Every fixed gate on one qubit is listed. -/
theorem acceptsUnlisted_single_iff
    (hcz : ∀ g : FixedGate, g.name = name → g = .cz) :
    e.AcceptsUnlisted (.single name q) ↔ e.InOrder (.single name q) := by
  apply iff_of_false
  · rintro ⟨d, hd, -⟩
    cases hd
  · rintro ⟨-, ⟨g, hg, harity⟩ | hangled, -⟩
    · rw [hcz g hg] at harity
      cases harity
    · exact hangled

/-- Of the fixed gates on two qubits only the phase flip is not listed. -/
theorem acceptsUnlisted_controlled_iff
    (hcz : ∀ g : FixedGate, g.name = name → g = .cz) :
    e.AcceptsUnlisted (.controlled name c t) ↔
      e.InOrder (.controlled name c t) := by
  -- only the phase flip has a decomposition of its own
  by_cases h : name = FixedGate.cz.name
  · subst h
    have hdec : e.unlistedDecomposition (.controlled FixedGate.cz.name c t) =
      .ok [.cz] := rfl
    constructor
    · rintro ⟨d, -, hnd, -⟩
      exact ⟨hnd, Or.inl ⟨.cz, rfl, rfl⟩, fun angle q h => by cases h⟩
    · rintro ⟨hnd, -, -⟩
      exact ⟨_, hdec, hnd, iff_of_true rfl rfl⟩
  · apply iff_of_false
    · rintro ⟨d, hd, -⟩
      rw [unlistedDecomposition, if_neg h] at hd
      cases hd
    · rintro ⟨-, ⟨g, hg, -⟩ | hangled, -⟩
      · rw [hcz g hg] at hg
        exact h hg.symm
      · exact hangled

/-- An angle needs the name of a rotation, or of a gate that is listed. -/
theorem acceptsUnlisted_parametrized_iff
    (hname : ∀ d : Direction, d.label ≠ name)
    (hlisted : ∀ g ∈ FixedGate.singleQubit, g.name ≠ name) :
    e.AcceptsUnlisted (.parametrized name angle q) ↔
      e.InOrder (.parametrized name angle q) := by
  have hlabel : Direction.ofLabel? name = none := by
    rw [Option.eq_none_iff_forall_ne_some]
    intro d hd
    exact hname d (Direction.ofLabel?_eq_some_iff.mp hd)
  -- without a label there is nothing to search for
  apply iff_of_false
  · rintro ⟨d, hd, -⟩
    rw [unlistedDecomposition, hlabel] at hd
    cases hd
  · rintro ⟨-, ⟨d, hd⟩ | ⟨g, hg, hgname⟩, -⟩
    · exact hname d hd
    · exact hlisted g hg hgname

/-- A rotation is accepted, unless its turn is not found. -/
theorem acceptsUnlisted_rotation_iff {dir : Direction} :
    e.AcceptsUnlisted (.ofRotation dir angle q) ↔
      e.InOrder (.ofRotation dir angle q) := by
  have hnd : (Occurrence.ofRotation dir angle q).qubits.Nodup :=
    List.nodup_singleton q
  have hjoin : ∀ d : Decomposition R, (d.any Step.entangles ↔
      (Occurrence.ofRotation dir angle q).qubits.length = 2) ↔
        d.any Step.entangles = false := by
    intro d
    show (_ ↔ 1 = 2) ↔ _
    simp
  constructor
  · rintro ⟨d, hd, -, hd'⟩
    refine ⟨hnd, Or.inl ⟨dir, rfl⟩, fun angle' q' h => ?_⟩
    -- the labels differ, so the direction is read off the occurrence
    obtain ⟨hlabel, rfl, -⟩ := Occurrence.parametrized.inj h
    have hdir : Direction.ofLabel? dir.label = some .y :=
      Direction.ofLabel?_eq_some_iff.mpr hlabel.symm
    rw [Direction.ofLabel?_eq_some_iff.mpr rfl] at hdir
    exact exists_rotation_iff.mp ⟨d, hd, (hjoin d).mp hd'⟩
      (Option.some.inj hdir)
  · rintro ⟨-, -, hturn⟩
    obtain ⟨d, hd, hd'⟩ := exists_rotation_iff.mpr fun hy =>
      hturn angle q (hy ▸ rfl)
    exact ⟨d, hd, hnd, (hjoin d).mpr hd'⟩

end Unlisted

/-- Of the gates that are not listed, the rotations and the phase flip are
accepted. -/
theorem acceptsUnlisted_iff {e : Expander G R} {o : Occurrence R}
    (hname : ∀ g ∈ FixedGate.cnot :: FixedGate.singleQubit, g.name ≠ o.name) :
    e.AcceptsUnlisted o ↔ e.InOrder o := by
  have hcz : ∀ g : FixedGate, g.name = o.name → g = .cz := by
    intro g hg
    by_contra hne
    exact hname g (FixedGate.mem_of_ne_cz hne) hg
  cases o with
  | single name q => exact acceptsUnlisted_single_iff hcz
  | controlled name c t => exact acceptsUnlisted_controlled_iff hcz
  | parametrized name angle q =>
    by_cases hlabel : ∃ d : Direction, d.label = name
    · obtain ⟨dir, rfl⟩ := hlabel
      exact acceptsUnlisted_rotation_iff
    · exact acceptsUnlisted_parametrized_iff (not_exists.mp hlabel)
        fun g hg => hname g (List.mem_cons_of_mem _ hg)

/-- **What an expander with a standard table accepts.** -/
theorem exists_expandOne_iff {e : Expander G R} (ht : e.table.Standard)
    (o : Occurrence R) :
    (∃ piece, (e.expandOne o).1 = .ok piece) ↔
      o.qubits.Nodup ∧ (o.Known ∨ o.AngledFixed) ∧
        ∀ angle q, o = .ofRotation .y angle q → e.FindsTurn angle := by
  have hsplit : (∃ piece, (e.expandOne o).1 = .ok piece) ↔
      ∃ d, e.decompositionFor o = .ok d ∧ o.qubits.Nodup ∧
        (d.any Step.entangles ↔ o.qubits.length = 2) := by
    simp only [expandOne_eq_ok_iff, ← exists_bindSteps_iff]
    tauto
  rw [hsplit, decompositionFor]
  -- listed names go by their entries, the others as if there were no table
  cases hfind : e.table.find? o.name with
  | some d =>
    obtain ⟨g, -, hname⟩ := (ht.names o.name).mp ⟨d, hfind⟩
    have hjoins := ht.joins (hname ▸ hfind)
    -- an entry and its gate agree on the number of qubits, and binding asks for
    -- no more
    rw [Occurrence.known_or_angled_iff hname, ← hjoins]
    constructor
    · rintro ⟨d', hd, hnd, hlen⟩
      obtain rfl := Except.ok.inj hd
      refine ⟨hnd, hlen, ?_⟩
      rintro angle q rfl
      exact absurd hname.symm (Direction.y.label_ne_name g)
    · rintro ⟨hnd, hlen, -⟩
      exact ⟨d, rfl, hnd, hlen⟩
  | none =>
    apply acceptsUnlisted_iff
    intro g hg hname
    obtain ⟨d, hd⟩ := (ht.names o.name).mpr ⟨g, hg, hname⟩
    rw [hfind] at hd
    cases hd

/-- For an angle that it does not know, an expander finds what its searcher
finds. -/
theorem findsTurn_of_known?_eq_none {e : Expander G R} {angle : R}
    {s : Synthesis R} (hnew : e.known? angle = none)
    (h : (e.searcher.synthesize (Direction.y.rotation angle)).1 = .ok s) :
    e.FindsTurn angle := by
  obtain ⟨d, hd, hjoins⟩ := Synthesizer.exists_steps_of_synthesize h
  have hfound : (e.decomposeTurn angle).1 = .ok d := by
    -- the search is the one that expanding would make
    have hbind :
        ((e.searcher.synthesize (Direction.y.rotation angle)).1.bind
          Synthesis.steps) =
        .ok d := by
      rw [h]
      exact hd
    simp only [decomposeTurn, hnew]
    split
    · next cause hcause => cases hbind.symm.trans hcause
    · next d' hd' =>
      obtain rfl := Except.ok.inj (hd'.symm.trans hbind)
      rfl
  refine ⟨d, hfound, ?_⟩
  rw [Bool.eq_false_iff, Ne, hjoins]
  exact fun hshape => by cases hshape

/-- An expander that has met no angle finds what its searcher finds. -/
theorem findsTurn_ofTable {t : Table R} {searcher : Synthesizer G R} {angle : R}
    {s : Synthesis R}
    (h : (searcher.synthesize (Direction.y.rotation angle)).1 = .ok s) :
    (ofTable t searcher).FindsTurn angle :=
  findsTurn_of_known?_eq_none rfl h

theorem table_expandOne (e : Expander G R) (o : Occurrence R) :
    (e.expandOne o).2.1.table = e.table := by
  -- only remembering an angle changes the expander
  have hturn : ∀ angle, (e.decomposeTurn angle).2.1.table = e.table := by
    intro angle
    simp only [decomposeTurn]
    split
    · rfl
    · split <;> rfl
  rw [expandOne]
  split
  · rfl
  · cases o with
    | single name q => rfl
    | controlled name c t =>
      simp only [expandUnlisted]
      split <;> rfl
    | parametrized name angle q =>
      simp only [expandUnlisted]
      split
      · rfl
      · rfl
      · exact hturn angle
      · rfl

/-- A circuit of one occurrence. -/
theorem exists_expand_singleton_iff {e : Expander G R} {o : Occurrence R} :
    (∃ c, (e.expand [o]).1 = .ok c) ↔ ∃ piece,
      (e.expandOne o).1 = .ok piece := by
  simp only [expand_cons_eq_ok_iff]
  constructor
  · rintro ⟨c, piece, rest, hpiece, -⟩
    exact ⟨piece, hpiece⟩
  · rintro ⟨piece, hpiece⟩
    exact ⟨_, piece, [], hpiece, rfl, rfl⟩

/-- The occurrences of an input circuit that is expanded. -/
theorem known_or_angled_of_expand {e : Expander G R} (ht : e.table.Standard)
    {input : List (Occurrence R)} {c : Circuit R}
    (h : (e.expand input).1 = .ok c) :
    ∀ o ∈ input, o.Known ∨ o.AngledFixed := by
  induction input generalizing e c with
  | nil => simp
  | cons o input ih =>
    -- the expander may have learned an angle, but its table is the same
    obtain ⟨piece, rest, hone, hrest, rfl⟩ := expand_cons_eq_ok_iff.mp h
    obtain ⟨-, hfirst, -⟩ := (exists_expandOne_iff ht o).mp ⟨piece, hone⟩
    have ht' : (e.expandOne o).2.1.table.Standard := by rwa [table_expandOne]
    exact List.forall_mem_cons.mpr ⟨hfirst, ih ht' hrest⟩

end Expander

/-! ### A table and a searcher -/

/-- A first run that ends in two angles with an acceptable residual decides the
search for a rotation about the second axis. -/
theorem Synthesizer.exists_synthesize_of_first_run {s : Synthesizer G R}
    {run : Minimum R R} (hattempts : s.config.maxAttempts ≠ 0)
    (hdepth : s.config.maxDepth ≠ 0) (hrestarts : s.config.maxRestarts ≠ 0)
    (hrun : ∀ f box,
      s.oneQubit.minimize f (drawMany 2 s.source).1 box = .ok run)
    (hpoint : run.point.length = 2) (hconverged : run.converged = true)
    (haccept : acceptable run.value = true) (angle : R) :
    ∃ found, (s.synthesize (Direction.y.rotation angle)).1 = .ok found := by
  obtain ⟨o, ho, hshape, hone⟩ :
      ∃ o, Objective.ofTarget (Direction.y.rotation angle) 1 = .ok o ∧
      o.shape = .oneQubit ∧ o.depth = 1 := ⟨_, rfl, rfl, rfl⟩
  have hdimension : o.dimension = 2 := by
    rw [Objective.dimension, hshape, hone]
    rfl
  -- two angles are what the template of this depth takes
  have htakes :
      o.shape.Takes o.depth (run.point.map roundHundredth).length := by
    rw [hshape, hone, List.length_map, hpoint]
    exact ⟨by decide, by decide, rfl⟩
  obtain ⟨found, hfound⟩ : ∃ found, ofRun o run = .ok found := by
    simp only [ofRun, Objective.evaluate_eq_ok htakes]
    exact ⟨_, rfl⟩
  refine ⟨found,
    synthesize_of_first_run hattempts hdepth hrestarts ho ?_ hconverged
      haccept hfound⟩
  rw [hshape, hdimension]
  exact hrun _ _

theorem Synthesizer.acceptable_zero : acceptable (0 : ℝ) = true := by
  show ((⌊(0 : ℝ) * 100.0⌋ : ℝ) == 0) = true
  simp

/-- A minimizer that takes two angles of zero for a perfect fit. -/
noncomputable def Minimizer.resting : Minimizer ℝ where
  name := "resting"
  minimize _ _ _ := .ok ⟨[0, 0], 0, true, 0, .other "resting"⟩

/-- A searcher that accepts the first template it tries. -/
noncomputable def Synthesizer.resting : Synthesizer Keystream ℝ :=
  .withMinimizers .default .resting .resting

theorem Synthesizer.exists_synthesize_resting (angle : ℝ) :
    ∃ s, (resting.synthesize (Direction.y.rotation angle)).1 = .ok s :=
  exists_synthesize_of_first_run (Nat.succ_ne_zero 9) (Nat.succ_ne_zero 2)
    (Nat.succ_ne_zero 49)
    (fun _ _ => rfl) rfl rfl acceptable_zero angle

/-- The usual table with entries for the gates on one qubit, in hundredths. -/
noncomputable def Table.filled : Table ℝ :=
  withDefaults.insertAll [("I", []), ("H", [.rz 1.57, .rx 1.57, .rz 1.57]),
    ("X", [.rx 3.14]), ("Y", [.rz 3.14, .rx 3.14]), ("Z", [.rz 3.14])]

theorem Table.standard_filled : filled.Standard := by
  apply standard_insertAll
  · rfl
  · simp [Step.entangles, Step.rx, Step.rz]

/-! ### Input circuits -/

/-- **What is accepted, with a standard table.**  The table that filling makes
of the usual one is standard.  With any standard table and a searcher that finds
the rotations about the second axis, an occurrence is expanded exactly if its
qubits are distinct and its gate is known, or a fixed gate on one qubit with an
angle.  An input circuit that compiles has a unitary, on any register that holds
its qubits, exactly if it has no fixed gate with an angle. -/
theorem expand_ok_iff_known_or_angled :
    (∀ (config : Config R) (t : Table R),
      Table.withDefaults.populate FixedGate.singleQubit config = .ok t →
        t.Standard) ∧
    ∀ (t : Table R) (searcher : Synthesizer G R), t.Standard →
      ((∀ angle, ∃ s, (searcher.synthesize (Direction.y.rotation angle)).1 =
        .ok s) →
        ∀ o : Occurrence R,
          (∃ c, ((Expander.ofTable t searcher).expand [o]).1 = .ok c) ↔
          o.qubits.Nodup ∧ ((∃ m, o.matrix? = some m) ∨ o.AngledFixed)) ∧
      ∀ (input : List (Occurrence R)) (c : Circuit R) (n : ℕ),
        (compile input t searcher).1 = .ok c →
          (∀ o ∈ input, ∀ q ∈ o.qubits, q < n) →
          ((∃ S, sourceUnitary input n = some S) ↔
            ∀ o ∈ input, ¬ o.AngledFixed) := by
  refine ⟨fun config t h => Table.standard_populate h,
    fun t searcher ht => ⟨?_, ?_⟩⟩
  · intro hsearch o
    have hturn : ∀ angle q, o = .ofRotation .y angle q →
        (Expander.ofTable t searcher).FindsTurn angle := by
      intro angle q _
      obtain ⟨s, hs⟩ := hsearch angle
      exact Expander.findsTurn_ofTable hs
    rw [Expander.exists_expand_singleton_iff, Expander.exists_expandOne_iff ht,
      Occurrence.exists_matrix?_iff]
    exact and_congr_right fun _ => and_iff_left hturn
  · intro input c n hcompile hn
    obtain ⟨expanded, hexpand, -⟩ := compile_eq_ok_iff.mp hcompile
    have hall := Expander.known_or_angled_of_expand ht hexpand
    rw [exists_sourceUnitary_iff]
    -- what was expanded is known or has an angle that does not belong there
    refine forall₂_congr fun o ho => ?_
    rw [Occurrence.exists_matrix?_iff]
    constructor
    · rintro ⟨hknown, -⟩ hangled
      exact hangled.not_known hknown
    · intro hangled
      exact ⟨(hall o ho).resolve_right hangled, hn o ho⟩

/-- A rotation that is searched for, a controlled flip on one qubit, which is
refused, and a circuit. -/
theorem expand_ok_iff_known_or_angled_filled :
    Table.filled.Standard ∧
      (∀ angle, ∃ s,
        (Synthesizer.resting.synthesize (Direction.y.rotation angle)).1 =
          .ok s) ∧
      (∃ c, ((Expander.ofTable .filled .resting).expand
        [.parametrized "Ry" 2 7]).1 = .ok c) ∧
      (¬ ∃ c,
        ((Expander.ofTable .filled .resting).expand [.single "CNOT" 7]).1 =
          .ok c) ∧
      ∃ S, sourceUnitary [.single "H" 2, .controlled "CNOT" 2 0,
        .parametrized "Rx" (0.5 : ℝ) 1] 3 = some S := by
  obtain ⟨haccept, hsource⟩ :=
    (expand_ok_iff_known_or_angled (G := Keystream)).2 .filled .resting
      Table.standard_filled
  refine ⟨Table.standard_filled, Synthesizer.exists_synthesize_resting,
    ?_, ?_, ?_⟩
  · apply (haccept Synthesizer.exists_synthesize_resting _).mpr
    exact ⟨List.nodup_singleton 7, Or.inl ⟨_, rfl⟩⟩
  · intro hok
    rcases ((haccept Synthesizer.exists_synthesize_resting _).mp hok).2 with
        ⟨m, hm⟩ | hangled
    · cases hm
    · exact hangled
  · let input : List (Occurrence ℝ) :=
      [.single "H" 2, .controlled "CNOT" 2 0, .parametrized "Rx" 0.5 1]
    have hexpand :
        ((Expander.ofTable .filled .resting).expand input).1 = .ok _ := rfl
    have hcompile := compile_eq_ok_iff.mpr ⟨_, hexpand, rfl⟩
    have hknown : ∀ o ∈ input, o.Known := by
      simp only [input, List.forall_mem_cons]
      exact ⟨⟨.h, rfl, rfl⟩, ⟨.cnot, rfl, rfl⟩, ⟨.x, rfl⟩, by simp⟩
    apply (hsource input _ 3 hcompile (by simp [input, Occurrence.qubits])).mpr
    intro o ho hangled
    exact hangled.not_known (hknown o ho)

/-- A Hadamard gate with an angle has no matrix, and is expanded and compiled
all the same. -/
theorem expand_angled_hadamard :
    Table.filled.Standard ∧
      (∀ angle, ∃ s,
        (Synthesizer.resting.synthesize (Direction.y.rotation angle)).1 =
          .ok s) ∧
      (∃ c, ((Expander.ofTable .filled .resting).expand
        [.parametrized "H" 0.5 0]).1 = .ok c) ∧
      (∃ c, (compile [.parametrized "H" 0.5 0] Table.filled .resting).1 = .ok c) ∧
      (Occurrence.parametrized "H" (0.5 : ℝ) 0).matrix? = none ∧
      ∀ n, sourceUnitary [.parametrized "H" (0.5 : ℝ) 0] n = none := by
  have hexpand :
      ((Expander.ofTable .filled .resting).expand [.parametrized "H" 0.5 0]).1 =
      .ok [.rz 1.57 0, .rx 1.57 0, .rz 1.57 0] := rfl
  have hcompile := compile_eq_ok_iff.mpr ⟨_, hexpand, rfl⟩
  exact ⟨Table.standard_filled, Synthesizer.exists_synthesize_resting,
    ⟨_, hexpand⟩, ⟨_, hcompile⟩, rfl, fun n => rfl⟩

end Gimbal
