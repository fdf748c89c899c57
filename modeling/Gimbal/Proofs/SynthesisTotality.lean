/-
Gimbal/Proofs/SynthesisTotality.lean

Which outcomes a search has.  A minimizer that answers (`Minimizer.Answers`) is
only ever asked about a template in its own dimension and a box of whole turns,
so no run breaks off, and a point that it reports has as many coordinates as the
template has angles.  From there the loops are followed outward: the runs at one
depth, the depths of an attempt, the attempts.

    run      an answer, at a point of the right length           (`exists_convergedRun`)
    depth    a synthesis or nothing, but no error                (`exists_tryDepth`)
    attempt  a synthesis, or all attempts are used up            (`attempt_outcome`)

What is left is the shape of the target, which is looked at before the first
attempt.
-/
import Mathlib
import Gimbal.Binary64
import Gimbal.Proofs.MinimizerRuns
import Gimbal.Proofs.SynthesisOutcome

namespace Gimbal

variable {G R : Type} [Scalar R]

/-! ### Shapes and objectives -/

/-- Only two by two and four by four matrices are targets. -/
theorem Shape.ofMat_cases {K : Type} (m : Mat K) :
    (¬ (m.rows = 2 ∧ m.cols = 2 ∨ m.rows = 4 ∧ m.cols = 4) ∧
        ofMat m = .error (.invalidTarget m.rows m.cols)) ∨
      (m.rows = 2 ∧ m.cols = 2 ∨ m.rows = 4 ∧ m.cols = 4) ∧ ∃ shape,
        ofMat m = .ok shape := by
  unfold ofMat
  split
  · next htwo => exact Or.inr ⟨Or.inl htwo, _, rfl⟩
  · next htwo =>
    split
    · next hfour => exact Or.inr ⟨Or.inr hfour, _, rfl⟩
    · next hfour => exact Or.inl ⟨not_or.mpr ⟨htwo, hfour⟩, rfl⟩

namespace Objective

/-- For a target with a shape there is an objective at each depth that has
templates. -/
theorem exists_ofTarget {target : Mat (Amplitude R)} {shape : Shape} {depth : ℕ}
    (hshape : Shape.ofMat target = .ok shape) (hpos : 1 ≤ depth)
    (hle : depth ≤ 3) :
    ∃ o, ofTarget target depth = .ok o ∧ o.shape = shape ∧ o.depth = depth := by
  have hdepth : isTemplateDepth depth = true := by
    rw [isTemplateDepth, Bool.and_eq_true, decide_eq_true_iff,
      decide_eq_true_iff, maxTemplateDepth]
    exact ⟨hpos, hle⟩
  have hok : ofTarget target depth = .ok ⟨target, shape, depth,
      target.entries.toList.map fun v => decide (structuralZero < v.norm)⟩ := by
    unfold ofTarget
    rw [hshape, hdepth]
    rfl
  exact ⟨_, hok, rfl, rfl⟩

omit [Scalar R] in
theorem dimension_pos (o : Objective R) : 0 < o.dimension := by
  rw [dimension]
  cases o.shape <;> exact Nat.succ_pos _

end Objective

omit [Scalar R] in
theorem length_drawMany [AngleSource G R] (n : ℕ) (g : G) :
    (drawMany n g : List R × G).1.length = n := by
  induction n generalizing g with
  | zero => rfl
  | succ n ih => exact congrArg (· + 1) (ih _)

namespace Synthesizer

/-! ### From one run to the whole search -/

/-- A search that cannot break off: both minimizers answer, and a whole turn is
an interval. -/
structure Answers (s : Synthesizer G R) : Prop where
  oneQubit : s.oneQubit.Answers
  twoQubit : s.twoQubit.Answers
  zero_le_tau : (0 : R) ≤ tau

theorem Answers.minimizerFor {s : Synthesizer G R} (h : s.Answers)
    (shape : Shape) :
    (s.minimizerFor shape).Answers := by
  cases shape with
  | oneQubit => exact h.oneQubit
  | twoQubit => exact h.twoQubit

variable [AngleSource G R] {s : Synthesizer G R} {target : Mat (Amplitude R)}
  {shape : Shape}

/-- The runs at one depth end with a converged one or without; none breaks
off. -/
theorem exists_convergedRun {m : Minimizer R} (hm : m.Answers)
    (hturn : (0 : R) ≤ tau) (o : Objective R) (restarts : ℕ) (g : G) :
    ∃ run?, (convergedRun m o restarts g).result = .ok run? ∧
      ∀ run, run? = some run → run.point.length = o.dimension := by
  -- induction on the restarts left, for any state of the source
  induction restarts generalizing g with
  | zero => exact ⟨none, rfl, fun run hrun => by cases hrun⟩
  | succ restarts ih =>
    -- a start is drawn in the box of the objective, so the minimizer answers
    have hlength :
        (drawMany o.dimension g : List R × G).1.length = o.dimension :=
          length_drawMany _ g
    have hstart : (drawMany o.dimension g : List R × G).1 ≠ [] :=
      List.ne_nil_of_length_pos (o.dimension_pos.trans_eq hlength.symm)
    obtain ⟨run, hrun, hpoint⟩ := hm o.score (drawMany o.dimension g).1
      (List.replicate o.dimension ⟨0, tau⟩) hstart
        (List.length_replicate.trans hlength.symm)
      (isProper_of_mem_turns hturn)
    simp only [convergedRun, hrun]
    split
    · refine ⟨some run, rfl, ?_⟩
      intro run' hrun'
      rw [← Option.some.inj hrun', hpoint, hlength]
    · exact ih _

/-- A run at a point of the right length can be turned into a synthesis. -/
theorem exists_ofRun {o : Objective R} {run : Minimum R R} (hpos : 1 ≤ o.depth)
    (hle : o.depth ≤ 3) (hpoint : run.point.length = o.dimension) :
    ∃ found, ofRun o run = .ok found := by
  have htakes :
      o.shape.Takes o.depth (run.point.map roundHundredth).length := by
    rw [List.length_map]
    exact ⟨hpos, hle, hpoint⟩
  simp only [ofRun, Objective.evaluate_eq_ok htakes]
  exact ⟨_, rfl⟩

omit [Scalar R] [AngleSource G R] in
theorem mem_depths {depth : ℕ} :
    depth ∈ s.depths ↔ 1 ≤ depth ∧ depth ≤ min s.config.maxDepth 3 := by
  rw [depths, List.mem_range'_1, maxTemplateDepth]
  omega

theorem exists_tryDepth (hs : s.Answers)
    (hshape : Shape.ofMat target = .ok shape) {depth : ℕ}
    (hdepth : depth ∈ s.depths) (g : G) :
    ∃ found?, (s.tryDepth target depth g).result = .ok found? := by
  obtain ⟨hpos, hle⟩ := mem_depths.mp hdepth
  have hle3 : depth ≤ 3 := hle.trans (min_le_right _ _)
  obtain ⟨o, ho, -, rfl⟩ := Objective.exists_ofTarget hshape hpos hle3
  obtain ⟨run?, hrun, hpoint⟩ :=
    exists_convergedRun (hs.minimizerFor o.shape) hs.zero_le_tau o
      s.config.maxRestarts g
  simp only [tryDepth, ho]
  cases run? with
  | none => rw [hrun]; exact ⟨none, rfl⟩
  | some run =>
    rw [hrun]
    obtain ⟨found, hfound⟩ := exists_ofRun hpos hle3 (hpoint run rfl)
    dsimp only
    -- rounding a converged run either is accepted or leaves the depth without a
    -- find
    split
    · rw [hfound]
      exact ⟨some found, rfl⟩
    · exact ⟨none, rfl⟩

theorem exists_searchDepths (hs : s.Answers)
    (hshape : Shape.ofMat target = .ok shape) {depths : List ℕ}
    (hdepths : ∀ d ∈ depths, d ∈ s.depths) (g : G) :
    ∃ found?, (s.searchDepths target depths g).result = .ok found? := by
  induction depths generalizing g with
  | nil => exact ⟨none, rfl⟩
  | cons depth rest ih =>
    obtain ⟨hdepth, hrest⟩ := List.forall_mem_cons.mp hdepths
    simp only [searchDepths]
    split
    · exact ih hrest _
    · exact exists_tryDepth hs hshape hdepth g

/-- The attempts end with a synthesis or are used up. -/
theorem attempt_outcome (hs : s.Answers)
    (hshape : Shape.ofMat target = .ok shape) (left done : ℕ) (g : G) :
    (s.attempt target left done g).result = .error (.exhausted (done + left)) ∨
      ∃ found, (s.attempt target left done g).result = .ok found := by
  -- induction on the attempts left, counting those done
  induction left generalizing done g with
  | zero => exact Or.inl rfl
  | succ left ih =>
    obtain ⟨found?, hfound⟩ := exists_searchDepths hs hshape (fun d hd => hd) g
    simp only [attempt, hfound]
    cases found? with
    | some found => exact Or.inr ⟨found, rfl⟩
    | none =>
      have hcount : done + (left + 1) = done + 1 + left := by omega
      rw [hcount]
      exact ih (done + 1) _

/-! ### Outcomes -/

theorem Accepted.depth_mem {found : Synthesis R} (h : s.Accepted target found) :
    found.depth ∈ s.depths := by
  obtain ⟨depth, hdepth, o, g, run, ho, -, -, -, hfound⟩ := h
  obtain ⟨r, -, rfl⟩ := ofRun_eq_ok hfound
  rw [(Objective.ofTarget_eq_ok ho).2]
  exact hdepth

/-- A synthesis that can be used: it has the qubits of the target, a depth
within the limits and the angles of its template, and both readings of the
angles succeed. -/
structure Usable (s : Synthesizer G R) (target : Mat (Amplitude R))
    (found : Synthesis R) : Prop where
  rows_eq : target.rows = 2 ^ found.shape.qubitCount
  cols_eq : target.cols = 2 ^ found.shape.qubitCount
  one_le_depth : 1 ≤ found.depth
  depth_le : found.depth ≤ min s.config.maxDepth 3
  length_angles : found.angles.length = found.shape.angleCount found.depth
  steps : ∃ d, found.steps = .ok d
  unitary : ∃ U, found.unitary = .ok U

theorem Accepted.usable {found : Synthesis R} (h : s.Accepted target found) :
    s.Usable target found where
  rows_eq := (Shape.ofMat_eq_ok_iff.mp h.shape_eq).1
  cols_eq := (Shape.ofMat_eq_ok_iff.mp h.shape_eq).2
  one_le_depth := (mem_depths.mp h.depth_mem).1
  depth_le := (mem_depths.mp h.depth_mem).2
  length_angles := h.takes.2.2
  steps := ⟨_, h.steps_eq⟩
  unitary := ⟨_, templateUnitary_eq_ok_iff.mpr ⟨h.takes, rfl⟩⟩

/-- The outcomes of a search that cannot break off. -/
theorem Answers.outcomes (hs : s.Answers) (target : Mat (Amplitude R)) :
    ((∃ rows cols, (s.synthesize target).1 = .error (.invalidTarget rows cols)) ↔
      ¬ (target.rows = 2 ∧ target.cols = 2 ∨ target.rows = 4 ∧ target.cols = 4)) ∧
    ((s.synthesize target).1 = .error (.invalidTarget target.rows target.cols) ∨
      (s.synthesize target).1 = .error (.exhausted s.config.maxAttempts) ∨
      ∃ found, (s.synthesize target).1 = .ok found ∧
      s.Usable target found) := by
  -- only the shape of the target decides between refusal and search
  rcases Shape.ofMat_cases target with ⟨hother, herror⟩ |
      ⟨hsquare, shape, hshape⟩
  · have hinvalid :
        (s.synthesize target).1 =
          .error (.invalidTarget target.rows target.cols) := by
      show (s.search target s.source).result = _
      rw [search, herror]
    exact ⟨⟨fun _ => hother, fun _ => ⟨_, _, hinvalid⟩⟩, Or.inl hinvalid⟩
  · have hsearch : (s.synthesize target).1
        = (s.attempt target s.config.maxAttempts 0 s.source).result := by
      show (s.search target s.source).result = _
      rw [search, hshape]
    rw [hsearch]
    rcases attempt_outcome hs hshape s.config.maxAttempts 0 s.source with
        hexhausted | ⟨found, hfound⟩
    · rw [hexhausted, Nat.zero_add]
      refine ⟨⟨?_, fun hother => absurd hsquare hother⟩, Or.inr (Or.inl rfl)⟩
      rintro ⟨rows, cols, hinvalid⟩
      cases hinvalid
    · have husable := (accepted_of_synthesize (hsearch.trans hfound)).usable
      rw [hfound]
      refine ⟨⟨?_, fun hother => absurd hsquare hother⟩,
        Or.inr (Or.inr ⟨found, rfl, husable⟩)⟩
      rintro ⟨rows, cols, hinvalid⟩
      cases hinvalid

/-! ### The usual search -/

/-- The usual search cannot break off, whatever its limits and tolerances. -/
theorem answers_ofConfig (config : Config R) (g : Keystream)
    (hturn : (0 : R) ≤ tau) :
    Answers { ofConfig config with source := g } where
  oneQubit :=
    QuasiNewton.answers_minimizer (show 10 ≤ QuasiNewton.memoryLimit by decide)
  twoQubit := SimplexSearch.answers_minimizer _
  zero_le_tau := hturn

/-- **A search has three outcomes.**  In binary floating point, with any
settings and from any state of the keystream: a target that is neither two by
two nor four by four is refused with its dimensions, and no other one is; for
every other target the search uses up its attempts or comes to a synthesis that
can be used. -/
theorem synthesize_outcomes (config : Config Float) (g : Keystream)
    (target : Mat (Amplitude Float)) :
    let s : Synthesizer Keystream Float := { ofConfig config with source := g }
    ((∃ rows cols, (s.synthesize target).1 = .error (.invalidTarget rows cols)) ↔
      ¬ (target.rows = 2 ∧ target.cols = 2 ∨ target.rows = 4 ∧ target.cols = 4)) ∧
    ((s.synthesize target).1 = .error (.invalidTarget target.rows target.cols) ∨
      (s.synthesize target).1 = .error (.exhausted config.maxAttempts) ∨
      ∃ found, (s.synthesize target).1 = .ok found ∧ s.Usable target found) :=
  (answers_ofConfig config g (by decide)).outcomes target

end Synthesizer

end Gimbal
