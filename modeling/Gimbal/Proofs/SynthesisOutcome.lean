/-
Gimbal/Proofs/SynthesisOutcome.lean

What a search that succeeds has found.  Whatever the attempts before it, the
synthesis comes from one run of a minimizer: it converged at one of the depths
that are searched, its residual was accepted, and rounding its point gave the
angles (`Synthesizer.Accepted`).

The residual of the rounded angles could be computed only because the template
takes as many angles, so

    found.steps = ok (templateSteps found.shape found.depth found.angles.tail),

and the steps join two qubits exactly if the target is a matrix on two.

A search reports its runs and its failures and nothing else
(`isSearch_synthesize`).
-/
import Mathlib
import Gimbal.Proofs.TemplateMeaning
import Gimbal.Synthesis

namespace Gimbal

variable {G R : Type} [Scalar R]

/-! ### Objectives -/

theorem Shape.ofMat_eq_ok_iff {K : Type} {m : Mat K} {shape : Shape} :
    ofMat m = .ok shape ↔ m.OnQubits shape.qubitCount := by
  simp only [ofMat, Mat.OnQubits]
  cases shape <;> simp only [qubitCount] <;> split <;> grind

theorem Objective.ofTarget_eq_ok {target : Mat (Amplitude R)} {depth : ℕ}
    {o : Objective R} (h : ofTarget target depth = .ok o) :
    Shape.ofMat target = .ok o.shape ∧ o.depth = depth := by
  unfold ofTarget at h
  rcases hshape : Shape.ofMat target with e | shape
  · rw [hshape] at h
    cases h
  · rw [hshape] at h
    cases hdepth : isTemplateDepth depth
    · rw [hdepth] at h
      cases h
    · rw [hdepth] at h
      obtain rfl := Except.ok.inj h
      exact ⟨rfl, rfl⟩

/-- What the target leaves open of its objective is the shape. -/
theorem Objective.eq_of_ofTarget {target : Mat (Amplitude R)} {depth : ℕ}
    {o : Objective R} (h : ofTarget target depth = .ok o) :
    o = ⟨target, o.shape, depth,
      target.entries.toList.map fun v => decide (structuralZero < v.norm)⟩ := by
  have hshape := (ofTarget_eq_ok h).1
  unfold ofTarget at h
  rw [hshape] at h
  cases hdepth : isTemplateDepth depth
  · rw [hdepth] at h
    cases h
  · rw [hdepth] at h
    exact (Except.ok.inj h).symm

theorem Objective.takes_of_evaluate_eq_ok {o : Objective R} {x : List R} {r : R}
    (h : o.evaluate x = .ok r) : o.shape.Takes o.depth x.length := by
  unfold evaluate at h
  rcases hT : templateUnitary o.shape o.depth x with e | T
  · rw [hT] at h
    cases h
  · exact (templateUnitary_eq_ok_iff.mp hT).1

/-- Angles of the right number can be evaluated. -/
theorem Objective.evaluate_eq_ok {o : Objective R} {x : List R}
    (h : o.shape.Takes o.depth x.length) :
    o.evaluate x = .ok (o.residual
      ((templateProduct o.shape o.depth x.tail).map fun v =>
        v * Amplitude.cis (x.headD 0))) := by
  rw [evaluate, templateUnitary_eq_ok_iff.mpr ⟨h, rfl⟩]
  rfl

/-! ### Steps -/

omit [Scalar R] in
/-- The steps of a template join two qubits if it has two. -/
theorem any_entangles_templateSteps (s : Shape) (depth : ℕ) (angles : List R) :
    (templateSteps s depth angles).any Step.entangles = true ↔
      s = .twoQubit := by
  cases s with
  | oneQubit => simp [templateSteps, any_entangles_runSteps]
  | twoQubit => simp [templateSteps, Step.entangles]

/-- Whether an event is reported by a search: a run, or the end of a depth or of
an attempt without a fit. -/
def Event.isSearch {R : Type} : Event R → Bool
  | .run _ _ => true
  | .nonconvergence _ _ => true
  | .attemptFailed _ _ => true
  | _ => false

namespace Synthesizer

/-! ### From one run to the whole search -/

theorem ofRun_eq_ok {o : Objective R} {run : Minimum R R} {found : Synthesis R}
    (h : ofRun o run = .ok found) :
    ∃ r, o.evaluate (run.point.map roundHundredth) = .ok r ∧
      found = ⟨o.shape, o.depth, run.point.map roundHundredth, r⟩ := by
  unfold ofRun at h
  rcases hr : o.evaluate (run.point.map roundHundredth) with e | r
  · simp only [hr] at h
    cases h
  · simp only [hr] at h
    exact ⟨r, rfl, (Except.ok.inj h).symm⟩

variable [AngleSource G R]

/-- The synthesis comes from a run of the minimizer, from a start that was
drawn, that converged, at one of the depths that are searched, to an acceptable
residual. -/
def Accepted (s : Synthesizer G R) (target : Mat (Amplitude R))
    (found : Synthesis R) : Prop :=
  ∃ depth ∈ s.depths, ∃ (o : Objective R) (g : G) (run : Minimum R R),
    Objective.ofTarget target depth = .ok o ∧
    (s.minimizerFor o.shape).minimize o.score (drawMany o.dimension g).1
      (List.replicate o.dimension ⟨0, tau⟩) = .ok run ∧
    run.converged = true ∧ acceptable run.value = true ∧ ofRun o run = .ok found

variable {s : Synthesizer G R} {target : Mat (Amplitude R)}
  {found : Synthesis R}

theorem convergedRun_eq_some {m : Minimizer R} {o : Objective R}
    {restarts : ℕ} {g : G} {run : Minimum R R}
    (h : (convergedRun m o restarts g).result = .ok (some run)) :
    ∃ g : G, m.minimize o.score (drawMany o.dimension g).1
      (List.replicate o.dimension ⟨0, tau⟩) = .ok run ∧
        run.converged = true := by
  -- each start leaves another source to the next one
  induction restarts generalizing g with
  | zero => cases h
  | succ restarts ih =>
    simp only [convergedRun] at h
    split at h
    · cases h
    · next tried hrun =>
      split at h
      · next hconverged =>
        obtain rfl := Option.some.inj (Except.ok.inj h)
        exact ⟨g, hrun, hconverged⟩
      · -- this start was in vain: the find comes from a later one
        exact ih h

theorem tryDepth_eq_some {depth : ℕ} {g : G} (hdepth : depth ∈ s.depths)
    (h : (s.tryDepth target depth g).result = .ok (some found)) :
    s.Accepted target found := by
  simp only [tryDepth] at h
  split at h
  · cases h
  · next o ho =>
    split at h
    · cases h
    · cases h
    · next run hrun =>
      obtain ⟨g, hmin, hconverged⟩ := convergedRun_eq_some hrun
      -- only an accepted run becomes a result
      by_cases haccept : acceptable run.value = true
      · simp only [haccept, if_true] at h
        rcases hfound : ofRun o run with e | found'
        · rw [hfound] at h
          cases h
        · rw [hfound] at h
          obtain rfl := Option.some.inj (Except.ok.inj h)
          exact ⟨depth, hdepth, o, g, run, ho, hmin, hconverged,
            haccept, hfound⟩
      · simp only [haccept] at h
        cases h

theorem searchDepths_eq_some {depths : List ℕ} {g : G}
    (hdepths : ∀ d ∈ depths, d ∈ s.depths)
    (h : (s.searchDepths target depths g).result = .ok (some found)) :
    s.Accepted target found := by
  induction depths generalizing g with
  | nil => cases h
  | cons depth rest ih =>
    obtain ⟨hdepth, hrest⟩ := List.forall_mem_cons.mp hdepths
    simp only [searchDepths] at h
    -- only a depth without a result is followed by another one
    split at h
    · exact ih hrest h
    · exact tryDepth_eq_some hdepth h

theorem attempt_eq_ok {left done : ℕ} {g : G}
    (h : (s.attempt target left done g).result = .ok found) :
    s.Accepted target found := by
  -- induction on the attempts left
  induction left generalizing done g with
  | zero => cases h
  | succ left ih =>
    simp only [attempt] at h
    split at h
    · cases h
    · next tried =>
      obtain rfl := Except.ok.inj h
      exact searchDepths_eq_some (fun d hd => hd) tried
    · exact ih h

/-- A search that succeeds has accepted a run. -/
theorem accepted_of_synthesize (h : (s.synthesize target).1 = .ok found) :
    s.Accepted target found := by
  change (s.search target s.source).result = .ok found at h
  unfold search at h
  split at h
  · cases h
  · exact attempt_eq_ok h

/-- Where the first run at the first depth is accepted, it decides the
search. -/
theorem synthesize_of_first_run {o : Objective R} {run : Minimum R R}
    (hattempts : s.config.maxAttempts ≠ 0) (hdepth : s.config.maxDepth ≠ 0)
    (hrestarts : s.config.maxRestarts ≠ 0)
    (ho : Objective.ofTarget target 1 = .ok o)
    (hrun :
      (s.minimizerFor o.shape).minimize o.score
        (drawMany o.dimension s.source).1 (List.replicate o.dimension ⟨0, tau⟩)
          = .ok run)
    (hconverged : run.converged = true) (haccept : acceptable run.value = true)
    (hfound : ofRun o run = .ok found) :
    (s.synthesize target).1 = .ok found := by
  obtain ⟨attempts, hattempts⟩ := Nat.exists_eq_succ_of_ne_zero hattempts
  obtain ⟨restarts, hrestarts⟩ := Nat.exists_eq_succ_of_ne_zero hrestarts
  -- the first depth of a sweep is one
  have hdepths :
      s.depths = 1 :: List.range' 2 (min s.config.maxDepth 3 - 1) := by
    have hcount :
        min s.config.maxDepth maxTemplateDepth =
          (min s.config.maxDepth 3 - 1) + 1 := by
      rw [maxTemplateDepth]
      omega
    rw [depths, hcount, List.range'_succ]
  have hfirst :
      (convergedRun (s.minimizerFor o.shape) o s.config.maxRestarts
        s.source).result
      = .ok (some run) := by
    rw [hrestarts]
    simp only [convergedRun, hrun, hconverged, if_true]
  have htry : (s.tryDepth target 1 s.source).result = .ok (some found) := by
    simp only [tryDepth, ho, hfirst, haccept, hfound]
    rfl
  have hsearch :
      (s.searchDepths target s.depths s.source).result = .ok (some found) := by
    rw [hdepths]
    simp only [searchDepths, htry]
  show (s.search target s.source).result = _
  rw [search, (Objective.ofTarget_eq_ok ho).1, hattempts]
  simp only [attempt, hsearch]

/-! ### What was accepted -/

namespace Accepted

theorem shape_eq (h : s.Accepted target found) :
    Shape.ofMat target = .ok found.shape := by
  obtain ⟨depth, -, o, g, run, ho, -, -, -, hfound⟩ := h
  obtain ⟨r, -, rfl⟩ := ofRun_eq_ok hfound
  exact (Objective.ofTarget_eq_ok ho).1

theorem takes (h : s.Accepted target found) :
    found.shape.Takes found.depth found.angles.length := by
  obtain ⟨depth, -, o, g, run, -, -, -, -, hfound⟩ := h
  obtain ⟨r, hr, rfl⟩ := ofRun_eq_ok hfound
  exact Objective.takes_of_evaluate_eq_ok hr

theorem steps_eq (h : s.Accepted target found) :
    found.steps =
      .ok (templateSteps found.shape found.depth found.angles.tail) :=
  stepsOfAngles_eq_ok h.takes

end Accepted

/-- What a search finds can be listed as steps, and these join two qubits if the
target has two. -/
theorem exists_steps_of_synthesize (h : (s.synthesize target).1 = .ok found) :
    ∃ d, found.steps = .ok d ∧
      (d.any Step.entangles = true ↔ Shape.ofMat target = .ok .twoQubit) := by
  have haccepted := accepted_of_synthesize h
  refine ⟨_, haccepted.steps_eq, ?_⟩
  rw [any_entangles_templateSteps, haccepted.shape_eq, Except.ok.injEq]

/-! ### What a search reports -/

theorem isSearch_convergedRun (m : Minimizer R) (o : Objective R) (restarts : ℕ)
    (g : G) :
    ∀ event ∈ (convergedRun m o restarts g).events, event.isSearch = true := by
  induction restarts generalizing g with
  | zero => exact List.forall_mem_nil _
  | succ restarts ih =>
    simp only [convergedRun]
    split
    · exact List.forall_mem_nil _
    · split
      · exact List.forall_mem_singleton.mpr rfl
      · exact List.forall_mem_cons.mpr ⟨rfl, ih _⟩

theorem isSearch_tryDepth (s : Synthesizer G R) (target : Mat (Amplitude R))
    (depth : ℕ) (g : G) :
    ∀ event ∈ (s.tryDepth target depth g).events, event.isSearch = true := by
  -- the refusal of a target is silent; otherwise the runs are reported, and
  -- that none of them converged
  simp only [tryDepth]
  split
  · exact List.forall_mem_nil _
  · next o _ =>
    have hruns :=
      isSearch_convergedRun (s.minimizerFor o.shape) o s.config.maxRestarts g
    split
    · exact hruns
    · exact List.forall_mem_append.mpr
        ⟨hruns, List.forall_mem_singleton.mpr rfl⟩
    · exact hruns

theorem isSearch_searchDepths (s : Synthesizer G R) (target : Mat (Amplitude R))
    (depths : List ℕ) (g : G) :
    ∀ event ∈ (s.searchDepths target depths g).events,
      event.isSearch = true := by
  induction depths generalizing g with
  | nil => exact List.forall_mem_nil _
  | cons depth rest ih =>
    have htry := s.isSearch_tryDepth target depth g
    simp only [searchDepths]
    split
    · exact List.forall_mem_append.mpr ⟨htry, ih _⟩
    · exact htry

theorem isSearch_attempt (s : Synthesizer G R) (target : Mat (Amplitude R))
    (left done : ℕ) (g : G) :
    ∀ event ∈ (s.attempt target left done g).events, event.isSearch = true := by
  induction left generalizing done g with
  | zero => exact List.forall_mem_nil _
  | succ left ih =>
    have hsearch := s.isSearch_searchDepths target s.depths g
    simp only [attempt]
    split
    · exact hsearch
    · exact hsearch
    · exact List.forall_mem_append.mpr
        ⟨hsearch, List.forall_mem_cons.mpr ⟨rfl, ih _ _⟩⟩

/-- A search reports nothing but its own progress. -/
theorem isSearch_synthesize (s : Synthesizer G R) (target : Mat (Amplitude R)) :
    ∀ event ∈ (s.synthesize target).2.2, event.isSearch = true := by
  show ∀ event ∈ (s.search target s.source).events, _
  unfold search
  split
  · exact List.forall_mem_nil _
  · exact s.isSearch_attempt target _ _ _

end Synthesizer

end Gimbal
