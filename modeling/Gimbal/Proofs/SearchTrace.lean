/-
Gimbal/Proofs/SearchTrace.lean

What a search does, run by run, for any minimizers and any random source.

The events of a search are read as the steps of three nested loops.  Each loop
is a chain (`Follows`) from one state of the source to another:

    runs at a depth      none of them converged                  (`Misses`)
    depths of a sweep    each was passed over                    (`PassesOver`)
    sweeps               each went through all depths in vain    (`FailedSweep`)

A search that succeeds has gone through some sweeps in vain, then through the
depths below the one it ends with, then through some runs without convergence;
and its last run is the one it accepts
(`Synthesizer.synthesize_first_acceptable`).  Whatever it comes to, there are no
more runs than the three limits allow together.
-/
import Mathlib
import Gimbal.Proofs.Acceptance
import Gimbal.Proofs.SynthesisTotality

namespace Gimbal

/-- A chain of steps from one state to another, with what each step leaves
behind. -/
inductive Follows {S α : Type} (step : S → α → S → Prop) : S → List α → S → Prop
  | nil (s : S) : Follows step s [] s
  | cons {s t u : S} {a : α} {rest : List α} (hstep : step s a t)
      (hrest : Follows step t rest u) :
      Follows step s (a :: rest) u

namespace Synthesizer

variable {G R : Type} [Scalar R] [AngleSource G R]

/-! ### Runs at one depth -/

/-- The answer of a minimizer on an objective, from the next angles of a
source. -/
def ask (m : Minimizer R) (o : Objective R) (g : G) :
    Except Fault (Minimum R R) :=
  m.minimize o.score (drawMany o.dimension g).1
    (List.replicate o.dimension ⟨0, tau⟩)

/-- The source behind these angles. -/
def afterRun (o : Objective R) (g : G) : G :=
  (drawMany o.dimension g : List R × G).2

/-- A run that does not converge. -/
def Misses (m : Minimizer R) (o : Objective R) (g : G) (run : Minimum R R)
    (g' : G) : Prop :=
  ask m o g = .ok run ∧ run.converged = false ∧ g' = afterRun o g

/-- What the runs at one depth can lead to. -/
inductive Tried (m : Minimizer R) (o : Objective R) (restarts : ℕ) (g : G) :
    Traced G R (Except Fault (Option (Minimum R R))) → Prop
  | unconverged {misses : List (Minimum R R)} {g' : G}
      (hmisses : Follows (Misses m o) g misses g')
      (hcount : misses.length = restarts) :
      Tried m o restarts g ⟨.ok none, g', misses.map (.run o.depth)⟩
  | converged {misses : List (Minimum R R)} {run : Minimum R R} {g' : G}
      (hmisses : Follows (Misses m o) g misses g')
      (hcount : misses.length < restarts)
      (hrun : ask m o g' = .ok run) (hconverged : run.converged = true) :
      Tried m o restarts g
        ⟨.ok (some run), afterRun o g',
          misses.map (.run o.depth) ++ [.run o.depth run]⟩
  | broken {misses : List (Minimum R R)} {fault : Fault} {g' : G}
      (hmisses : Follows (Misses m o) g misses g')
      (hcount : misses.length < restarts)
      (hrun : ask m o g' = .error fault) :
      Tried m o restarts g ⟨.error fault, afterRun o g',
        misses.map (.run o.depth)⟩

theorem tried_convergedRun (m : Minimizer R) (o : Objective R) (restarts : ℕ)
    (g : G) :
    Tried m o restarts g (convergedRun m o restarts g) := by
  -- induction on the restarts left, each from where the source was left
  induction restarts generalizing g with
  | zero => exact .unconverged (.nil g) rfl
  | succ restarts ih =>
    simp only [convergedRun]
    split
    · next fault hrun => exact .broken (.nil g) (Nat.succ_pos _) hrun
    · next run hrun =>
      split
      · next hconverged =>
        exact .converged (.nil g) (Nat.succ_pos _) hrun hconverged
      · next hmissed =>
        have hmiss : Misses m o g run (afterRun o g) :=
          ⟨hrun, by simpa using hmissed, rfl⟩
        have hlater : Tried m o restarts (afterRun o g)
            (convergedRun m o restarts
              (drawMany o.dimension g : List R × G).2) := ih _
        generalize convergedRun m o restarts
          (drawMany o.dimension g : List R × G).2 = later
          at hlater ⊢
        -- the run that missed stands in front of what the others lead to
        cases hlater with
        | unconverged hmisses hcount =>
          exact .unconverged (.cons hmiss hmisses) (congrArg (· + 1) hcount)
        | converged hmisses hcount hrun hconverged =>
          exact .converged (.cons hmiss hmisses) (Nat.succ_lt_succ hcount) hrun
            hconverged
        | broken hmisses hcount hrun =>
          exact .broken (.cons hmiss hmisses) (Nat.succ_lt_succ hcount) hrun

/-! ### A depth -/

/-- A depth that is tried and passed over, with what is reported of it: all runs
that are allowed are made and none converges, or one converges to a residual
with a full hundredth. -/
inductive PassesOver (s : Synthesizer G R) (target : Mat (Amplitude R))
    (g : G) : ℕ × List (Event R) → G → Prop
  | unconverged {depth : ℕ} {o : Objective R} {misses : List (Minimum R R)}
      {g' : G} (ho : Objective.ofTarget target depth = .ok o)
      (hmisses : Follows (Misses (s.minimizerFor o.shape) o) g misses g')
      (hcount : misses.length = s.config.maxRestarts) :
      PassesOver s target g
        (depth, misses.map (.run depth) ++
          [.nonconvergence depth s.config.maxRestarts]) g'
  | unacceptable {depth : ℕ} {o : Objective R} {misses : List (Minimum R R)}
      {run : Minimum R R} {g' : G}
      (ho : Objective.ofTarget target depth = .ok o)
      (hmisses : Follows (Misses (s.minimizerFor o.shape) o) g misses g')
      (hcount : misses.length < s.config.maxRestarts)
      (hrun : ask (s.minimizerFor o.shape) o g' = .ok run)
      (hconverged : run.converged = true)
      (hresidual : (Scalar.floor (run.value * 100.0) == 0) = false) :
      PassesOver s target g (depth, misses.map (.run depth) ++ [.run depth run])
        (afterRun o g')

/-- A depth at which a run is accepted, after some that did not converge. -/
structure Accepts (s : Synthesizer G R) (target : Mat (Amplitude R)) (g : G)
    (o : Objective R) (missed : List (Minimum R R)) (g' : G) (run : Minimum R R)
    (found : Synthesis R) : Prop where
  objective : Objective.ofTarget target found.depth = .ok o
  misses : Follows (Misses (s.minimizerFor o.shape) o) g missed g'
  length_missed : missed.length < s.config.maxRestarts
  run_eq : ask (s.minimizerFor o.shape) o g' = .ok run
  converged : run.converged = true
  residual : (Scalar.floor (run.value * 100.0) == 0) = true
  shape_eq : found.shape = o.shape
  angles_eq : found.angles = run.point.map roundHundredth
  residual_eq : o.evaluate found.angles = .ok found.residual

/-- What trying a depth can lead to. -/
inductive TriedDepth (s : Synthesizer G R) (target : Mat (Amplitude R))
    (depth : ℕ) (g : G) :
    Traced G R (Except SynthesisError (Option (Synthesis R))) → Prop
  | refused {e : SynthesisError}
      (ho : Objective.ofTarget target depth = .error e) :
      TriedDepth s target depth g ⟨.error e, g, []⟩
  | broken {missed : List (Minimum R R)} {fault : Fault} {g' : G}
      (hcount : missed.length < s.config.maxRestarts) :
      TriedDepth s target depth g ⟨.error (.fault fault), g',
        missed.map (.run depth)⟩
  | passed {events : List (Event R)} {g' : G}
      (h : s.PassesOver target g (depth, events) g') :
      TriedDepth s target depth g ⟨.ok none, g', events⟩
  | accepted {o : Objective R} {missed : List (Minimum R R)} {run : Minimum R R}
      {found : Synthesis R} {g' : G} (hdepth : found.depth = depth)
      (h : s.Accepts target g o missed g' run found) :
      TriedDepth s target depth g
        ⟨.ok (some found), afterRun o g',
          missed.map (.run depth) ++ [.run depth run]⟩
  | unusable {o : Objective R} {missed : List (Minimum R R)} {run : Minimum R R}
      {e : SynthesisError} {g' : G}
      (hcount : missed.length < s.config.maxRestarts)
      (hfound : ofRun o run = .error e) :
      TriedDepth s target depth g
        ⟨.error e, g', missed.map (.run depth) ++ [.run depth run]⟩

theorem triedDepth_tryDepth (s : Synthesizer G R) (target : Mat (Amplitude R))
    (depth : ℕ) (g : G) :
    TriedDepth s target depth g (s.tryDepth target depth g) := by
  unfold tryDepth
  split
  · next e ho => exact .refused ho
  · next o ho =>
    obtain ⟨-, rfl⟩ := Objective.ofTarget_eq_ok ho
    have htried :=
      tried_convergedRun (s.minimizerFor o.shape) o s.config.maxRestarts g
    dsimp only
    generalize convergedRun (s.minimizerFor o.shape) o s.config.maxRestarts g =
      tried at htried ⊢
    -- no run converged, one broke off, or one converged
    cases htried with
    | unconverged hmisses hcount =>
      exact .passed (.unconverged ho hmisses hcount)
    | broken hmisses hcount hrun => exact .broken hcount
    | @converged missed run g' hmisses hcount hrun hconverged =>
      dsimp only
      cases haccept : acceptable run.value with
      | false =>
        exact .passed (.unacceptable ho hmisses hcount hrun hconverged haccept)
      | true =>
        cases hfound : ofRun o run with
        | error e => exact .unusable hcount hfound
        | ok found =>
          obtain ⟨r, hr, rfl⟩ := ofRun_eq_ok hfound
          exact .accepted rfl ⟨ho, hmisses, hcount, hrun, hconverged, haccept,
            rfl, rfl, hr⟩

/-! ### The depths of a sweep -/

/-- A sweep through all depths in vain, with what is reported of it. -/
def FailedSweep (s : Synthesizer G R) (target : Mat (Amplitude R)) (g : G)
    (events : List (Event R)) (g' : G) : Prop :=
  ∃ passed, Follows (s.PassesOver target) g passed g' ∧
    passed.map Prod.fst = s.depths ∧
    events = passed.flatMap Prod.snd

/-- A sweep that ends with an accepted run: the depths before it were passed
over. -/
structure SweepsTo (s : Synthesizer G R) (target : Mat (Amplitude R)) (g : G)
    (passed : List (ℕ × List (Event R))) (g' : G) (o : Objective R)
    (missed : List (Minimum R R)) (g'' : G) (run : Minimum R R)
    (found : Synthesis R) (events : List (Event R)) : Prop where
  passesOver : Follows (s.PassesOver target) g passed g'
  accepts : s.Accepts target g' o missed g'' run found
  events_eq : events = passed.flatMap Prod.snd ++
    (missed.map (.run found.depth) ++ [.run found.depth run])

variable {s : Synthesizer G R} {target : Mat (Amplitude R)}
  {found : Synthesis R}

theorem passesOver_of_searchDepths {depths : List ℕ} {g : G}
    (h : (s.searchDepths target depths g).result = .ok none) :
    ∃ passed,
      Follows (s.PassesOver target) g passed
        (s.searchDepths target depths g).source ∧
      passed.map Prod.fst = depths ∧
      (s.searchDepths target depths g).events = passed.flatMap Prod.snd := by
  induction depths generalizing g with
  | nil => exact ⟨[], .nil g, rfl, rfl⟩
  | cons depth rest ih =>
    have htried := triedDepth_tryDepth s target depth g
    unfold searchDepths at h ⊢
    dsimp only at h ⊢
    generalize s.tryDepth target depth g = tried at htried h ⊢
    cases htried with
    | refused | broken | accepted | unusable => cases h
    | @passed events g' hpassed =>
      obtain ⟨passed, hfollows, hdepths, hevents⟩ := ih h
      refine ⟨(depth, events) :: passed, .cons hpassed hfollows, ?_, ?_⟩
      · rw [List.map_cons, hdepths]
      · rw [List.flatMap_cons, ← hevents]

theorem sweepsTo_of_searchDepths {depths : List ℕ} {g : G}
    (h : (s.searchDepths target depths g).result = .ok (some found)) :
    ∃ passed g' o missed g'' run later,
      s.SweepsTo target g passed g' o missed g'' run found
        (s.searchDepths target depths g).events ∧
      depths = passed.map Prod.fst ++ found.depth :: later := by
  -- induction on the depths still to be tried; all before the accepted one are
  -- passed over
  induction depths generalizing g with
  | nil => cases h
  | cons depth rest ih =>
    have htried := triedDepth_tryDepth s target depth g
    unfold searchDepths at h ⊢
    dsimp only at h ⊢
    generalize s.tryDepth target depth g = tried at htried h ⊢
    cases htried with
    | refused | broken | unusable => cases h
    | @accepted o missed run found' g' hdepth haccepts =>
      obtain rfl := Option.some.inj (Except.ok.inj h)
      subst hdepth
      exact ⟨[], g, o, missed, g', run, rest, ⟨.nil g, haccepts, rfl⟩, rfl⟩
    | @passed events g₁ hpassed =>
      obtain ⟨passed, g', o, missed, g'', run, later, hsweeps, hdepths⟩ := ih h
      refine ⟨(depth, events) :: passed, g', o, missed, g'', run, later,
        ⟨.cons hpassed hsweeps.passesOver, hsweeps.accepts, ?_⟩, ?_⟩
      · rw [List.flatMap_cons, List.append_assoc, ← hsweeps.events_eq]
      · rw [List.map_cons, List.cons_append, ← hdepths]

/-! ### The attempts -/

/-- What is reported of failed sweeps, after so many before them. -/
def failureEvents (attempts done : ℕ) (sweeps : List (List (Event R))) :
    List (Event R) :=
  (sweeps.zipIdx done).flatMap fun sweep =>
    sweep.1 ++ [.attemptFailed (sweep.2 + 1) attempts]

theorem sweepsTo_of_attempt {left done : ℕ} {g : G}
    (h : (s.attempt target left done g).result = .ok found) :
    ∃ sweeps g₁ passed g' o missed g'' run later events,
      Follows (s.FailedSweep target) g sweeps g₁ ∧ sweeps.length < left ∧
      s.SweepsTo target g₁ passed g' o missed g'' run found events ∧
      s.depths = passed.map Prod.fst ++ found.depth :: later ∧
      (s.attempt target left done g).events =
        failureEvents s.config.maxAttempts done sweeps ++ events := by
  -- induction on the attempts left; all before the last are failed sweeps
  induction left generalizing done g with
  | zero => cases h
  | succ left ih =>
    unfold attempt at h ⊢
    dsimp only at h ⊢
    split at h
    · cases h
    · next found' hfound =>
      obtain rfl := Except.ok.inj h
      obtain ⟨passed, g', o, missed, g'', run, later, hsweeps, hdepths⟩ :=
        sweepsTo_of_searchDepths hfound
      exact ⟨[], g, passed, g', o, missed, g'', run, later, _, .nil g,
        Nat.succ_pos left, hsweeps, hdepths, rfl⟩
    · next hfailed =>
      -- a sweep without a find is reported and followed by the next
      obtain ⟨before, hfollows, hall, hevents⟩ :=
        passesOver_of_searchDepths hfailed
      obtain ⟨sweeps, g₁, passed, g', o, missed, g'', run, later, events,
          hsweeps, hlength, hlast, hdepths, hlater⟩ := ih h
      refine ⟨_ :: sweeps, g₁, passed, g', o, missed, g'', run, later, events,
        .cons ⟨before, hfollows, hall, hevents⟩ hsweeps,
        Nat.succ_lt_succ hlength, hlast, hdepths, ?_⟩
      rw [hlater, failureEvents, failureEvents, List.zipIdx_cons,
        List.flatMap_cons]
      simp

/-! ### The number of runs -/

/-- The runs that an outcome stands for: one that broke off, or none. -/
def brokenRuns {α : Type} : Except SynthesisError α → ℕ
  | .error e => if e matches .fault _ then 1 else 0
  | .ok _ => 0

/-- The runs that were made: those that are reported, and one that broke off. -/
def runsMade {α : Type} (result : Except SynthesisError α)
    (events : List (Event R)) : ℕ :=
  events.countP Event.isRun + brokenRuns result

omit [Scalar R] in
@[simp] theorem countP_isRun_map_run (depth : ℕ) (runs : List (Minimum R R)) :
    (runs.map (Event.run depth)).countP Event.isRun = runs.length := by
  rw [List.countP_map]
  exact List.countP_eq_length.mpr fun _ _ => rfl

omit [Scalar R] in
theorem countP_isRun_le_runsMade {α : Type} (result : Except SynthesisError α)
    (events : List (Event R)) :
    events.countP Event.isRun ≤ runsMade result events :=
  Nat.le_add_right _ _

omit [Scalar R] in
theorem runsMade_append {α : Type} (result : Except SynthesisError α)
    (events later : List (Event R)) :
    runsMade result (events ++ later) =
      events.countP Event.isRun + runsMade result later := by
  rw [runsMade, runsMade, List.countP_append, Nat.add_assoc]

/-- Only a minimizer breaks off: a target that is refused does not, … -/
theorem ofTarget_ne_fault (target : Mat (Amplitude R)) (depth : ℕ)
    (fault : Fault) :
    Objective.ofTarget target depth ≠ .error (.fault fault) := by
  unfold Objective.ofTarget
  rcases Shape.ofMat_cases target with ⟨-, herror⟩ | ⟨-, shape, hshape⟩
  · rw [herror]
    exact fun h => by cases h
  · rw [hshape]
    cases isTemplateDepth depth <;> exact fun h => by cases h

/-- … and neither do angles of a wrong number. -/
theorem ofRun_ne_fault (o : Objective R) (run : Minimum R R) (fault : Fault) :
    ofRun o run ≠ .error (.fault fault) := by
  simp only [ofRun, Objective.evaluate, templateUnitary, checkTemplate]
  split
  · exact fun h => by cases h
  · split <;> exact fun h => by cases h

theorem runsMade_tryDepth_le (s : Synthesizer G R) (target : Mat (Amplitude R))
    (depth : ℕ) (g : G) :
    runsMade (s.tryDepth target depth g).result
      (s.tryDepth target depth g).events
      ≤ s.config.maxRestarts := by
  have htried := triedDepth_tryDepth s target depth g
  generalize s.tryDepth target depth g = tried at htried ⊢
  -- in every outcome the runs made are the restarts spent
  cases htried with
  | @refused e ho =>
    cases e with
    | fault cause => exact absurd ho (ofTarget_ne_fault target depth cause)
    | _ => exact Nat.zero_le _
  | broken hcount =>
    simp only [runsMade, countP_isRun_map_run]
    exact hcount
  | passed h =>
    cases h with
    | unconverged ho hmisses hcount =>
      simp only [runsMade, List.countP_append, countP_isRun_map_run]
      exact hcount.le
    | unacceptable ho hmisses hcount =>
      simp only [runsMade, List.countP_append, countP_isRun_map_run]
      exact hcount
  | accepted hdepth h =>
    simp only [runsMade, List.countP_append, countP_isRun_map_run]
    exact h.length_missed
  | @unusable o missed run e g' hcount hfound =>
    cases e with
    | fault cause => exact absurd hfound (ofRun_ne_fault o run cause)
    | _ =>
      simp only [runsMade, List.countP_append, countP_isRun_map_run]
      exact hcount

theorem runsMade_searchDepths_le (s : Synthesizer G R)
    (target : Mat (Amplitude R)) (depths : List ℕ) (g : G) :
    runsMade (s.searchDepths target depths g).result
      (s.searchDepths target depths g).events
      ≤ depths.length * s.config.maxRestarts := by
  induction depths generalizing g with
  | nil => exact Nat.zero_le _
  | cons depth rest ih =>
    have htry := runsMade_tryDepth_le s target depth g
    rw [List.length_cons, Nat.succ_mul, Nat.add_comm]
    unfold searchDepths
    dsimp only
    split
    · rw [runsMade_append]
      exact Nat.add_le_add ((countP_isRun_le_runsMade _ _).trans htry) (ih _)
    · exact htry.trans (Nat.le_add_right _ _)

theorem runsMade_attempt_le (s : Synthesizer G R) (target : Mat (Amplitude R))
    (left done : ℕ) (g : G) :
    runsMade (s.attempt target left done g).result
      (s.attempt target left done g).events
      ≤ left * (s.depths.length * s.config.maxRestarts) := by
  induction left generalizing done g with
  | zero => exact Nat.zero_le _
  | succ left ih =>
    have hsweep := runsMade_searchDepths_le s target s.depths g
    rw [Nat.succ_mul, Nat.add_comm (left * _), attempt]
    dsimp only
    split
    · next e he =>
      rw [he] at hsweep
      exact le_trans hsweep (Nat.le_add_right _ _)
    · next found hfound =>
      rw [hfound] at hsweep
      exact le_trans hsweep (Nat.le_add_right _ _)
    · rw [runsMade_append]
      refine Nat.add_le_add ((countP_isRun_le_runsMade _ _).trans hsweep) ?_
      -- the end of an attempt is no run
      exact ih (done + 1) _

/-! ### The whole search -/

/-- **A search returns the first acceptable depth and keeps to its budget**,
with any minimizers, any source and any target.  It makes no more runs than
attempts, depths and restarts allow.  If it finds something, the run that it
reports last converged to a residual without a full hundredth, the angles are
the coordinates of that run in hundredths, and their residual is the objective
at them.  The sweep of that run went through all lower depths before: at each of
them either all runs were made and none converged, or one converged and had a
full hundredth.  The sweeps before it went through all depths in the same
way. -/
theorem synthesize_first_acceptable (s : Synthesizer G R)
    (target : Mat (Amplitude R)) :
    runsMade (s.synthesize target).1 (s.synthesize target).2.2
      ≤ s.config.maxAttempts * min s.config.maxDepth 3 * s.config.maxRestarts ∧
    ∀ found, (s.synthesize target).1 = .ok found →
      ∃ (sweeps : List (List (Event R))) (passed : List (ℕ × List (Event R)))
        (missed : List (Minimum R R)) (run : Minimum R R) (o : Objective R)
        (g g' g'' : G),
        (s.synthesize target).2.2 =
          failureEvents s.config.maxAttempts 0 sweeps ++
          passed.flatMap Prod.snd ++ missed.map (.run found.depth) ++
            [.run found.depth run] ∧
        Follows (s.FailedSweep target) s.source sweeps g ∧
          sweeps.length < s.config.maxAttempts ∧
        Follows (s.PassesOver target) g passed g' ∧
        passed.map Prod.fst = List.range' 1 (found.depth - 1) ∧
        Objective.ofTarget target found.depth = .ok o ∧
        Follows (Misses (s.minimizerFor o.shape) o) g' missed g'' ∧
        missed.length < s.config.maxRestarts ∧
        ask (s.minimizerFor o.shape) o g'' = .ok run ∧
        run.converged = true ∧ (Scalar.floor (run.value * 100.0) == 0) = true ∧
        found.angles = run.point.map roundHundredth ∧
        o.evaluate found.angles = .ok found.residual := by
  have hdepths : s.depths.length = min s.config.maxDepth 3 := List.length_range'
  have hresult :
      (s.synthesize target).1 = (s.search target s.source).result := rfl
  have hreport :
      (s.synthesize target).2.2 = (s.search target s.source).events := rfl
  rw [hresult, hreport, search]
  rcases Shape.ofMat_cases target with ⟨-, herror⟩ | ⟨-, shape, hshape⟩
  · rw [herror]
    exact ⟨Nat.zero_le _, fun found h => by cases h⟩
  · rw [hshape]
    constructor
    · rw [← hdepths, Nat.mul_assoc]
      exact runsMade_attempt_le s target _ 0 s.source
    · intro found h
      obtain ⟨sweeps, g, passed, g', o, missed, g'', run, later, events,
          hsweeps, hlength, hlast, hsplit, hevents⟩ := sweepsTo_of_attempt h
      have haccepts := hlast.accepts
      refine ⟨sweeps, passed, missed, run, o, g, g', g'', ?_, hsweeps, hlength,
        hlast.passesOver, ?_, haccepts.objective, haccepts.misses,
        haccepts.length_missed, haccepts.run_eq,
        haccepts.converged, haccepts.residual, haccepts.angles_eq,
        haccepts.residual_eq⟩
      · simp only [hevents, hlast.events_eq, List.append_assoc]
      · -- the depths go up by one, so those before the accepted one are all
        -- that are smaller
        rw [depths, List.range'_eq_append_iff] at hsplit
        obtain ⟨k, -, hpassed, hrest⟩ := hsplit
        obtain ⟨hdepth, -⟩ := List.range'_eq_cons_iff.mp hrest.symm
        rw [hpassed, ← hdepth, Nat.mul_one, Nat.add_sub_cancel_left]

end Synthesizer

/-- A minimizer that takes zeros for a perfect fit, and converges on three
angles only. -/
noncomputable def Minimizer.picky : Minimizer ℝ where
  name := "picky"
  minimize _ x _ :=
    .ok ⟨List.replicate x.length 0, 0, decide (x.length = 3), 0, .other "picky"⟩

/-- A searcher with this minimizer and two starts at each depth. -/
noncomputable def Synthesizer.picky : Synthesizer Keystream ℝ :=
  .withMinimizers { Config.default with maxRestarts := 2 } .picky .picky

/-- On one qubit it passes over the first depth and stops at the second. -/
theorem Synthesizer.exists_synthesize_picky :
    ∃ found, (picky.synthesize FixedGate.x.matrix).1 = .ok found ∧
      found.depth = 2 := by
  let run : Minimum ℝ ℝ := ⟨[0, 0, 0], 0, true, 0, .other "picky"⟩
  obtain ⟨o, ho, hshape, hdepth⟩ : ∃ o : Objective ℝ,
      Objective.ofTarget FixedGate.x.matrix 2 = .ok o ∧ o.shape = .oneQubit ∧
        o.depth = 2 :=
    ⟨_, rfl, rfl, rfl⟩
  have hangles : o.dimension = 3 := by
    rw [Objective.dimension, hshape, hdepth]
    rfl
  have hrun : ∀ g : Keystream,
      (convergedRun .picky o 2 g).result = .ok (some run) := by
    intro g
    simp only [convergedRun, Minimizer.picky, length_drawMany, hangles]
    rfl
  obtain ⟨found, hfound⟩ : ∃ found, ofRun o run = .ok found :=
    exists_ofRun (hdepth ▸ by decide) (hdepth ▸ by decide) hangles.symm
  -- at depth one the minimizer does not converge
  have hfirst :
      (picky.tryDepth FixedGate.x.matrix 1 picky.source).result =
        .ok none := rfl
  -- at depth two it converges at once, whatever the state of the source
  have hsecond :
      ∀ g, (picky.tryDepth FixedGate.x.matrix 2 g).result =
        .ok (some found) := by
    intro g
    have hminimizer : picky.minimizerFor o.shape = .picky := by
      rw [hshape]
      rfl
    have hrestarts : picky.config.maxRestarts = 2 := rfl
    simp only [tryDepth, ho, hminimizer, hrestarts, hrun, run, acceptable_zero,
      if_true]
    rw [hfound]
    rfl
  have hsweep :
      (picky.searchDepths FixedGate.x.matrix picky.depths picky.source).result =
      .ok (some found) := by
    have hdepths : picky.depths = [1, 2, 3] := rfl
    simp only [hdepths, searchDepths, hfirst, hsecond]
  refine ⟨found, ?_, ?_⟩
  · show (picky.attempt FixedGate.x.matrix 10 0 picky.source).result = _
    simp only [attempt, hsweep]
  · obtain ⟨r, -, rfl⟩ := ofRun_eq_ok hfound
    exact hdepth

/-- The flip is searched for at the first depth in vain and found at the
second. -/
theorem Synthesizer.synthesize_first_acceptable_second_depth :
    ∃ (found : Synthesis ℝ) (passed : List (ℕ × List (Event ℝ)))
      (run : Minimum ℝ ℝ) (g g' : Keystream),
      (picky.synthesize FixedGate.x.matrix).1 = .ok found ∧
      found.depth = 2 ∧
      passed.map Prod.fst = [1] ∧
      Follows (picky.PassesOver FixedGate.x.matrix) g passed g' ∧
      (∃ earlier,
        (picky.synthesize FixedGate.x.matrix).2.2 = earlier ++ [.run 2 run]) ∧
      found.angles = run.point.map roundHundredth := by
  obtain ⟨found, hfound, hdepth⟩ := exists_synthesize_picky
  obtain ⟨sweeps, passed, missed, run, o, g, g', g'', hevents, -, -, hfollows,
      hpassed, -, -, -, -, -, -, hangles, -⟩ :=
        (synthesize_first_acceptable picky FixedGate.x.matrix).2 found hfound
  rw [hdepth] at hevents hpassed
  exact ⟨found, passed, run, g, g', hfound, hdepth, hpassed, hfollows,
    ⟨_, hevents⟩, hangles⟩

end Gimbal
