/-
Gimbal/Proofs/ExpansionMeaning.lean

What expansion does to the operator of a circuit.

For each occurrence the expander takes a decomposition (from its table, the gate
itself, or one that it has found) and binds it to the occurrence's qubits
(`expandOne_eq`).  The decompositions are judged alone, on a register of one or
two qubits: `Approximates d o ε` says that there `d` is within `ε` of the gate
of `o` up to a phase.  Phases and errors then add up along the input,

    ‖V - phase • S‖ ≤ ε₁ + ... + εₘ        (`expand_close_up_to_phase`),

for placing on distinct qubits keeps distances and neither the gates nor the
pieces enlarge.
-/
import Mathlib
import Gimbal.Proofs.Binding
import Gimbal.Proofs.SourceOperator

namespace Gimbal

open scoped Matrix.Norms.L2Operator

/-! ### The decompositions that are used -/

namespace Expander

variable {G R : Type} [Scalar R] [AngleSource G R]

/-- The decomposition of an occurrence that the table does not know. -/
def unlistedDecomposition (e : Expander G R) :
    Occurrence R → Except (CompileError R) (Decomposition R)
  | .parametrized name angle _ =>
    match Direction.ofLabel? name with
    | some .x => .ok [.rx angle]
    | some .z => .ok [.rz angle]
    | some .y => (e.decomposeTurn angle).1
    | none => .error (.unknownGate name)
  | .controlled name _ _ =>
    if name = FixedGate.cz.name then .ok [.cz] else .error (.unknownGate name)
  | .single name _ => .error (.unknownGate name)

/-- The decomposition that is bound for an occurrence. -/
def decompositionFor (e : Expander G R) (o : Occurrence R) :
    Except (CompileError R) (Decomposition R) :=
  match e.table.find? o.name with
  | some d => .ok d
  | none => e.unlistedDecomposition o

theorem expandUnlisted_eq (e : Expander G R) (o : Occurrence R) :
    (e.expandUnlisted o).1 = (e.unlistedDecomposition o).bind fun d =>
      bindSteps d o := by
  cases o with
  | single name q => rfl
  | controlled name c t =>
    rw [expandUnlisted, unlistedDecomposition]
    split
    · -- the phase flip needs no search, only two qubits
      show (if c = t then _ else _) = bindSteps [.cz] (.controlled name c t)
      by_cases hct : c = t <;>
        simp [bindSteps, Step.entangles, Step.bindControlled, hct]
    · rfl
  | parametrized name angle q =>
    rw [expandUnlisted, unlistedDecomposition]
    -- the rotation about y is the one that is searched for
    cases Direction.ofLabel? name with
    | none => rfl
    | some d => cases d <;> rfl

/-- Every occurrence is expanded by binding its decomposition. -/
theorem expandOne_eq (e : Expander G R) (o : Occurrence R) :
    (e.expandOne o).1 = (e.decompositionFor o).bind fun d => bindSteps d o := by
  rw [expandOne, decompositionFor]
  cases e.table.find? o.name with
  | some d => rfl
  | none => exact e.expandUnlisted_eq o

theorem expandOne_eq_ok_iff {e : Expander G R} {o : Occurrence R}
    {piece : Circuit R} :
    (e.expandOne o).1 = .ok piece ↔
      ∃ d, e.decompositionFor o = .ok d ∧ bindSteps d o = .ok piece := by
  rw [expandOne_eq]
  cases e.decompositionFor o with
  | error cause => simp [Except.bind]
  | ok d => simp [Except.bind]

/-- The rest of an input circuit is expanded by the expander as the first
occurrence left it. -/
theorem expand_cons_eq_ok_iff {e : Expander G R} {o : Occurrence R}
    {input : List (Occurrence R)} {c : Circuit R} :
    (e.expand (o :: input)).1 = .ok c ↔ ∃ piece rest,
      (e.expandOne o).1 = .ok piece ∧
      ((e.expandOne o).2.1.expand input).1 = .ok rest ∧ c = piece ++ rest := by
  rw [expand]
  rcases e.expandOne o with ⟨cause | piece, e', events⟩
  · simp
  · show ((e'.expand input).1.map (piece ++ ·)) = .ok c ↔ _
    rcases (e'.expand input).1 with cause | rest
    · simp [Except.map]
    · simp [Except.map, eq_comm]

/-- The occurrences of an input circuit with the decompositions that are bound
for them, up to the first one that has none. -/
def decompositions (e : Expander G R) : List (Occurrence R) →
      List (Occurrence R × Decomposition R)
  | [] => []
  | o :: rest =>
    match e.decompositionFor o with
    | .error _ => []
    | .ok d => (o, d) :: decompositions (e.expandOne o).2.1 rest

/-- One step of an expansion that succeeds. -/
theorem expand_cons_eq_ok {e : Expander G R} {o : Occurrence R}
    {input : List (Occurrence R)} {c : Circuit R}
    (h : (e.expand (o :: input)).1 = .ok c) :
    ∃ d piece rest,
      e.decompositions (o :: input) =
        (o, d) :: (e.expandOne o).2.1.decompositions input ∧
      bindSteps d o = .ok piece ∧
      ((e.expandOne o).2.1.expand input).1 = .ok rest ∧ c = piece ++ rest := by
  obtain ⟨piece, rest, hone, hrest, rfl⟩ := expand_cons_eq_ok_iff.mp h
  obtain ⟨d, hd, hbind⟩ := expandOne_eq_ok_iff.mp hone
  refine ⟨d, piece, rest, ?_, hbind, hrest, rfl⟩
  rw [decompositions, hd]

/-- Where expansion succeeds, every occurrence has a decomposition. -/
theorem map_fst_decompositions {e : Expander G R} {input : List (Occurrence R)}
    {c : Circuit R} (h : (e.expand input).1 = .ok c) :
    (e.decompositions input).map Prod.fst = input := by
  induction input generalizing e c with
  | nil => rfl
  | cons o input ih =>
    obtain ⟨d, piece, rest, hd, -, hrest, -⟩ := expand_cons_eq_ok h
    rw [hd, List.map_cons, ih hrest]

end Expander

/-! ### Pieces -/

variable {n : ℕ}

/-- Bound alone, on a register of its own qubits only, the decomposition has a
unitary that is within `ε` of the gate up to a phase. -/
def Approximates (d : Decomposition ℝ) (o : Occurrence ℝ) (ε : ℝ) : Prop :=
  ∃ (piece : Circuit ℝ) (W g : Mat (Amplitude ℝ)),
    bindSteps d o.alone = .ok piece ∧ piece.unitary o.qubits.length = some W ∧
    o.matrix? = some g ∧ ∃ phase : ℂ, ‖phase‖ = 1 ∧
      ‖W.complex o.qubits.length - phase • g.complex o.qubits.length‖ ≤ ε

/-- A bound piece is as close to its gate, anywhere in a register, as it is
alone. -/
theorem closeUpTo_piece {d : Decomposition ℝ} {o : Occurrence ℝ}
    {piece : Circuit ℝ} {ε : ℝ} (hbind : bindSteps d o = .ok piece)
    (hfit : o.Fits n) (happrox : Approximates d o ε) :
    o.qubits.Nodup ∧ Circuit.Fits n piece ∧
      CloseUpTo (unitary ℂ) ε (Circuit.complex n piece) (o.complex n) := by
  obtain ⟨alone, W, g, halone, hW, hg, phase, hphase, hnorm⟩ := happrox
  have hclose : CloseUpTo (unitary ℂ) ε (Circuit.complex o.qubits.length alone)
      (g.complex o.qubits.length) := by
    refine ⟨phase, mem_unitary_iff_norm_eq_one.mpr hphase, ?_⟩
    rwa [← Circuit.complex_of_unitary hW]
  -- alone, the same steps are bound to the first qubits
  obtain rfl := Except.ok.inj (halone.symm.trans (bindSteps_alone hbind))
  rw [bindSteps_eq] at hbind
  split at hbind
  · next hcond =>
    obtain rfl := Except.ok.inj hbind
    have hpos : 0 < o.qubits.length := by cases o <;> exact Nat.succ_pos _
    obtain ⟨hfits, hop⟩ := operator_bindControlled (K := Amplitude ℝ) hfit.2
      hcond.1 hpos
      (Nat.sub_lt hpos Nat.one_pos) d
    refine ⟨hcond.1, hfits, ?_⟩
    rw [Circuit.complex, hop, place_map _ _ _ (map_zero _),
      Occurrence.complex_eq_place hg hfit.2]
    exact hclose.place (wires_injective hfit.2 hcond.1)
  · cases hbind

/-- A single rotation is exact for a gate that is a multiple of it. -/
theorem approximates_rotation {o : Occurrence ℝ} {g : Mat (Amplitude ℝ)}
    {phase : ℂ} (axis : Axis) (θ : ℝ) (hlen : o.qubits.length = 1)
    (hg : o.matrix? = some g) (hphase : ‖phase‖ = 1)
    (hturn : axis.direction.turn θ = phase • g.complex 1) :
    Approximates [.rotation axis θ] o 0 := by
  have hbind :
      bindSteps [.rotation axis θ] o.alone = .ok [.rotation axis θ 0] := by
    rw [bindSteps_eq, Occurrence.qubits_alone, hlen]
    rfl
  have hfits : Circuit.Fits 1 [.rotation axis θ 0] :=
    Circuit.Fits.cons ((Entry.fits_rotation_iff axis θ).mpr Nat.one_pos)
      (by simp [Circuit.Fits])
  have hentry : (Entry.rotation axis θ 0).complex 1 = axis.direction.turn θ :=
    (congrArg (Matrix.map · _) (Entry.operator_rotation_zero axis θ)).trans
      (Direction.complex_rotation _ θ)
  obtain ⟨W, hW, hcomplex⟩ := hfits.exists_complex
  refine ⟨_, W, g, hbind, hlen ▸ hW, hg, phase, hphase, ?_⟩
  rw [hlen, hcomplex, Circuit.complex_cons, Circuit.complex_nil, one_mul,
    hentry, hturn, sub_self, norm_zero]

/-- A phase flip stands for itself. -/
theorem approximates_cz (c t : ℕ) :
    Approximates [.cz] (.controlled FixedGate.cz.name c t) 0 := by
  have hfits : Circuit.Fits 2 [.cz (R := ℝ) 0 1] :=
    Circuit.Fits.cons (Entry.fits_cz_iff.mpr ⟨Nat.two_pos, Nat.one_lt_two⟩)
      (by simp [Circuit.Fits])
  have hentry :
      (Entry.cz 0 1 : Entry ℝ).complex 2 =
        (Mat.controlledZ : Mat (Amplitude ℝ)).complex 2 :=
    congrArg (Matrix.map · _) Entry.operator_cz_zero_one
  obtain ⟨W, hW, hcomplex⟩ := hfits.exists_complex
  refine ⟨_, W, .controlledZ, rfl, hW, rfl, 1, norm_one, ?_⟩
  show ‖W.complex 2 - (1 : ℂ) •
    (Mat.controlledZ : Mat (Amplitude ℝ)).complex 2‖ ≤ 0
  rw [hcomplex, Circuit.complex_cons, Circuit.complex_nil, one_mul, hentry,
    one_smul, sub_self, norm_zero]

/-! ### Whole circuits -/

theorem closeUpTo_expand {G : Type} [AngleSource G ℝ] {e : Expander G ℝ}
    {input : List (Occurrence ℝ)} {c : Circuit ℝ} {errors : List ℝ}
    (hexpand : (e.expand input).1 = .ok c) (hfits : ∀ o ∈ input, o.Fits n)
    (hpieces :
      List.Forall₂ (fun p ε => Approximates p.2 p.1 ε) (e.decompositions input)
        errors) :
    Circuit.Fits n c ∧
      CloseUpTo (unitary ℂ) errors.sum (Circuit.complex n c)
        (sourceComplex n input) := by
  -- the expander changes from one occurrence to the next, as it remembers what
  -- it has found
  induction input generalizing e c errors with
  | nil =>
    obtain rfl : [] = c := Except.ok.inj hexpand
    obtain rfl : errors = [] := List.forall₂_nil_left_iff.mp hpieces
    rw [List.sum_nil, Circuit.complex_nil, sourceComplex_nil]
    exact ⟨by simp [Circuit.Fits], CloseUpTo.refl _ _⟩
  | cons o input ih =>
    obtain ⟨d, piece, rest, hd, hbind, hrest, rfl⟩ :=
      Expander.expand_cons_eq_ok hexpand
    obtain ⟨hfit, hfits⟩ := List.forall_mem_cons.mp hfits
    rw [hd] at hpieces
    obtain ⟨ε, errors, hfirst, hlater, rfl⟩ :=
      List.forall₂_cons_left_iff.mp hpieces
    obtain ⟨hnd, hpiece, hclose⟩ := closeUpTo_piece hbind hfit hfirst
    obtain ⟨hrestfits, hrestclose⟩ := ih hrest hfits hlater
    refine ⟨hpiece.append hrestfits, ?_⟩
    rw [Circuit.complex_append, sourceComplex_cons, List.sum_cons, add_comm]
    exact hrestclose.mul le_rfl (Circuit.norm_complex_le_one hrestfits)
      (Occurrence.norm_complex_le_one hfit hnd) hclose

/-- **Expansion is correct where its pieces are**: if each decomposition that is
used, alone on its qubits, is within some distance of its gate up to a phase,
then the expanded circuit has a unitary wherever the input has one, within the
sum of these distances of it up to a phase. -/
theorem expand_close_up_to_phase {G : Type} [AngleSource G ℝ] (e : Expander G ℝ)
    (input : List (Occurrence ℝ)) (n : ℕ) (c : Circuit ℝ)
    (S : Mat (Amplitude ℝ)) (errors : List ℝ)
    (hexpand : (e.expand input).1 = .ok c)
    (hsource : sourceUnitary input n = some S)
    (hpieces :
      List.Forall₂ (fun p ε => Approximates p.2 p.1 ε) (e.decompositions input)
        errors) :
    (e.decompositions input).map Prod.fst = input ∧
      ∃ V : Mat (Amplitude ℝ), c.unitary n = some V ∧
        ∃ phase : ℂ, ‖phase‖ = 1 ∧
          ‖V.complex n - phase • S.complex n‖ ≤ errors.sum := by
  have hfits := (sourceUnitary_eq_some_iff.mp hsource).1
  obtain ⟨hc, phase, hphase, hnorm⟩ := closeUpTo_expand hexpand hfits hpieces
  obtain ⟨V, hV, hcomplex⟩ := hc.exists_complex
  refine ⟨Expander.map_fst_decompositions hexpand, V, hV, phase, ?_, ?_⟩
  · exact mem_unitary_iff_norm_eq_one.mp hphase
  · rwa [hcomplex, complex_of_sourceUnitary hsource]

/-- A flip that the table writes as half a turn, and two gates that stand for
themselves. -/
theorem expand_close_up_to_phase_flip :
    ∃ (e : Expander Keystream ℝ) (input : List (Occurrence ℝ)) (c : Circuit ℝ)
      (S V : Mat (Amplitude ℝ)),
      e = .ofTable (Table.empty.insert "X" [.rx Real.pi]) (.ofConfig .default) ∧
      input = [.single "X" 1, .controlled "CZ" 1 0, .parametrized "Rz" 1 0] ∧
      (e.expand input).1 = .ok c ∧ sourceUnitary input 2 = some S ∧
      c.unitary 2 = some V ∧
      ∃ phase : ℂ, ‖phase‖ = 1 ∧ ‖V.complex 2 - phase • S.complex 2‖ ≤ 0 := by
  let e : Expander Keystream ℝ :=
    .ofTable (Table.empty.insert "X" [.rx Real.pi]) (.ofConfig .default)
  let input : List (Occurrence ℝ) :=
    [.single "X" 1, .controlled "CZ" 1 0, .parametrized "Rz" 1 0]
  have hexpand :
      (e.expand input).1 = .ok [.rx Real.pi 1, .cz 1 0, .rz 1 0] := rfl
  have hdecs : e.decompositions input
      = [(.single "X" 1, [.rx Real.pi]), (.controlled "CZ" 1 0, [.cz]),
        (.parametrized "Rz" 1 0, [.rz 1])] := rfl
  -- a half turn about x is the flip up to a quarter of a phase
  have hflip :
      Direction.x.turn Real.pi =
        (-Complex.I) • FixedGate.x.matrix.complex 1 := by
    rw [FixedGate.complex_flip.1, Direction.turn_eq, Real.cos_pi_div_two,
      Real.sin_pi_div_two]
    simp
  have hpieces :
      List.Forall₂ (fun p ε => Approximates p.2 p.1 ε) (e.decompositions input)
      [0, 0, 0] := by
    rw [hdecs]
    refine .cons ?_ (.cons (approximates_cz 1 0) (.cons ?_ .nil))
    · exact approximates_rotation .x Real.pi rfl rfl (by simp) hflip
    · refine approximates_rotation .z 1 rfl rfl norm_one ?_
      rw [one_smul, Direction.complex_rotation]
      rfl
  have hfits : ∀ o ∈ input, o.Fits 2 := by
    simp only [input, List.forall_mem_cons]
    exact ⟨⟨⟨_, rfl⟩, by decide⟩, ⟨⟨_, rfl⟩, by decide⟩,
      ⟨⟨_, rfl⟩, by simp [Occurrence.qubits]⟩, by simp⟩
  obtain ⟨S, hS, hmat⟩ :=
    Mat.exists_toMatrix_eq (Mat.product (Occurrence.operator 2) input)
  have hsource : sourceUnitary input 2 = some S :=
    sourceUnitary_eq_some_iff.mpr ⟨hfits, hS, hmat⟩
  obtain ⟨-, V, hV, phase, hphase, hnorm⟩ :=
    expand_close_up_to_phase e input 2 _ S [0, 0, 0] hexpand hsource hpieces
  refine ⟨e, input, _, S, V, rfl, rfl, hexpand, hsource, hV, phase, hphase, ?_⟩
  simpa using hnorm

end Gimbal
