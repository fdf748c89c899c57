/-
Gimbal/Proofs/Containment.lean

A compiled circuit stays inside its input.  It uses no qubit that does not occur
there, and it joins two qubits only where some occurrence has them as its
control and its target, in this order and distinct:

    compile input table searcher = ok c    gives    every entry of c is `Within` the input.

The property is made where decompositions are bound and then only kept.  Binding
refuses two equal qubits and a phase flip on one; reduction drops, moves and
merges entries, and merging changes nothing but an angle.  Tables, searchers and
numbers play no part in it.

Hence a compiled circuit has a unitary on every register that holds the qubits
of its input (`compile_within_input`).
-/
import Mathlib
import Gimbal.Proofs.Definedness
import Gimbal.Proofs.ExpansionMeaning
import Gimbal.Compile

namespace Gimbal

variable {G R : Type}

/-! ### Entries inside an input circuit -/

namespace Entry

/-- A rotation is inside an input circuit if its qubit occurs there; a phase
flip, if its qubits differ and are the control and the target of an
occurrence. -/
def Within (input : List (Occurrence R)) : Entry R → Prop
  | .rotation _ _ q => ∃ o ∈ input, q ∈ o.qubits
  | .cz control target =>
    control ≠ target ∧ ∃ name, .controlled name control target ∈ input

theorem Within.mono {input more : List (Occurrence R)} {e : Entry R}
    (h : e.Within input) (hsub : input ⊆ more) : e.Within more := by
  cases e with
  | rotation axis angle q =>
    obtain ⟨o, ho, hq⟩ := h
    exact ⟨o, hsub ho, hq⟩
  | cz control target =>
    obtain ⟨hne, name, ho⟩ := h
    exact ⟨hne, name, hsub ho⟩

theorem Within.exists_mem_qubits {input : List (Occurrence R)} {e : Entry R}
    (h : e.Within input) {q : ℕ} (hq : q ∈ e.qubits) :
    ∃ o ∈ input, q ∈ o.qubits := by
  cases e with
  | rotation axis angle p =>
    obtain rfl : q = p := List.mem_singleton.mp hq
    exact h
  | cz control target =>
    obtain ⟨-, name, ho⟩ := h
    exact ⟨_, ho, hq⟩

end Entry

/-! ### Expansion -/

/-- A bound decomposition is inside the occurrence that it is bound to. -/
theorem within_of_bindSteps {d : Decomposition R} {o : Occurrence R}
    {piece : Circuit R} (h : bindSteps d o = .ok piece) :
    ∀ e ∈ piece, e.Within [o] := by
  rw [bindSteps_eq] at h
  split at h
  · next hcond =>
    obtain ⟨hnd, hjoin⟩ := hcond
    obtain rfl := Except.ok.inj h
    intro e he
    obtain ⟨s, hs, rfl⟩ := List.mem_map.mp he
    cases s with
    | rotation axis angle =>
      -- rotations act on the last qubit
      refine ⟨o, List.mem_singleton_self o, ?_⟩
      cases o <;> simp [Occurrence.qubits]
    | cz =>
      -- steps that hold a phase flip are bound to two qubits only
      have hany : d.any Step.entangles = true :=
        List.any_eq_true.mpr ⟨.cz, hs, rfl⟩
      have hlen : o.qubits.length = 2 := hjoin.mp hany
      cases o with
      | single name q => simp [Occurrence.qubits] at hlen
      | parametrized name angle q => simp [Occurrence.qubits] at hlen
      | controlled name control target =>
        have hne : control ≠ target := by simpa [Occurrence.qubits] using hnd
        exact ⟨hne, name, List.mem_singleton_self _⟩
  · cases h

variable [Scalar R] [AngleSource G R]

theorem within_of_expand {e : Expander G R} {input : List (Occurrence R)}
    {c : Circuit R} (h : (e.expand input).1 = .ok c) :
    ∀ entry ∈ c, entry.Within input := by
  induction input generalizing e c with
  | nil =>
    obtain rfl : [] = c := Except.ok.inj h
    intro entry hentry
    cases hentry
  | cons o input ih =>
    obtain ⟨piece, rest, hone, hrest, rfl⟩ :=
      Expander.expand_cons_eq_ok_iff.mp h
    obtain ⟨d, -, hbind⟩ := Expander.expandOne_eq_ok_iff.mp hone
    intro entry hentry
    rcases List.mem_append.mp hentry with hpiece | hlater
    · apply (within_of_bindSteps hbind entry hpiece).mono
      simp
    · apply (ih hrest entry hlater).mono
      exact List.subset_cons_self o input

/-! ### Compilation -/

/-- A compilation that succeeds is a reduced expansion. -/
theorem compile_eq_ok_iff {input : List (Occurrence R)} {table : Table R}
    {searcher : Synthesizer G R} {c : Circuit R} :
    (compile input table searcher).1 = .ok c ↔
      ∃ expanded,
        ((Expander.ofTable table searcher).expand input).1 = .ok expanded ∧
        c = reduce allRules expanded := by
  rw [compile]
  rcases (Expander.ofTable table searcher).expand input with
      ⟨cause | expanded, e, events⟩
  · simp
  · simp [eq_comm]

theorem within_of_compile {input : List (Occurrence R)} {table : Table R}
    {searcher : Synthesizer G R} {c : Circuit R}
    (h : (compile input table searcher).1 = .ok c) :
    ∀ e ∈ c, e.Within input := by
  obtain ⟨expanded, hexpand, rfl⟩ := compile_eq_ok_iff.mp h
  have hkeep : RulesKeep allRules fun c : Circuit R => ∀ e ∈ c,
      e.Within input :=
    rulesKeep_forall_mem (fun axis x y q h _ => h) allRules
  exact hkeep.reduce (within_of_expand hexpand)

/-- **A compiled circuit stays inside its input**, for every table and every
searcher: its entries act on qubits of the input, each of its phase flips joins
distinct qubits that are the control and the target of an occurrence, and it has
a unitary on every register that holds the qubits of the input. -/
theorem compile_within_input (input : List (Occurrence R)) (table : Table R)
    (searcher : Synthesizer G R) (c : Circuit R)
    (h : (compile input table searcher).1 = .ok c) :
    (∀ e ∈ c, ∀ q ∈ e.qubits, ∃ o ∈ input, q ∈ o.qubits) ∧
      (∀ control target, Entry.cz control target ∈ c →
        control ≠ target ∧ ∃ name,
          Occurrence.controlled name control target ∈ input) ∧
      ∀ n, (∀ o ∈ input, ∀ q ∈ o.qubits, q < n) →
        ∃ U : Mat (Amplitude R), c.unitary n = some U := by
  have hwithin := within_of_compile h
  refine ⟨?_, ?_, ?_⟩
  · intro e he q hq
    exact (hwithin e he).exists_mem_qubits hq
  · intro control target hmem
    exact hwithin _ hmem
  · intro n hn
    apply Circuit.exists_unitary_iff.mpr
    intro e he q hq
    obtain ⟨o, ho, hqo⟩ := (hwithin e he).exists_mem_qubits hq
    exact hn o ho q hqo

/-- A controlled flip, a rotation, and a gate that only the table knows. -/
theorem compile_within_input_far_apart :
    ∃ (input : List (Occurrence ℝ)) (table : Table ℝ) (c : Circuit ℝ)
      (U : Mat (Amplitude ℝ)),
      input =
        [.controlled "CNOT" 6 1, .parametrized "Rx" 0.5 4,
          .controlled "twist" 1 4] ∧
      table = Table.withDefaults.insert "twist" [.cz, .rx 1, .cz] ∧
      (compile input table (Synthesizer.ofConfig .default)).1 = .ok c ∧
      (∀ e ∈ c, ∀ q ∈ e.qubits, q = 6 ∨ q = 1 ∨ q = 4) ∧
      (∀ control target, Entry.cz control target ∈ c →
        (control, target) = (6, 1) ∨ (control, target) = (1, 4)) ∧
      c.unitary 7 = some U := by
  let input : List (Occurrence ℝ) :=
    [.controlled "CNOT" 6 1, .parametrized "Rx" 0.5 4, .controlled "twist" 1 4]
  let table : Table ℝ := Table.withDefaults.insert "twist" [.cz, .rx 1, .cz]
  have hexpand :
      ((Expander.ofTable table (Synthesizer.ofConfig .default)).expand input).1
      = .ok (Table.controlledFlip.map (Step.bindControlled 6 1) ++
          [.rx 0.5 4, .cz 1 4, .rx 1 4, .cz 1 4]) := rfl
  have hcompile := compile_eq_ok_iff.mpr ⟨_, hexpand, rfl⟩
  obtain ⟨hqubits, hflips, hunitary⟩ :=
    compile_within_input input table _ _ hcompile
  obtain ⟨U, hU⟩ := hunitary 7 (by simp [input, Occurrence.qubits])
  refine ⟨input, table, _, U, rfl, rfl, hcompile, ?_, ?_, hU⟩
  · intro e he q hq
    obtain ⟨o, ho, hqo⟩ := hqubits e he q hq
    simp only [input, List.mem_cons, List.not_mem_nil, or_false] at ho
    rcases ho with rfl | rfl | rfl <;> simp [Occurrence.qubits] at hqo <;> omega
  · intro control target hmem
    obtain ⟨-, name, ho⟩ := hflips control target hmem
    simp only [input, List.mem_cons, List.not_mem_nil, or_false] at ho
    rcases ho with ho | ho | ho <;> cases ho <;> simp

end Gimbal
