/-
Gimbal/Proofs/Population.lean

What filling a table does to it, and the table that filling makes of the usual
one.

Filling inserts an entry for every gate that the table misses, or fails
(`fill_eq_ok_iff`), however the outcomes of the searches are gathered.  Such an
entry was searched for, so it joins two qubits exactly if its gate has two
(`decomposeFixed_joins`).

Filled with the gates on one qubit, the usual table is `Standard`: these gates
have entries that join nothing, the controlled flip has one that does, and there
are no other names.
-/
import Mathlib
import Gimbal.Proofs.SynthesisOutcome
import Gimbal.Populate

namespace Gimbal

/-! ### Traversals -/

theorem exists_mem_of_forall₂ {α β : Type} {r : α → β → Prop} {as : List α}
    {bs : List β} (h : List.Forall₂ r as bs) {b : β} (hb : b ∈ bs) :
    ∃ a ∈ as, r a b := by
  induction h with
  | nil => cases hb
  | cons hfirst _ ih =>
    rcases List.mem_cons.mp hb with rfl | hb
    · exact ⟨_, List.mem_cons_self, hfirst⟩
    · obtain ⟨a, ha, hr⟩ := ih hb
      exact ⟨a, List.mem_cons_of_mem _ ha, hr⟩

/-! ### Names and arities -/

namespace FixedGate

theorem ofName?_name (g : FixedGate) : ofName? g.name = some g := by
  cases g <;> rfl

theorem name_injective : Function.Injective name := by
  intro f g h
  have heq : some f = some g := by rw [← ofName?_name f, h, ofName?_name]
  exact Option.some.inj heq

theorem arity_of_mem_singleQubit {g : FixedGate} (h : g ∈ singleQubit) :
    g.arity = 1 := by
  revert h
  cases g <;> decide

end FixedGate

variable {R : Type} [Scalar R]

/-! ### Entries that were searched for -/

theorem FixedGate.shape_matrix_eq_iff (g : FixedGate) :
    Shape.ofMat (g.matrix : Mat (Amplitude R)) = .ok .twoQubit ↔
      g.arity = 2 := by
  cases g <;>
    simp [Shape.ofMat, matrix, arity, Mat.identity, Mat.square, Mat.controlledX,
      Mat.controlledZ]

theorem decomposeFixed_joins {config : Config R} {position : ℕ} {g : FixedGate}
    {d : Decomposition R} (h : decomposeFixed config position g = .ok d) :
    d.any Step.entangles = true ↔ g.arity = 2 := by
  simp only [decomposeFixed] at h
  split at h
  · cases h
  · next s hs =>
    obtain ⟨steps, hsteps, hjoins⟩ := Synthesizer.exists_steps_of_synthesize hs
    rw [hsteps] at h
    obtain rfl := Except.ok.inj h
    rw [hjoins, FixedGate.shape_matrix_eq_iff]

/-! ### Gathering -/

/-- All results in order, or one of the errors: what searches that are made side
by side come to, in whatever order they end. -/
def Gather.Lawful (gather : Gather R) : Prop :=
  ∀ outcomes,
    (∃ found, outcomes = found.map .ok ∧ gather outcomes = .ok found) ∨
    ∃ e, .error e ∈ outcomes ∧ gather outcomes = .error e

omit [Scalar R] in
theorem Gather.Lawful.eq_ok_iff {gather : Gather R} (h : gather.Lawful)
    {outcomes : List (Except (CompileError R) (String × Decomposition R))}
    {found : List (String × Decomposition R)} :
    gather outcomes = .ok found ↔ outcomes = found.map .ok := by
  rcases h outcomes with ⟨found', rfl, hok⟩ | ⟨e, he, herror⟩
  · rw [hok, Except.ok.injEq]
    exact (List.map_injective_iff.mpr fun _ _ => Except.ok.inj).eq_iff.symm
  · rw [herror]
    refine iff_of_false (by simp) ?_
    rintro rfl
    simp at he

omit [Scalar R] in
theorem lawful_gatherInOrder : (gatherInOrder : Gather R).Lawful := by
  intro outcomes
  induction outcomes with
  | nil => exact Or.inl ⟨[], rfl, rfl⟩
  | cons outcome outcomes ih =>
    have hcons :
        (gatherInOrder (outcome :: outcomes) : Except (CompileError R) _) = do
        return (← outcome) :: (← gatherInOrder outcomes) := List.mapM_cons
    rw [hcons]
    cases outcome with
    | error e => exact Or.inr ⟨e, List.mem_cons_self, rfl⟩
    | ok entry =>
      rcases ih with ⟨found, rfl, hok⟩ | ⟨e, he, herror⟩
      · exact Or.inl ⟨entry :: found, rfl, by rw [hok]; rfl⟩
      · exact Or.inr ⟨e, List.mem_cons_of_mem _ he, by rw [herror]; rfl⟩

namespace Table

/-! ### Filling -/

omit [Scalar R] in
/-- Of several entries for one name the last one counts, and any of them before
the table's own. -/
theorem find?_insertAll (t : Table R)
    (entries : List (String × Decomposition R)) (name : String) :
    (t.insertAll entries).find? name =
      (entries.reverse.lookup name).or (t.find? name) := by
  -- induction on what is inserted; the later of two entries of one name stays
  induction entries generalizing t with
  | nil => rfl
  | cons p entries ih =>
    obtain ⟨other, d⟩ := p
    show ((t.insert other d).insertAll entries).find? name = _
    rw [ih, List.reverse_cons, List.lookup_append, Option.or_assoc]
    congr 1
    by_cases h : name = other
    · subst h
      rw [find?_insert_self, lookup_cons_self, Option.some_or]
    · rw [find?_insert_of_ne t h, lookup_cons_of_ne h, List.lookup_nil,
        Option.none_or]

omit [Scalar R] in
theorem mem_or_find?_of_insertAll {t : Table R}
    {entries : List (String × Decomposition R)} {name : String}
    {d : Decomposition R} (h : (t.insertAll entries).find? name = some d) :
    (name, d) ∈ entries ∨ t.find? name = some d := by
  rw [find?_insertAll] at h
  rcases Option.or_eq_some_iff.mp h with hnew | ⟨-, hold⟩
  · obtain ⟨before, after, hsplit, -⟩ := List.lookup_eq_some_iff.mp hnew
    refine Or.inl (List.mem_reverse.mp ?_)
    rw [hsplit]
    exact List.mem_append_right before List.mem_cons_self
  · exact Or.inr hold

/-- Filling succeeds where every missing gate has a decomposition. -/
theorem fill_eq_ok_iff {gather : Gather R} (hgather : gather.Lawful)
    {t t' : Table R} {gates : List FixedGate} {config : Config R} :
    t.fill gather gates config = (.ok (), t') ↔ ∃ found,
      List.Forall₂ (fun p entry => p.1.name = entry.1 ∧
        decomposeFixed config p.2 p.1 = .ok entry.2)
        (t.missing gates) found ∧ t' = t.insertAll found := by
  have hone : ∀ (p : FixedGate × ℕ) (entry : String × Decomposition R),
      (decomposeFixed config p.2 p.1).map (fun steps => (p.1.name, steps)) =
        .ok entry ↔
        p.1.name = entry.1 ∧ decomposeFixed config p.2 p.1 = .ok entry.2 := by
    rintro p ⟨name, d⟩
    cases decomposeFixed config p.2 p.1 <;> simp [Except.map]
  have hfound : ∀ found, gather (t.searches gates config) = .ok found ↔
      List.Forall₂ (fun p entry => p.1.name = entry.1 ∧
        decomposeFixed config p.2 p.1 = .ok entry.2)
        (t.missing gates) found := by
    intro found
    -- all outcomes are `ok` where each search gives the steps found for it
    simp only [← hone]
    rw [hgather.eq_ok_iff, searches, ← List.forall₂_eq_eq_eq,
      List.forall₂_map_left_iff, List.forall₂_map_right_iff]
  simp only [← hfound, fill]
  cases gather (t.searches gates config) with
  | error e => simp
  | ok found => simp [eq_comm]

theorem populate_eq_ok_iff {t t' : Table R} {gates : List FixedGate}
    {config : Config R} :
    t.populate gates config = .ok t' ↔ ∃ found,
      List.Forall₂ (fun p entry => p.1.name = entry.1 ∧
        decomposeFixed config p.2 p.1 = .ok entry.2)
        (t.missing gates) found ∧ t' = t.insertAll found := by
  rw [← fill_eq_ok_iff lawful_gatherInOrder, populate]
  split
  · next e table hfill => rw [hfill]; simp
  · next filled hfill => rw [hfill]; simp

/-! ### The usual table, filled -/

/-- The names are those of the controlled flip and the gates on one qubit, and
an entry joins two qubits if its gate has two. -/
structure Standard (t : Table R) : Prop where
  names : ∀ name, (∃ d, t.find? name = some d) ↔
    ∃ g ∈ FixedGate.cnot :: FixedGate.singleQubit, g.name = name
  joins : ∀ {g : FixedGate} {d : Decomposition R}, t.find? g.name = some d →
    (d.any Step.entangles = true ↔ g.arity = 2)

theorem find?_withDefaults_eq_some_iff {name : String} {d : Decomposition R} :
    withDefaults.find? name = some d ↔ name = FixedGate.cnot.name ∧
      d = controlledFlip := by
  unfold withDefaults
  by_cases h : name = FixedGate.cnot.name
  · subst h
    simp [eq_comm]
  · rw [find?_insert_of_ne empty h]
    simp [h, empty, find?]

/-- One entry for each gate on one qubit makes the usual table a standard
one. -/
theorem standard_insertAll {found : List (String × Decomposition R)}
    (hnames : found.map Prod.fst = FixedGate.singleQubit.map FixedGate.name)
    (hjoins : ∀ entry ∈ found, entry.2.any Step.entangles = false) :
    (withDefaults.insertAll found).Standard := by
  have hmem : ∀ name d, (name, d) ∈ found → ∃ g ∈ FixedGate.singleQubit,
      g.name = name := by
    intro name d h
    apply List.mem_map.mp
    rw [← hnames]
    exact List.mem_map_of_mem h
  constructor
  · intro name
    constructor
    · rintro ⟨d, hd⟩
      -- a decomposition is one of the new ones or the usual one of CNOT
      rcases mem_or_find?_of_insertAll hd with hnew | hold
      · obtain ⟨g, hg, hname⟩ := hmem name d hnew
        exact ⟨g, List.mem_cons_of_mem _ hg, hname⟩
      · exact ⟨.cnot, List.mem_cons_self,
          (find?_withDefaults_eq_some_iff.mp hold).1.symm⟩
    · rintro ⟨g, hg, rfl⟩
      apply Option.isSome_iff_exists.mp
      rw [find?_insertAll, Option.isSome_or, Bool.or_eq_true]
      -- and every name has one: CNOT from the start, the others by insertion
      rcases List.mem_cons.mp hg with rfl | hg
      · refine Or.inr ?_
        rw [find?_withDefaults_eq_some_iff.mpr ⟨rfl, rfl⟩]
        rfl
      · have hname : g.name ∈ found.map Prod.fst :=
          hnames ▸ List.mem_map_of_mem hg
        obtain ⟨entry, hentry, heq⟩ := List.mem_map.mp hname
        exact Or.inl (List.lookup_isSome_iff.mpr
          ⟨entry, List.mem_reverse.mpr hentry, beq_iff_eq.mpr heq.symm⟩)
  · intro g d hd
    -- a name tells its gate apart, so the arity is the gate's
    rcases mem_or_find?_of_insertAll hd with hnew | hold
    · obtain ⟨g', hg', hname⟩ := hmem _ d hnew
      rw [hjoins _ hnew, ← FixedGate.name_injective hname,
        FixedGate.arity_of_mem_singleQubit hg']
      decide
    · obtain ⟨hname, rfl⟩ := find?_withDefaults_eq_some_iff.mp hold
      rw [FixedGate.name_injective hname]
      exact iff_of_true rfl rfl

/-- **Filling makes the usual table a standard one.** -/
theorem standard_populate {config : Config R} {t : Table R}
    (h : withDefaults.populate FixedGate.singleQubit config = .ok t) :
    t.Standard := by
  obtain ⟨found, hfound, rfl⟩ := populate_eq_ok_iff.mp h
  -- the usual table misses all of them
  have hmissing : (withDefaults : Table R).missing FixedGate.singleQubit =
      FixedGate.singleQubit.zipIdx := rfl
  rw [hmissing] at hfound
  apply standard_insertAll
  · have hnames :
        List.Forall₂ (· = ·)
          (FixedGate.singleQubit.zipIdx.map fun p => p.1.name)
        (found.map Prod.fst) :=
      List.forall₂_map_left_iff.mpr
        (List.forall₂_map_right_iff.mpr (hfound.imp fun _ _ h => h.1))
    rw [List.forall₂_eq_eq_eq] at hnames
    exact hnames.symm
  · intro entry hentry
    obtain ⟨p, hp, -, hsteps⟩ := exists_mem_of_forall₂ hfound hentry
    have harity : p.1.arity = 1 :=
      FixedGate.arity_of_mem_singleQubit (List.fst_mem_of_mem_zipIdx hp)
    rw [Bool.eq_false_iff, Ne, decomposeFixed_joins hsteps, harity]
    decide

end Table

end Gimbal
