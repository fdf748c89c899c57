/-
Gimbal/Proofs/Rerun.lean

A saved table reproduces the run.

A run has two stages that touch files: the table is loaded, completed and saved
(`completeTable`), and then the circuit is read (`readCircuit`).  What is
printed depends on the table, the circuit, the seed and the check, and on
nothing else (`report`): the source of random angles starts from the seed
whether or not gates were synthesized before.

A second run that loads the saved table gets the table that was saved, because
its angles are finite and so have texts.  It is complete, so completing it is no
work and changes nothing.  The circuit is read from the same files, since
reading does not change them.
-/
import Mathlib
import Gimbal.Command.Run
import Gimbal.Files.Tree
import Gimbal.Proofs.FiniteAngles
import Gimbal.Proofs.TableFilling

namespace Gimbal

/-! ### Files that keep what is written -/

/-- Reading changes nothing, and what was written is what is read. -/
structure Files.Faithful {σ : Type} (files : Files (StateM σ)) : Prop where
  read_state : ∀ path s, ((files.read path).run s).2 = s
  read_write : ∀ {path text s s'},
    (files.write path text).run s = (.ok (), s') →
    ((files.read path).run s').1 = .ok text

/-- A name without slashes is a path of one part. -/
theorem Path.ofString_of_plain {name : String}
    (hlength : name.isEmpty = false ∧ ¬ limit ≤ name.utf8ByteSize)
    (hslash : name.startsWith "/" = false ∧ name.endsWith "/" = false)
    (hsplit : name.splitOn "/" = [name]) :
    ofString name = .ok ⟨false, [name], false⟩ := by
  simp [ofString, hlength, hslash, hsplit]

theorem FileTree.run_write (path text : String) (d : FileTree) :
    (access.write path text).run d = match d.write path text with
      | .error e => (.error e, d)
      | .ok d' => (.ok (), d') := by
  cases h : d.write path text <;> simp [access, h] <;> rfl

theorem FileTree.faithful_access : access.Faithful where
  read_state _ _ := rfl
  read_write {path text d d'} h := by
    rw [run_write] at h
    cases hwrite : d.write path text with
    | error e =>
      rw [hwrite] at h
      cases h
    | ok written =>
      rw [hwrite] at h
      cases h
      exact read_write_self hwrite

namespace Command

variable {R : Type} [Scalar R] [Numeral R]

/-! ### The stages of a run -/

section Stages

variable {m : Type → Type} [Monad m]

/-- The first stage of a run: the table is loaded, completed and saved. -/
def completeTable (files : Files m) (o : Options) :
    ExceptT (CompileError R) m (Table R) := do
  let t ← ExceptT.mk (pure (prepareTable o (← readNamed files o.table)))
  saveTable files o t
  return t

/-- The second stage of a run: the circuit is read. -/
def readCircuit (files : Files m) (o : Options) :
    ExceptT (CompileError R) m (List (Occurrence R)) := do
  ExceptT.mk (pure (inputCircuit (← readNamed files o.circuit)))

theorem prepare_eq [LawfulMonad m] (files : Files m) (o : Options) :
    (prepare files o : ExceptT (CompileError R) m _) = do
      let t ← completeTable files o
      let input ← readCircuit files o
      return (t, input) := by
  simp [prepare, completeTable, readCircuit]

/-- What a run says once the table is there. -/
def report (o : Options) (t : Table R) :
    Except (CompileError R) (List (Occurrence R)) → Report R
  | .error e => ⟨"", .ofError e, []⟩
  | .ok input => compileAndPrint o t input

/-- The seed and the check are all that a report takes from the options. -/
theorem report_congr {o o' : Options} (hseed : o'.seed = o.seed)
    (hcheck : o'.check = o.check) (t : Table R) : report o' t = report o t := by
  funext input
  cases input with
  | error e => rfl
  | ok input => simp only [report, compileAndPrint, config, hseed, hcheck]

end Stages

section Access

variable {σ : Type} {files : Files (StateM σ)} {o o' : Options} {s s' : σ}

/-! ### Steps that succeed and fail -/

section Steps

variable {ε α β : Type} {x : ExceptT ε (StateM σ) α}
  {f : α → ExceptT ε (StateM σ) β}

theorem run_bind_of_ok {a : α} (h : x.run.run s = (.ok a, s')) :
    (x >>= f).run.run s = (f a).run.run s' := by
  rw [ExceptT.run_bind, StateT.run_bind, h]
  rfl

theorem exists_of_run_bind_eq_ok {b : β}
    (h : (x >>= f).run.run s = (.ok b, s')) :
    ∃ a s₁, x.run.run s = (.ok a, s₁) ∧ (f a).run.run s₁ = (.ok b, s') := by
  rw [ExceptT.run_bind, StateT.run_bind] at h
  rcases hx : x.run.run s with ⟨result, s₁⟩
  rw [hx] at h
  cases result with
  | error e => cases h
  | ok a => exact ⟨a, s₁, rfl, h⟩

end Steps

/-! ### Reading and saving -/

omit [Scalar R] [Numeral R] in
theorem run_readNamed_some (path : String) (s : σ) :
    (readNamed files (some path) :
      ExceptT (CompileError R) (StateM σ) _).run.run s =
      match (files.read path).run s with
      | (.ok text, s₁) => (.ok (some text), s₁)
      | (.error e, s₁) => (.error (.file e), s₁) := by
  rcases hread : (files.read path).run s with ⟨_ | text, s₁⟩ <;>
    simp [readNamed, hread] <;> rfl

omit [Scalar R] [Numeral R] in
/-- Reading leaves the files as they are. -/
theorem state_run_readNamed (hfiles : files.Faithful) (name : Option String)
    (s : σ) :
    ((readNamed files name : ExceptT (CompileError R) (StateM σ) _).run.run s).2
      = s := by
  cases name with
  | none => rfl
  | some path =>
    have hstate := hfiles.read_state path s
    rw [run_readNamed_some]
    rcases hread : (files.read path).run s with ⟨_ | text, s₁⟩ <;>
      rw [hread] at hstate <;>
      exact hstate

omit [Scalar R] in
theorem run_saveTable_some {path : String} (hsave : o.saveTable = some path)
    (t : Table R) (s : σ) :
    (saveTable files o t).run.run s =
      match (files.write path t.text).run s with
      | (.ok (), s₁) => (.ok (), s₁)
      | (.error e, s₁) => (.error (.file e), s₁) := by
  rcases hwrite : (files.write path t.text).run s with ⟨_ | ⟨⟩, s₁⟩ <;>
    simp [saveTable, hsave, hwrite] <;> rfl

/-! ### Runs -/

variable {t : Table R}

theorem state_run_readCircuit (hfiles : files.Faithful) (o : Options) (s : σ) :
    ((readCircuit files o : ExceptT (CompileError R) (StateM σ) _).run.run s).2
      = s := by
  have hstate := state_run_readNamed (R := R) hfiles o.circuit s
  rw [readCircuit, ExceptT.run_bind, StateT.run_bind]
  rcases hread :
    (readNamed files o.circuit : ExceptT (CompileError R) (StateM σ) _).run.run
      s with
    ⟨_ | source, s₁⟩ <;> rw [hread] at hstate <;> exact hstate

/-- A run that has its table goes on with the circuit, and the files stay as
they are then. -/
theorem run_of_completeTable (hfiles : files.Faithful)
    (h : (completeTable files o).run.run s = (.ok t, s')) :
    (run files o).run s =
      (report o t ((readCircuit files o).run.run s').1, s') := by
  have hstate := state_run_readCircuit (R := R) hfiles o s'
  -- reading the circuit leaves the files as they are
  rcases hread :
    (readCircuit files o : ExceptT (CompileError R) (StateM σ) _).run.run s'
      with
    ⟨result, s₁⟩
  rw [hread] at hstate
  obtain rfl : s₁ = s' := hstate
  have hprepare :
      (prepare files o).run.run s =
        (result.map fun input => (t, input), s₁) := by
    rw [prepare_eq, run_bind_of_ok h, ExceptT.run_bind, StateT.run_bind, hread]
    cases result <;> rfl
  rw [run, StateT.run_bind, hprepare]
  cases result <;> rfl

/-- What was completed and saved: the table is the completion of one that was
there, and its text is in the file. -/
theorem exists_of_completeTable (hfiles : files.Faithful) {path : String}
    (hsave : o.saveTable = some path)
    (h : (completeTable files o).run.run s = (.ok t, s')) :
    (∃ source, prepareTable o source = .ok t) ∧
      (files.read path).run s' = (.ok t.text, s') := by
  -- the three steps of completing: read the source, prepare, save
  obtain ⟨source, s₁, -, hrest⟩ := exists_of_run_bind_eq_ok h
  obtain ⟨t₁, s₂, hload, hrest⟩ := exists_of_run_bind_eq_ok hrest
  obtain ⟨_, s₃, hsaved, hreturn⟩ := exists_of_run_bind_eq_ok hrest
  obtain ⟨hprepare, rfl⟩ : prepareTable o source = .ok t₁ ∧ s₁ = s₂ :=
    Prod.mk.inj hload
  cases hreturn
  refine ⟨⟨source, hprepare⟩, Prod.ext ?_ (hfiles.read_state path s')⟩
  -- that saving succeeded means that writing did
  apply hfiles.read_write (s := s₁)
  rw [run_saveTable_some hsave] at hsaved
  rcases hwrite : (files.write path t.text).run s₁ with ⟨_ | ⟨⟩, s₂⟩ <;>
    rw [hwrite] at hsaved <;>
    cases hsaved
  rfl

/-- A table that is loaded, completed and saved. -/
theorem run_completeTable {source : Option String} {s₁ : σ}
    (hread :
      (readNamed files o.table : ExceptT (CompileError R) (StateM σ) _).run.run
      s = (.ok source, s₁))
    (hprepare : prepareTable o source = .ok t)
    (hsaved : (saveTable files o t).run.run s₁ = (.ok (), s')) :
    (completeTable files o).run.run s = (.ok t, s') := by
  -- preparing the table does not look at the files
  have hload : (ExceptT.mk (pure (prepareTable o source)) :
      ExceptT (CompileError R) (StateM σ) _).run.run s₁ = (.ok t, s₁) := by
    rw [hprepare]
    rfl
  rw [completeTable, run_bind_of_ok hread, run_bind_of_ok hload,
    run_bind_of_ok hsaved]
  rfl

end Access

/-! ### Completing a table -/

/-- The table that a run starts from: the one that a text stands for, or the
usual one. -/
def sourceTable : Option String → Except (CompileError R) (Table R)
  | none => .ok .withDefaults
  | some text => Table.ofText text

theorem prepareTable_eq (o : Options) (source : Option String) :
    (prepareTable o source : Except (CompileError R) (Table R)) =
      sourceTable source >>= fun t =>
        t.populate FixedGate.singleQubit (config o) := by
  cases source <;> rfl

/-- A table that was completed once is left alone, with any settings. -/
theorem populate_of_prepareTable {o : Options} {source : Option String}
    {t : Table R} (h : prepareTable o source = .ok t) (config : Config R) :
    t.populate FixedGate.singleQubit config = .ok t := by
  rw [prepareTable_eq] at h
  obtain ⟨t₀, -, h⟩ := exists_of_bind_eq_ok h
  obtain ⟨found, hfound, rfl⟩ := Table.populate_eq_ok_iff.mp h
  exact Table.populate_of_missing_eq_nil (Table.Found.missing_insertAll hfound)

/-- Every angle of the table of a run is finite. -/
theorem angles_prepareTable {o : Options} {source : Option String}
    {t : Table Float} (h : prepareTable o source = .ok t) :
    t.Angles fun x => x.isFinite = true := by
  rw [prepareTable_eq] at h
  obtain ⟨t₀, hsource, h⟩ := exists_of_bind_eq_ok h
  refine Table.angles_populate ?_ h
  cases source with
  | none =>
    cases hsource
    exact Table.angles_withDefaults
  | some text => exact Table.angles_ofText hsource

/-- **A saved table reproduces the run.**  Where a run gets past saving its
table, and the finite angles of the table read back, a second run that loads the
table, with the same seed, circuit and check, says the same and leaves the files
as they are. -/
theorem run_after_saving {σ : Type} {files : Files (StateM σ)}
    (hfiles : files.Faithful) {o o' : Options} {path : String} {s s' : σ}
    {t : Table Float} (hsave : o.saveTable = some path)
    (hpast : (completeTable files o).run.run s = (.ok t, s'))
    (hreads : t.Angles fun x => x.isFinite = true → ReadsBack x)
    (htable : o'.table = some path) (hsave' : o'.saveTable = none)
    (hseed : o'.seed = o.seed) (hcircuit : o'.circuit = o.circuit)
    (hcheck : o'.check = o.check) {first : Report Float} {after : σ}
    (hfirst : (run files o).run s = (first, after)) :
    (run files o').run after = (first, after) := by
  obtain ⟨⟨source, hprepare⟩, hread⟩ :=
    exists_of_completeTable hfiles hsave hpast
  -- the angles of a completed table are finite, so every one of them has a text
  -- to be read from
  have hangles : t.Angles ReadsBack := fun entry hentry axis angle hstep =>
    hreads entry hentry axis angle hstep
      (angles_prepareTable hprepare entry hentry axis angle hstep)
  -- what the second run loads is the table that was saved, which misses nothing
  have hagain : prepareTable o' (some t.text) = .ok t := by
    rw [prepareTable_eq, sourceTable, Table.ofText_text hangles]
    exact populate_of_prepareTable hprepare (config o')
  have hnamed :
      (readNamed files o'.table : ExceptT (CompileError Float) _ _).run.run s' =
      (.ok (some t.text), s') := by
    rw [htable, run_readNamed_some, hread]
  have hskip : (saveTable files o' t).run.run s' = (.ok (), s') := by
    rw [saveTable, hsave']
    rfl
  have hcomplete := run_completeTable hnamed hagain hskip
  -- both runs read the circuit from the files as saving left them
  have hsame :
      readCircuit files o' =
        (readCircuit files o : ExceptT (CompileError Float) _ _) := by
    rw [readCircuit, readCircuit, hcircuit]
  rw [run_of_completeTable hfiles hpast] at hfirst
  cases hfirst
  rw [run_of_completeTable hfiles hcomplete, hsame, report_congr hseed hcheck]

/-- Angles in hundredths for the gates on one qubit and the controlled flip. -/
def hundredths : Table Float where
  entries := [("CNOT", Table.controlledFlip),
    ("H", [.rz 1.57, .rx 1.57, .rz 1.57]), ("I", []), ("X", [.rx 3.14]),
    ("Y", [.rz 3.14, .rx 3.14]), ("Z", [.rz 3.14])]
  sorted := by decide

theorem angles_hundredths : hundredths.Angles ReadsBack := by
  have hquarter : ReadsBack (1.57 : Float) := by
    unfold ReadsBack
    decide +kernel
  have hhalf : ReadsBack (3.14 : Float) := by
    unfold ReadsBack
    decide +kernel
  intro entry hentry axis angle hstep
  simp only [hundredths, List.mem_cons, List.not_mem_nil, or_false] at hentry
  rcases hentry with rfl | rfl | rfl | rfl | rfl | rfl <;>
    simp only [Table.controlledFlip, Step.rz, Step.rx, List.mem_cons,
      List.not_mem_nil, or_false, Step.rotation.injEq, reduceCtorEq,
      false_or] at hstep <;> grind

theorem prepareTable_hundredths (o : Options) :
    prepareTable o (some hundredths.text) = .ok hundredths := by
  have hmissing : hundredths.missing FixedGate.singleQubit = [] := by
    decide +kernel
  rw [prepareTable_eq, sourceTable, Table.ofText_text angles_hundredths]
  show hundredths.populate FixedGate.singleQubit (config o) = _
  exact Table.populate_of_missing_eq_nil hmissing

/-- A table in one file is saved to another, and the run is repeated with
that. -/
theorem run_after_saving_hundredths :
    let first : Report Float × FileTree :=
      (run FileTree.access { table := some "t", saveTable := some "u" }).run
        ⟨[], [], [(["t"], hundredths.text)]⟩
    (run FileTree.access { table := some "u" }).run first.2 = first := by
  intro first
  let o : Options := { table := some "t", saveTable := some "u" }
  let tree : FileTree := ⟨[], [], [(["t"], hundredths.text)]⟩
  have hsplit : "t".splitOn "/" = ["t"] ∧ "u".splitOn "/" = ["u"] := by
    constructor <;>
      rw [String.splitOn, if_neg (by decide), String.splitOnAux,
        if_neg (by decide), if_neg (by decide), String.splitOnAux,
        if_pos (by decide)] <;> decide
  have hpath : Path.ofString "t" = .ok ⟨false, ["t"], false⟩ ∧
      Path.ofString "u" = .ok ⟨false, ["u"], false⟩ :=
    ⟨Path.ofString_of_plain (by decide) (by decide +kernel) hsplit.1,
      Path.ofString_of_plain (by decide) (by decide +kernel) hsplit.2⟩
  have hread : tree.read "t" = .ok hundredths.text := by
    rw [FileTree.read, hpath.1]
    rfl
  have hwrite :
      tree.write "u" hundredths.text =
        .ok (tree.put ["u"] hundredths.text) := by
    rw [FileTree.write, hpath.2]
    rfl
  have hnamed :
      (readNamed FileTree.access o.table : ExceptT (CompileError Float) _
        _).run.run tree =
      (.ok (some hundredths.text), tree) := by
    show (readNamed FileTree.access (some "t")).run.run tree = _
    rw [run_readNamed_some,
      show (FileTree.access.read "t").run tree =
        (tree.read "t", tree) from rfl, hread]
  have hsaved : (saveTable FileTree.access o hundredths).run.run tree =
      (.ok (), tree.put ["u"] hundredths.text) := by
    rw [run_saveTable_some rfl, FileTree.run_write, hwrite]
  have hpast := run_completeTable hnamed (prepareTable_hundredths o) hsaved
  have hreads : hundredths.Angles fun x => x.isFinite = true → ReadsBack x :=
    angles_hundredths.imp fun _ hreads _ => hreads
  refine run_after_saving FileTree.faithful_access rfl hpast hreads ?_ ?_ ?_ ?_
    ?_ rfl <;> rfl

end Command

end Gimbal
