/-
Gimbal/Proofs/TableFilling.lean

What filling leaves behind, in the table and in the error.

A gate is searched for under the seed of the settings plus its position in the
list (`searchAt`), and nothing else enters: not the gates around it, not the
entries of the table.  The searches are made side by side, so nothing is assumed
of the order in which they end but that all results come back in the order of
the list, or one of the errors (`Gather.Lawful`).

Of a gate that is listed twice both searches are made, and the entry of the last
one stays.  A table that has been filled misses none of the gates any more, so
filling it again leaves it alone.
-/
import Mathlib
import Gimbal.Binary64
import Gimbal.Proofs.LenientSearch
import Gimbal.Proofs.Population

namespace Gimbal

variable {R : Type} [Scalar R]

/-! ### The search for one gate -/

/-- The search for a gate at a position of the list. -/
def searchAt (config : Config R) (position : ℕ) (g : FixedGate) :
    Except SynthesisError (Synthesis R) :=
  ((Synthesizer.ofConfig
    (config.withSeed (config.seed + position.toUInt64))).synthesize g.matrix).1

variable {config : Config R} {position : ℕ} {g : FixedGate}

theorem decomposeFixed_eq_ok_iff {d : Decomposition R} :
    decomposeFixed config position g = .ok d ↔
      ∃ s, searchAt config position g = .ok s ∧ s.steps = .ok d := by
  unfold decomposeFixed searchAt
  dsimp only
  cases ((Synthesizer.ofConfig (config.withSeed _)).synthesize g.matrix).1 with
  | error cause => simp
  | ok s => cases hsteps : s.steps <;> simp [hsteps]

/-- What was found can always be listed as steps, so it is the search that
fails. -/
theorem decomposeFixed_eq_error_iff {e : CompileError R} :
    decomposeFixed config position g = .error e ↔
      ∃ cause, searchAt config position g = .error cause ∧
        e = .synthesis (.fixed g) cause := by
  unfold decomposeFixed searchAt
  dsimp only
  cases hsearch :
    ((Synthesizer.ofConfig (config.withSeed _)).synthesize g.matrix).1 with
  | error cause => simp [eq_comm]
  | ok s =>
    obtain ⟨d, hd, -⟩ := Synthesizer.exists_steps_of_synthesize hsearch
    simp [hd]

namespace Table

variable {t t' : Table R} {gates : List FixedGate} {gather : Gather R}

/-! ### Missing gates -/

omit [Scalar R] in
theorem contains_eq_false_iff {name : String} : t.contains name = false ↔
      t.find? name = none := by
  rw [contains, Option.isSome_eq_false_iff, Option.isNone_iff_eq_none]

omit [Scalar R] in
/-- A gate is missing at a position if it is listed there and the table has no
entry for it. -/
theorem mem_missing_iff {p : FixedGate × ℕ} :
    p ∈ t.missing gates ↔ gates[p.2]? = some p.1 ∧ t.find? p.1.name = none := by
  rw [missing, List.mem_filter, List.mem_zipIdx_iff_getElem?, Bool.not_eq_true',
    contains_eq_false_iff]

omit [Scalar R] in
/-- A missing gate stands among the others as it stands in the list. -/
theorem missing_append_cons {before after : List FixedGate}
    (hg : t.find? g.name = none) :
    ∃ earlier later,
      t.missing (before ++ g :: after) =
        earlier ++ (g, before.length) :: later ∧
      ∀ p ∈ later, p.1 ∈ after := by
  refine ⟨before.zipIdx.filter fun p => !t.contains p.1.name,
    (after.zipIdx (before.length + 1)).filter fun p =>
      !t.contains p.1.name, ?_, ?_⟩
  · -- the positions behind `g` are counted from one more
    rw [missing, List.zipIdx_append, List.filter_append, List.zipIdx_cons,
      List.filter_cons_of_pos]
    · simp
    · simp [contains_eq_false_iff.mpr hg]
  · intro p hp
    exact List.fst_mem_of_mem_zipIdx (List.mem_of_mem_filter hp)

/-! ### After a failure -/

/-- A search that failed, for a gate that the table misses. -/
theorem exists_searchAt_of_fill_eq_error (hgather : gather.Lawful)
    {e : CompileError R} (h : t.fill gather gates config = (.error e, t')) :
    t' = t ∧ ∃ p ∈ t.missing gates, ∃ cause,
      searchAt config p.2 p.1 = .error cause ∧
        e = .synthesis (.fixed p.1) cause := by
  rw [fill] at h
  rcases hgather (t.searches gates config) with ⟨found, -, hok⟩ |
      ⟨e', he', herror⟩
  · rw [hok] at h
    cases h
  · rw [herror] at h
    obtain ⟨rfl, rfl⟩ : e' = e ∧ t = t' := by simpa using h
    obtain ⟨p, hp, hmap⟩ := List.mem_map.mp he'
    have hfail : decomposeFixed config p.2 p.1 = .error e' := by
      cases hd : decomposeFixed config p.2 p.1 with
      | error e => simpa [hd, Except.map] using hmap
      | ok d => simp [hd, Except.map] at hmap
    exact ⟨rfl, p, hp, decomposeFixed_eq_error_iff.mp hfail⟩

/-! ### After a success -/

/-- One entry for each missing gate, in the order of the list, as it was
searched for. -/
def Found (t : Table R) (gates : List FixedGate) (config : Config R)
    (found : List (String × Decomposition R)) : Prop :=
  List.Forall₂ (fun p entry => p.1.name = entry.1 ∧
    decomposeFixed config p.2 p.1 = .ok entry.2)
    (t.missing gates) found

namespace Found

variable {found : List (String × Decomposition R)} {name : String}

/-- Every new entry is one of a missing gate. -/
theorem exists_missing (h : t.Found gates config found) {d : Decomposition R}
    (hd : (name, d) ∈ found) : ∃ p ∈ t.missing gates, p.1.name = name := by
  obtain ⟨p, hp, hname, -⟩ := exists_mem_of_forall₂ h hd
  exact ⟨p, hp, hname⟩

/-- A name that no missing gate has is not touched. -/
theorem find?_of_not_missing (h : t.Found gates config found)
    (hname : ∀ p ∈ t.missing gates, p.1.name ≠ name) :
    (t.insertAll found).find? name = t.find? name := by
  have hnone : found.reverse.lookup name = none := by
    rw [List.lookup_eq_none_iff]
    intro entry hentry
    obtain ⟨p, hp, heq⟩ := h.exists_missing (List.mem_reverse.mp hentry)
    rw [bne_iff_ne]
    rintro rfl
    exact hname p hp heq
  rw [find?_insertAll, hnone, Option.none_or]

/-- Of the searches for a gate the last one in the list gives the entry. -/
theorem find?_of_last {before after : List FixedGate}
    (h : t.Found (before ++ g :: after) config found) (hlast : g ∉ after)
    (hg : t.find? g.name = none) :
    ∃ d, decomposeFixed config before.length g = .ok d ∧
      (t.insertAll found).find? g.name = some d := by
  -- what is found follows the list of what was missing
  obtain ⟨earlier, later, hsplit, hlater⟩ := missing_append_cons hg
  rw [Found, hsplit] at h
  have hrest := (List.forall₂_drop_append _ _ _ h.flip).flip
  obtain ⟨⟨name, d⟩, last, ⟨hname, hd⟩, hbehind, hfound⟩ :=
    List.forall₂_cons_left_iff.mp hrest
  obtain rfl : g.name = name := hname
  refine ⟨d, hd, ?_⟩
  -- none of the entries behind it has the same name
  have hnone : last.reverse.lookup g.name = none := by
    rw [List.lookup_eq_none_iff]
    intro entry hentry
    obtain ⟨p, hp, hname, -⟩ :=
      exists_mem_of_forall₂ hbehind (List.mem_reverse.mp hentry)
    rw [bne_iff_ne]
    intro heq
    have hpg : p.1 = g := FixedGate.name_injective (hname.trans heq.symm)
    exact hlast (hpg ▸ hlater p hp)
  rw [find?_insertAll, ← List.take_append_drop earlier.length found, hfound,
    List.reverse_append, List.reverse_cons, List.append_assoc,
    List.lookup_append, hnone, Option.none_or,
    List.singleton_append, lookup_cons_self, Option.some_or]

/-- A listed gate that the table misses has an entry afterwards. -/
theorem find?_ne_none (h : t.Found gates config found) (hg : g ∈ gates) :
    (t.insertAll found).find? g.name ≠ none := by
  -- either it was missing and is inserted, or it stays
  by_cases hmissing : t.find? g.name = none
  · -- the last time that the gate is listed
    obtain ⟨after, before, hreverse, hlast⟩ :=
      List.eq_append_cons_of_mem (List.mem_reverse.mpr hg)
    have hsplit : gates = before.reverse ++ g :: after.reverse := by
      rw [← List.reverse_reverse gates, hreverse]
      simp
    subst hsplit
    obtain ⟨d, -, hd⟩ :=
      h.find?_of_last (fun hmem => hlast (List.mem_reverse.mp hmem)) hmissing
    rw [hd]
    exact Option.some_ne_none d
  · rw [h.find?_of_not_missing]
    · exact hmissing
    · intro p hp hname
      exact hmissing (hname ▸ (mem_missing_iff.mp hp).2)

/-- Nothing is missing afterwards. -/
theorem missing_insertAll (h : t.Found gates config found) :
    (t.insertAll found).missing gates = [] := by
  apply List.eq_nil_iff_forall_not_mem.mpr
  intro p hp
  obtain ⟨hlisted, hnone⟩ := mem_missing_iff.mp hp
  exact h.find?_ne_none (List.mem_of_getElem? hlisted) hnone

end Found

/-- A table that misses nothing is left alone. -/
theorem fill_of_missing_eq_nil (hgather : gather.Lawful)
    (h : t.missing gates = []) :
    t.fill gather gates config = (.ok (), t) := by
  refine (fill_eq_ok_iff hgather).mpr ⟨[], ?_, rfl⟩
  rw [h]
  exact .nil

theorem populate_of_missing_eq_nil (h : t.missing gates = []) :
    t.populate gates config = .ok t := by
  rw [populate, fill_of_missing_eq_nil lawful_gatherInOrder h]

/-- **Filling a table** is atomic, keeps what is there, and is determined by
positions.  However the searches are gathered: after an error the table is what
it was, and the error is that of a search for a listed gate that the table
misses.  After a success every name of the table has kept its entry, every gate
that it missed has the entry found under the seed of its last position in the
list, there is no other name, and filling again changes nothing, whatever the
settings. -/
theorem fill_outcome (gather : Gather R) (hgather : gather.Lawful) (t : Table R)
    (gates : List FixedGate) (config : Config R) :
    (∀ e t', t.fill gather gates config = (.error e, t') →
      t' = t ∧ ∃ position g cause, gates[position]? = some g ∧
        t.find? g.name = none ∧
        searchAt config position g = .error cause ∧
        e = .synthesis (.fixed g) cause) ∧
    ∀ t', t.fill gather gates config = (.ok (), t') →
      (∀ name d, t.find? name = some d → t'.find? name = some d) ∧
      (∀ before g after, gates = before ++ g :: after → g ∉ after →
        t.find? g.name = none →
        ∃ s d, searchAt config before.length g = .ok s ∧ s.steps = .ok d ∧
          t'.find? g.name = some d) ∧
      (∀ name, t.find? name = none → (∀ g ∈ gates, g.name ≠ name) →
        t'.find? name = none) ∧
      ∀ (gather' : Gather R) (config' : Config R), gather'.Lawful →
        t'.fill gather' gates config' = (.ok (), t') := by
  constructor
  · intro e t' h
    obtain ⟨hunchanged, p, hp, cause, hcause, he⟩ :=
      exists_searchAt_of_fill_eq_error hgather h
    obtain ⟨hlisted, hnone⟩ := mem_missing_iff.mp hp
    exact ⟨hunchanged, p.2, p.1, cause, hlisted, hnone, hcause, he⟩
  · -- success: what was there stays, the missing gates are found at their last
    -- place, and no other name comes in
    intro t' h
    obtain ⟨found, hfound : t.Found gates config found, rfl⟩ :=
      (fill_eq_ok_iff hgather).mp h
    refine ⟨?_, ?_, ?_, ?_⟩
    · intro name d hd
      rw [hfound.find?_of_not_missing, hd]
      rintro p hp rfl
      rw [(mem_missing_iff.mp hp).2] at hd
      cases hd
    · rintro before g after rfl hlast hnone
      obtain ⟨d, hd, hentry⟩ := hfound.find?_of_last hlast hnone
      obtain ⟨s, hs, hsteps⟩ := decomposeFixed_eq_ok_iff.mp hd
      exact ⟨s, d, hs, hsteps, hentry⟩
    · intro name hnone hother
      rw [hfound.find?_of_not_missing, hnone]
      intro p hp
      exact hother p.1 (List.mem_of_getElem? (mem_missing_iff.mp hp).1)
    · intro gather' config' hgather'
      exact fill_of_missing_eq_nil hgather' hfound.missing_insertAll

/-- The first two angles of the seed are near a quarter and a half turn, where a
phase and a rotation about the third axis make a phase flip. -/
theorem exists_drawMany_quarter :
    ∃ a b : ℝ, (drawMany 2 (Keystream.ofSeed 2072)).1 = [a, b] ∧
      (1.5594 < a ∧ a < 1.5595) ∧ 3.1882 < b ∧ b < 3.1883 := by
  have hfirst : Keystream.wordAt (Keystream.ofSeed 2072).key 0 =
      4578236228548266655 := by decide +kernel
  have hsecond : Keystream.wordAt (Keystream.ofSeed 2072).key 1 =
      9360290611578254531 := by decide +kernel
  refine ⟨_, _, drawMany_two hfirst hsecond, ?_⟩
  -- the two words of the keystream are known; their upper bits give the angles
  rw [show ((4578236228548266655 : UInt64) >>> 12).toNat = 1117733454235416 by
      decide,
    show ((9360290611578254531 : UInt64) >>> 12).toNat = 2285227200092347 by
      decide]
  have hlower := Real.pi_gt_d6
  have hupper := Real.pi_lt_d6
  norm_num at hlower hupper ⊢
  refine ⟨⟨?_, ?_⟩, ?_, ?_⟩ <;> linarith

theorem searchAt_lenient :
    searchAt (Config.lenient.withSeed 2071) 1 .z =
      .ok ⟨.oneQubit, 1, [1.56, 3.19], flipResidual 0 1.56 3.19⟩ := by
  obtain ⟨a, b, hdraw, ⟨halower, haupper⟩, hblower, hbupper⟩ :=
    exists_drawMany_quarter
  have hlower := Real.pi_gt_d6
  have hupper := Real.pi_lt_d6
  have hflip : (FixedGate.z.matrix : Mat (Amplitude ℝ)) = phasedFlip 0 := by
    have hone : (Amplitude.cis 0 : Amplitude ℝ) = 1 :=
      Amplitude.ext Real.cos_zero Real.sin_zero
    rw [phasedFlip_eq, hone]
    rfl
  have hfirst : |0 - a + b / 2| ≤ 0.035 := by
    rw [abs_le]
    constructor <;> linarith
  have hsecond : |0 - a - b / 2 + Real.pi| ≤ 0.013 := by
    rw [abs_le]
    constructor <;> linarith
  have hlt : flipResidual 0 a b < 0.01 := by
    refine (flipResidual_le hfirst hsecond ?_ ?_).trans_lt ?_ <;> norm_num
  rw [searchAt, hflip]
  refine synthesize_lenient_of_draw hdraw ?_ ?_ hlt ?_ ?_
  · rw [Exact.tau_eq]
    constructor <;> linarith
  · rw [Exact.tau_eq]
    constructor <;> linarith
  · apply roundHundredth_eq 156 (by norm_num) <;> linarith
  · apply roundHundredth_eq 319 (by norm_num) <;> linarith

/-- The list `[CNOT, Z]` has one gate that the usual table misses, and it is
searched for under the second seed. -/
theorem fill_lenient :
    withDefaults.fill gatherInOrder [.cnot, .z] (Config.lenient.withSeed 2071) =
      (.ok (), withDefaults.insert "Z" [.rotation .z 3.19]) := by
  have hsearch : decomposeFixed (Config.lenient.withSeed 2071) 1 .z =
      .ok [.rotation .z 3.19] :=
    decomposeFixed_eq_ok_iff.mpr ⟨_, searchAt_lenient, rfl⟩
  exact (fill_eq_ok_iff lawful_gatherInOrder).mpr
    ⟨[("Z", [.rotation .z 3.19])], .cons ⟨rfl, hsearch⟩ .nil, rfl⟩

/-- The usual table.  Without attempts it cannot be filled with gates it misses,
and the error is that of one of them.  A lenient search fills it: the controlled
flip stays what it was, the phase flip gets what its seed finds, another gate
has no entry, and nothing is searched for a second time. -/
theorem fill_outcome_withDefaults :
    let bare : Config Float := { Config.default with maxAttempts := 0 }
    let lenient : Config ℝ := Config.lenient.withSeed 2071
    (withDefaults.fill gatherInOrder [.cnot, .h, .x, .h] bare =
        (.error (.synthesis (.fixed .h) (.exhausted 0)), withDefaults) ∧
      ∃ position g cause,
        [FixedGate.cnot, .h, .x, .h][position]? = some g ∧
        searchAt bare position g = .error cause ∧
        CompileError.synthesis (R := Float) (.fixed .h) (.exhausted 0) =
          .synthesis (.fixed g) cause) ∧
    ∃ filled : Table ℝ,
      filled = withDefaults.insert "Z" [.rotation .z 3.19] ∧
      withDefaults.fill gatherInOrder [.cnot, .z] lenient =
        (.ok (), filled) ∧
      filled.find? "CNOT" = some controlledFlip ∧
      (∃ s d, searchAt lenient 1 .z = .ok s ∧ s.steps = .ok d ∧
        filled.find? "Z" = some d) ∧
      filled.find? "X" = none ∧
      filled.fill gatherInOrder [.cnot, .z] .default = (.ok (), filled) := by
  intro bare lenient
  -- no attempts: the first missing gate fails
  have hfail : withDefaults.fill gatherInOrder [.cnot, .h, .x, .h] bare =
    (.error (.synthesis (.fixed .h) (.exhausted 0)), withDefaults) := rfl
  obtain ⟨-, position, g, cause, hlisted, -, hcause, he⟩ :=
    (fill_outcome gatherInOrder lawful_gatherInOrder _ _ bare).1 _ _ hfail
  obtain ⟨hkept, hfound, hother, hagain⟩ :=
    (fill_outcome gatherInOrder lawful_gatherInOrder withDefaults
      [.cnot, .z] lenient).2 _ fill_lenient
  refine ⟨⟨hfail, position, g, cause, hlisted, hcause, he⟩,
    _, rfl, fill_lenient, ?_, ?_, ?_, ?_⟩
  · exact hkept "CNOT" controlledFlip rfl
  · exact hfound [.cnot] .z [] rfl List.not_mem_nil rfl
  · exact hother "X" rfl (by decide)
  · exact hagain gatherInOrder .default lawful_gatherInOrder

end Table

end Gimbal
