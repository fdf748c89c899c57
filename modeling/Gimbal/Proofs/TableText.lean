/-
Gimbal/Proofs/TableText.lean

A decomposition table is read back from its text.

A table is written in the order of its names, and reading inserts what it finds
one by one; names that come in order are just put behind each other
(`insertAll_entries`).  So a table whose angles read back is itself read back
(`ofText_text`).

`Table.Angles P` says that all angles of a table have the property `P`.  What is
inserted one by one has it if each decomposition does.
-/
import Mathlib
import Gimbal.Codec.Table
import Gimbal.Proofs.OccurrenceText

namespace Gimbal

variable {R : Type}

/-! ### The angles of a table -/

/-- All angles of the decomposition have the property. -/
def Decomposition.Angles (P : R → Prop) (d : Decomposition R) : Prop :=
  ∀ axis angle, .rotation axis angle ∈ d → P angle

namespace Table

/-- All angles of the table have the property. -/
def Angles (P : R → Prop) (t : Table R) : Prop := ∀ entry ∈ t.entries,
      entry.2.Angles P

theorem Angles.imp {P Q : R → Prop} {t : Table R} (h : t.Angles P)
    (himp : ∀ x, P x → Q x) :
    t.Angles Q :=
  fun entry hentry axis angle hstep =>
    himp angle (h entry hentry axis angle hstep)

theorem angles_empty (P : R → Prop) : (empty : Table R).Angles P := by
  intro entry hentry
  cases hentry

theorem Angles.insert {P : R → Prop} {t : Table R} (h : t.Angles P)
    (name : String) {d : Decomposition R} (hd : d.Angles P) :
    (t.insert name d).Angles P := by
  intro entry hentry
  rcases mem_insertEntry hentry with rfl | hold
  · exact hd
  · exact h entry hold

theorem Angles.insertAll {P : R → Prop} {t : Table R} (h : t.Angles P)
    {entries : List (String × Decomposition R)}
    (hentries : ∀ entry ∈ entries, entry.2.Angles P) :
    (t.insertAll entries).Angles P := by
  rw [Table.insertAll]
  refine List.foldlRecOn (motive := fun t : Table R => t.Angles P) _ _ h ?_
  intro t ht entry hentry
  exact ht.insert entry.1 (hentries entry hentry)

/-! ### Names in order -/

/-- A name behind all others is put at the end. -/
theorem insertEntry_of_lt {α : Type} {name : String} {v : α}
    {entries : List (String × α)} (h : ∀ p ∈ entries, p.1 < name) :
    insertEntry name v entries = entries ++ [(name, v)] := by
  -- induction on the entries the new name is compared with; it is after each
  induction entries with
  | nil => rfl
  | cons p entries ih =>
    obtain ⟨other, w⟩ := p
    have hlt : other < name := h (other, w) List.mem_cons_self
    rw [insertEntry, if_neg (String.lt_asymm hlt),
      if_neg (String.ne_of_lt hlt).symm,
      ih fun q hq => h q (List.mem_cons_of_mem _ hq)]
    rfl

theorem entries_insertAll {t : Table R}
    {entries : List (String × Decomposition R)}
    (h : (t.entries ++ entries).Pairwise fun a b => a.1 < b.1) :
    (t.insertAll entries).entries = t.entries ++ entries := by
  induction entries generalizing t with
  | nil => exact (List.append_nil _).symm
  | cons p entries ih =>
    -- the first name comes after all that are there, and the others after it
    have hp : (t.insert p.1 p.2).entries = t.entries ++ [p] :=
      insertEntry_of_lt fun q hq =>
        (List.pairwise_append.mp h).2.2 q hq p List.mem_cons_self
    have hsorted : ((t.insert p.1 p.2).entries ++ entries).Pairwise fun a b =>
        a.1 < b.1 := by
      rw [hp, List.append_assoc]
      exact h
    calc ((t.insert p.1 p.2).insertAll entries).entries
        = (t.insert p.1 p.2).entries ++ entries := ih hsorted
      _ = t.entries ++ p :: entries := by rw [hp, List.append_assoc]; rfl

theorem eq_of_entries {t u : Table R} (h : t.entries = u.entries) : t = u := by
  cases t
  cases u
  cases h
  rfl

/-- Inserting the entries of a table one by one makes it again. -/
theorem insertAll_entries (t : Table R) : empty.insertAll t.entries = t :=
  eq_of_entries (entries_insertAll t.sorted)

end Table

/-! ### Steps -/

section Text

variable [Numeral R]

theorem Axis.ofJson?_toJson (a : Axis) : ofJson? a.toJson = some a := by
  cases a <;> rfl

theorem Step.ofJson?_toJson {step : Step R}
    (h : ∀ axis angle, step = .rotation axis angle → ReadsBack angle) :
    ofJson? step.toJson = some step := by
  cases step with
  | cz => rfl
  | rotation axis angle =>
    have hangle : (angleJson angle).scalar? = some angle := h axis angle rfl
    simp [toJson, ofJson?, Json.record, Json.choice?, Json.fields?,
      Axis.ofJson?_toJson, hangle]

theorem Step.spelled_toJson (step : Step R) : step.toJson.Spelled := by
  cases step with
  | cz => exact .string "Cz"
  | rotation axis angle =>
    refine Json.spelled_record ?_
    simp [Json.spelled_record, Axis.toJson, Json.text, Json.Spelled.string,
      spelled_angleJson]

/-! ### Tables -/

namespace Table

theorem spelled_toJson (t : Table R) : t.toJson.Spelled := by
  refine Json.spelled_record fun f hf => ?_
  obtain rfl := List.mem_singleton.mp hf
  refine Json.spelled_record fun f hf => ?_
  obtain ⟨entry, -, rfl⟩ := List.mem_map.mp hf
  refine .array fun v hv => ?_
  obtain ⟨step, -, rfl⟩ := List.mem_map.mp hv
  exact step.spelled_toJson

/-- The value of an entry with its name. -/
def entryJson (entry : String × Decomposition R) : Option String × Json :=
  (some entry.1, .array (entry.2.map Step.toJson))

theorem entryOfJson?_entryJson {entry : String × Decomposition R}
    (h : entry.2.Angles ReadsBack) :
    entryOfJson? (entryJson entry) = some entry := by
  have hsteps : (entry.2.map Step.toJson).mapM Step.ofJson? = some entry.2 := by
    rw [List.mapM_map]
    refine mapM_eq_some_self fun step hstep => Step.ofJson?_toJson ?_
    rintro axis angle rfl
    exact h axis angle hstep
  simp [entryJson, entryOfJson?, Json.items?, hsteps]

theorem toJson_eq (t : Table R) :
    t.toJson =
      .object [(some "entries", .object (t.entries.map entryJson))] := by
  simp [toJson, Json.record, entryJson, Function.comp_def]

theorem ofJson?_toJson {t : Table R} (h : t.Angles ReadsBack) :
    ofJson? t.toJson = some t := by
  have hentries :
      (t.entries.map entryJson).mapM entryOfJson? = some t.entries := by
    rw [List.mapM_map]
    exact mapM_eq_some_self fun entry hentry =>
      entryOfJson?_entryJson (h entry hentry)
  rw [t.toJson_eq]
  simp [ofJson?, Json.fields?, hentries, insertAll_entries]

/-- **A table whose angles read back is read back from its text.** -/
theorem ofText_text {t : Table R} (h : t.Angles ReadsBack) :
    ofText t.text = .ok t := by
  rw [ofText, text, t.spelled_toJson.parse?_pretty, Option.bind_some,
    ofJson?_toJson h]

end Table

end Text

end Gimbal
