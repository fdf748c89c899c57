/-
Gimbal/Proofs/SavedText.lean

Tables and output circuits survive being saved.

An angle that is not finite has no text: it is written as `null`
(`angleJson_eq_null_iff`), and where an angle is due a `null` is refused.  All
else that is written has one reading, so what becomes of a saved circuit is
decided by its angles one by one,

    ofText? (jsonText c) = c.mapM reread        (`Circuit.ofText?_jsonText`),

and so it is with a table.  If the finite angles read back, then what was saved
is read back where all angles are finite, and refused where one of them is not
(`saved_text_read_back`).
-/
import Mathlib
import Gimbal.Proofs.FloatRange
import Gimbal.Proofs.TableText

namespace Gimbal

variable {R : Type}

/-! ### Numbers without a text -/

/-- Exactly the finite numbers have a shortest decimal. -/
theorem Binary64.shortest_eq_none_iff {x : Float} :
    shortest x = none ↔ x.isFinite = false := by
  have hfield : x.isFinite = true ↔
      x.toBits.toNat / hiddenBit % 2048 ≠ 2047 := by
    rw [isFinite_iff, unpackExponent_toNat]
    rfl
  have hlt : x.toBits.toNat / hiddenBit % 2048 < 2048 :=
    Nat.mod_lt _ (by decide)
  rw [← Bool.not_eq_true, hfield, not_ne_iff, shortest, ofFloat]
  dsimp only
  -- a number is taken apart by its exponent field, whose largest value stands
  -- for no number
  split_ifs <;> simp <;> omega

theorem angleJson_eq_null_iff {x : Float} : angleJson x = .null ↔
      x.isFinite = false := by
  rw [← Binary64.shortest_eq_none_iff]
  show Json.decimal (Binary64.shortest x) = .null ↔ _
  cases Binary64.shortest x <;> simp [Json.decimal]

/-- A traversal has no result where one element has none. -/
theorem mapM_eq_none_of_mem {α β : Type} {f : α → Option β} {xs : List α}
    {x : α} (hx : x ∈ xs) (h : f x = none) : xs.mapM f = none := by
  induction xs with
  | nil => cases hx
  | cons y xs ih =>
    rw [List.mapM_cons]
    rcases List.mem_cons.mp hx with rfl | hx
    · rw [h]
      rfl
    · rw [ih hx]
      cases f y <;> rfl

section Reading

variable [Numeral R]

theorem scalar?_of_eq_null {x : R} (h : angleJson x = .null) :
    (angleJson x).scalar? (R := R) = none := by
  rw [h]
  rfl

/-! ### Output circuits -/

namespace Entry

/-- The entry with its angle read back from its text. -/
def reread : Entry R → Option (Entry R)
  | .rotation axis angle q =>
    (angleJson angle).scalar?.map fun x => .rotation axis x q
  | .cz c t => some (.cz c t)

/-- Reading keeps the kind, the axis and the qubits. -/
theorem ofJson?_toJson {e : Entry R} (hq : ∀ q ∈ e.qubits, q < wordBound) :
    ofJson? e.toJson = e.reread := by
  cases e with
  | rotation axis angle q =>
    have hcount := Json.count?_natural (hq q (by simp [qubits]))
    cases hangle : (angleJson angle).scalar? (R := R) <;>
      simp [toJson, ofJson?, reread, Json.record, Json.choice?, Json.fields?,
        Axis.ofJson?_toJson, hcount, hangle]
  | cz c t =>
    have hcontrol := Json.count?_natural (hq c (by simp [qubits]))
    have htarget := Json.count?_natural (hq t (by simp [qubits]))
    simp [toJson, ofJson?, reread, Json.record, Json.choice?, Json.fields?,
      hcontrol, htarget]

theorem spelled_toJson (e : Entry R) : e.toJson.Spelled := by
  cases e <;> refine Json.spelled_record ?_ <;>
    simp [Json.spelled_record, Axis.toJson, Json.text, Json.Spelled.string,
      Json.spelled_natural, spelled_angleJson]

end Entry

namespace Circuit

/-- All angles of the circuit have the property. -/
def Angles (P : R → Prop) (c : Circuit R) : Prop :=
  ∀ axis angle q, .rotation axis angle q ∈ c → P angle

theorem spelled_toJson (c : Circuit R) : c.toJson.Spelled := by
  refine Json.spelled_record fun f hf => ?_
  obtain rfl := List.mem_singleton.mp hf
  refine .array fun v hv => ?_
  obtain ⟨e, -, rfl⟩ := List.mem_map.mp hv
  exact e.spelled_toJson

/-- Reading a saved circuit reads its entries one by one. -/
theorem ofText?_jsonText {c : Circuit R}
    (hq : ∀ e ∈ c, ∀ q ∈ e.qubits, q < wordBound) :
    ofText? c.jsonText = c.mapM Entry.reread := by
  have hentries :
      (c.map Entry.toJson).mapM Entry.ofJson? = c.mapM Entry.reread := by
    rw [List.mapM_map]
    exact mapM_congr_of_mem fun e he => Entry.ofJson?_toJson (hq e he)
  rw [ofText?, jsonText, c.spelled_toJson.parse?_compact]
  simpa [toJson, ofJson?, Json.record, Json.fields?, Json.items?] using hentries

theorem mapM_reread_of_readsBack {c : Circuit R} (h : c.Angles ReadsBack) :
    c.mapM Entry.reread = some c := by
  refine mapM_eq_some_self fun e he => ?_
  cases e with
  | cz => rfl
  | rotation axis angle q =>
    have hangle : (angleJson angle).scalar? = some angle := h axis angle q he
    rw [Entry.reread, hangle]
    rfl

theorem mapM_reread_of_null {c : Circuit R}
    (h : ¬ c.Angles fun x => angleJson x ≠ .null) :
    c.mapM Entry.reread = none := by
  simp only [Angles, ne_eq, not_forall, not_not] at h
  obtain ⟨axis, angle, q, hmem, hnull⟩ := h
  refine mapM_eq_none_of_mem hmem ?_
  rw [Entry.reread, scalar?_of_eq_null hnull]
  rfl

end Circuit

/-! ### Tables -/

theorem Step.ofJson?_toJson_of_null {axis : Axis} {angle : R}
    (h : angleJson angle = .null) :
    ofJson? (R := R) (Step.rotation axis angle).toJson = none := by
  have hangle := scalar?_of_eq_null h
  simp [toJson, ofJson?, Json.record, Json.choice?, Json.fields?,
    Axis.ofJson?_toJson, hangle]

/-- A table with an angle that has no text is refused. -/
theorem Table.ofText_text_of_null {t : Table R}
    (h : ¬ t.Angles fun x => angleJson x ≠ .null) :
    ofText (R := R) t.text = .error .json := by
  simp only [Angles, Decomposition.Angles, ne_eq, not_forall, not_not] at h
  obtain ⟨entry, hentry, axis, angle, hstep, hnull⟩ := h
  have hsteps :
      (entry.2.map Step.toJson).mapM (Step.ofJson? (R := R)) = none := by
    rw [List.mapM_map]
    exact mapM_eq_none_of_mem hstep (Step.ofJson?_toJson_of_null hnull)
  have hrefused : entryOfJson? (R := R) (entryJson entry) = none := by
    simp [entryJson, entryOfJson?, Json.items?, hsteps]
  have hentries :
      (t.entries.map entryJson).mapM (entryOfJson? (R := R)) = none := by
    rw [List.mapM_map]
    exact mapM_eq_none_of_mem hentry hrefused
  rw [ofText, text, t.spelled_toJson.parse?_pretty, Option.bind_some,
    t.toJson_eq]
  simp [ofJson?, Json.fields?, hentries]

end Reading

/-! ### What was saved -/

/-- **Tables and circuits are read back from the texts they are saved as.**  A
table with any names and finite angles is read back from its indented text, and
a circuit with finite angles from its compact one, the angles being the same
numbers, provided that these read back one by one.  An angle that is not finite
is written as `null`, and a table or a circuit that holds one is refused. -/
theorem saved_text_read_back :
    (∀ t : Table Float, (t.Angles fun x => x.isFinite = true → ReadsBack x) →
      ((t.Angles fun x => x.isFinite = true) → Table.ofText t.text = .ok t) ∧
      (¬ (t.Angles fun x => x.isFinite = true) →
        Table.ofText (R := Float) t.text = .error .json)) ∧
    (∀ c : Circuit Float, (∀ e ∈ c, ∀ q ∈ e.qubits, q < wordBound) →
      (c.Angles fun x => x.isFinite = true → ReadsBack x) →
      ((c.Angles fun x => x.isFinite = true) →
        Circuit.ofText? c.jsonText = some c) ∧
      (¬ (c.Angles fun x => x.isFinite = true) →
        Circuit.ofText? (R := Float) c.jsonText = none)) ∧
    ∀ x : Float, angleJson x = .null ↔ x.isFinite = false := by
  have hnull : ∀ x : Float, angleJson x ≠ .null ↔ x.isFinite = true := by
    intro x
    rw [ne_eq, angleJson_eq_null_iff, Bool.not_eq_false]
  refine ⟨fun t hreads => ⟨fun hfinite => ?_, fun hinfinite => ?_⟩,
    fun c hq hreads => ⟨fun hfinite => ?_, fun hinfinite => ?_⟩,
      fun x => angleJson_eq_null_iff⟩
  · -- tables: finite angles come back, and one angle that is not refuses the
    -- text
    apply Table.ofText_text
    intro entry hentry axis angle hstep
    exact hreads entry hentry axis angle hstep
      (hfinite entry hentry axis angle hstep)
  · apply Table.ofText_text_of_null
    simpa only [hnull] using hinfinite
  · rw [Circuit.ofText?_jsonText hq]
    apply Circuit.mapM_reread_of_readsBack
    intro axis angle q he
    exact hreads axis angle q he (hfinite axis angle q he)
  · rw [Circuit.ofText?_jsonText hq]
    apply Circuit.mapM_reread_of_null
    simpa only [hnull] using hinfinite

/-- Names that need escapes, a name and a decomposition that are empty, the
largest qubit, and a table with an unbounded angle. -/
theorem saved_text_read_back_marked_names :
    ∃ (t u : Table Float) (c : Circuit Float),
      t.entries =
        [("", []), ("\"\\\n\x01", [.rz 1.57, .cz, .rx (-0.0)]),
          ("\u03b8", [.rz 1e16])] ∧
      u.entries = [("H", [.rz 1.57, .rx (1.0 / 0.0)])] ∧
      c = [.rx 1.57 18446744073709551615, .cz 2 2, .rz (-0.0) 0] ∧
      Table.ofText t.text = .ok t ∧
      Table.ofText (R := Float) u.text = .error .json ∧
      Circuit.ofText? c.jsonText = some c := by
  have hquarter : (1.57 : Float).isFinite = true ∧
      ReadsBack (1.57 : Float) := by
    unfold ReadsBack
    decide +kernel
  have hzero : (-0.0 : Float).isFinite = true ∧ ReadsBack (-0.0 : Float) := by
    unfold ReadsBack
    decide +kernel
  have hlarge : (1e16 : Float).isFinite = true ∧ ReadsBack (1e16 : Float) := by
    unfold ReadsBack
    decide +kernel
  have hunbounded : (1.0 / 0.0 : Float).isFinite = false := by decide +kernel
  -- what the numbers are plays no part any more
  generalize (1.57 : Float) = a, (-0.0 : Float) = b, (1e16 : Float) = d,
    (1.0 / 0.0 : Float) = y at hquarter hzero hlarge hunbounded ⊢
  have hnames : List.Pairwise (· < ·) ["", "\"\\\n\x01", "\u03b8"] := by decide
  obtain ⟨htable, hcircuit, -⟩ := saved_text_read_back
  refine ⟨⟨[("", []), ("\"\\\n\x01", [.rz a, .cz, .rx b]), ("\u03b8", [.rz d])],
    List.pairwise_map.mp hnames⟩, ⟨[("H", [.rz a, .rx y])],
    List.pairwise_singleton _ _⟩, _, rfl, rfl,
    rfl, ?_, ?_, ?_⟩
  · refine (htable _ ?_).1 ?_ <;>
      simp only [Table.Angles, Decomposition.Angles, Step.rz, Step.rx] <;> grind
  · refine (htable _ ?_).2 fun hfinite => ?_
    · simp only [Table.Angles, Decomposition.Angles, Step.rz, Step.rx]
      grind
    · have hy := hfinite _ (List.mem_singleton_self _) .x y (by simp [Step.rx])
      exact Bool.false_ne_true (hunbounded.symm.trans hy)
  · refine (hcircuit _ (by simp [Entry.rx, Entry.rz, Entry.qubits, wordBound])
      ?_).1 ?_ <;>
      simp only [Circuit.Angles, Entry.rz, Entry.rx] <;> grind

end Gimbal
