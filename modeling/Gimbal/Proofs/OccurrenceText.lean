/-
Gimbal/Proofs/OccurrenceText.lean

An input circuit is read back from its text.

Occurrences are written without a tag: two of the three kinds are arrays of
three items, and they are told apart by the spelling of the second one.  An
angle is always written with a point or an exponent, also where its value is
integral, so it is never taken for a qubit, and the kind, the name and the
qubits of every occurrence survive whatever the numbers are (`ofJson?_toJson`).

What becomes of an angle is up to the scalars.  `ReadsBack x` says that the
number `x` survives its own text.  A number that is not finite has no text and
does not, and one of more than fifteen digits may be read as its neighbour.  A
circuit whose angles read back is itself read back.
-/
import Mathlib
import Gimbal.Binary64.Decimal
import Gimbal.Codec.Occurrence
import Gimbal.Proofs.JsonText

namespace Gimbal

variable {R : Type} [Numeral R]

/-- The number is read back from its text. -/
def ReadsBack (x : R) : Prop := (angleJson x).scalar? = some x

theorem spelled_angleJson (x : R) : (angleJson x).Spelled :=
  Json.spelled_decimal _

theorem count?_angleJson (x : R) : (angleJson x).count? = none :=
  Json.count?_decimal _

theorem mapM_congr_of_mem {α β : Type} {f g : α → Option β} {xs : List α}
    (h : ∀ x ∈ xs, f x = g x) : xs.mapM f = xs.mapM g := by
  induction xs with
  | nil => rfl
  | cons x xs ih =>
    rw [List.mapM_cons, List.mapM_cons, h x List.mem_cons_self,
      ih fun y hy => h y (List.mem_cons_of_mem x hy)]

theorem mapM_eq_some_self {α : Type} {f : α → Option α} {xs : List α}
    (h : ∀ x ∈ xs, f x = some x) : xs.mapM f = some xs := by
  rw [mapM_congr_of_mem h]
  simpa using List.mapM_pure (m := Option) (l := xs) (f := id)

namespace Occurrence

/-- The occurrence with its angle read back from its text. -/
def reread : Occurrence R → Option (Occurrence R)
  | .single name q => some (.single name q)
  | .controlled name c t => some (.controlled name c t)
  | .parametrized name angle q =>
    (angleJson angle).scalar?.map fun x => .parametrized name x q

/-- Every angle of the occurrence reads back. -/
def AngleReadsBack (o : Occurrence R) : Prop :=
  ∀ name angle q, o = .parametrized name angle q → ReadsBack angle

theorem reread_eq_some {o : Occurrence R} (h : o.AngleReadsBack) :
    o.reread = some o := by
  cases o with
  | single | controlled => rfl
  | parametrized name angle q =>
    have hangle : (angleJson angle).scalar? = some angle := h name angle q rfl
    rw [reread, hangle]
    rfl

/-- Reading keeps the kind, the name and the qubits. -/
theorem ofJson?_toJson {o : Occurrence R} (hq : ∀ q ∈ o.qubits, q < wordBound) :
    ofJson? o.toJson = o.reread := by
  cases o with
  | single name q =>
    have hcount := Json.count?_natural (hq q (by simp [qubits]))
    simp [toJson, ofJson?, reread, Json.text, Json.text?, hcount]
  | controlled name c t =>
    have hcontrol := Json.count?_natural (hq c (by simp [qubits]))
    have htarget := Json.count?_natural (hq t (by simp [qubits]))
    simp [toJson, ofJson?, reread, Json.text, Json.text?, hcontrol, htarget]
  | parametrized name angle q =>
    have hcount := Json.count?_natural (hq q (by simp [qubits]))
    -- the second item is tried as a qubit first, and an angle is never spelled
    -- like one
    cases hangle : (angleJson angle).scalar? (R := R) <;>
      simp [toJson, ofJson?, reread, Json.text, Json.text?, count?_angleJson,
        hcount, hangle]

theorem spelled_toJson (o : Occurrence R) : o.toJson.Spelled := by
  cases o <;> refine .array ?_ <;>
    simp [Json.Spelled.string, Json.text, Json.spelled_natural,
      spelled_angleJson]

theorem spelled_listToJson (input : List (Occurrence R)) :
    (listToJson input).Spelled := by
  refine .array fun v hv => ?_
  obtain ⟨o, -, rfl⟩ := List.mem_map.mp hv
  exact o.spelled_toJson

/-- An input circuit with qubits of machine size is read back from its text as
the same occurrences in the same order: kinds, names and qubits are the same for
all angles, and where the angles read back the circuit is the same. -/
theorem listOfText?_listText {input : List (Occurrence R)}
    (hq : ∀ o ∈ input, ∀ q ∈ o.qubits, q < wordBound) :
    listOfText? (listText input) = input.mapM reread ∧
      ((∀ o ∈ input, o.AngleReadsBack) →
        listOfText? (listText input) = some input) := by
  have hread : listOfText? (listText input) = input.mapM reread := by
    rw [listOfText?, listText, (spelled_listToJson input).parse?_compact]
    show (input.map toJson).mapM ofJson? = _
    rw [List.mapM_map]
    exact mapM_congr_of_mem fun o ho => ofJson?_toJson (hq o ho)
  refine ⟨hread, fun hangles => ?_⟩
  rw [hread]
  exact mapM_eq_some_self fun o ho => reread_eq_some (hangles o ho)

/-- Integral angles, the largest qubit and names full of marks. -/
theorem listOfText?_listText_integral_angles :
    listOfText? (listText [.single "\"\\\n\x01\u03b8" 18446744073709551615,
        .controlled "" 3 0, .parametrized "\x1f" (3.0 : Float) 0,
          .parametrized "," (-0.0) 1,
        .parametrized "[" 1e16 2]) =
      some [.single "\"\\\n\x01\u03b8" 18446744073709551615, .controlled "" 3 0,
        .parametrized "\x1f" 3.0 0, .parametrized "," (-0.0) 1,
          .parametrized "[" 1e16 2] := by
  refine (listOfText?_listText (by decide)).2 ?_
  intro o ho name angle q heq
  subst heq
  -- three of the five carry an angle, and each is spelled and read back
  simp at ho
  rcases ho with ⟨-, rfl, -⟩ | ⟨-, rfl, -⟩ | ⟨-, rfl, -⟩ <;>
    unfold ReadsBack <;> decide +kernel

end Occurrence

end Gimbal
