/-
Gimbal/Proofs/FiniteAngles.lean

Every angle in a table of a run is a finite number.

An angle comes from one of three places.  Those that are read are finite, since
a text has no other numbers; those of the usual table are; and those that are
synthesized are the rounded coordinates of a point in the box of a turn.

The last is a property of the quasi-Newton search for every objective, also one
that is not finite or not a number anywhere.  Trial points are clamped into the
box, but what is not a number is not moved by that; such a point is never
accepted, because its predicted reduction is not a number either and no value is
at most that.
-/
import Mathlib
import Gimbal.Populate
import Gimbal.Proofs.FloatRange
import Gimbal.Proofs.MinimizerRuns
import Gimbal.Proofs.Population
import Gimbal.Proofs.SynthesisTotality
import Gimbal.Proofs.TableText

namespace Gimbal

open Binary64 (UpTo parts)

/-! ### The box of a turn -/

/-- Finite, and not of greater magnitude than a turn by more than a factor of
two. -/
def InTurn (x : Float) : Prop := UpTo (-50) (parts x)

theorem inTurn_zero : InTurn 0 := trivial

theorem inTurn_tau : InTurn tau := by
  show (-50 : ℤ) ≤ -50
  exact le_rfl

/-- What is neither below nor above the interval of a turn lies in it, if it is
a number. -/
theorem inTurn_of_not_lt {x : Float} (hx : x.isNaN = false)
    (hlow : ¬ x < (0 : Float)) (hhigh : ¬ (tau : Float) < x) : InTurn x := by
  have hzero : parts (0 : Float) = .zero .positive := rfl
  obtain ⟨n, hn, htau⟩ :
      ∃ n hn, parts (tau : Float) = .finite .positive n (-50) hn := ⟨_, _, rfl⟩
  rw [Binary64.lt_iff, hzero] at hlow
  rw [Binary64.lt_iff, htau] at hhigh
  rw [Binary64.isNaN_eq] at hx
  rw [InTurn]
  generalize parts x = u at *
  cases u with
  | notANumber => cases hx
  | zero => trivial
  | infinity s =>
    cases s with
    | negative => exact absurd rfl hlow
    | positive => exact absurd rfl hhigh
  | finite s m e hm =>
    cases s with
    | negative => exact absurd rfl hlow
    | positive =>
      -- positive numbers are compared by their exponents first
      refine not_lt.mp fun hlt : -50 < e => hhigh ?_
      show some ((compare (-50) e).then (compare n m)) = some .lt
      rw [compare_lt_iff_lt.mpr hlt]
      rfl

/-- Clamping brings every number into the turn, and leaves what is none. -/
theorem inTurn_clamp_or (x : Float) :
    InTurn (Interval.clamp ⟨0, tau⟩ x) ∨
      Interval.clamp ⟨0, tau⟩ x = x ∧ x.isNaN = true := by
  unfold Interval.clamp
  -- below the interval, above it, or compared with neither end
  split
  · exact .inl inTurn_zero
  · next hlow =>
    split
    · exact .inl inTurn_tau
    · next hhigh =>
      cases hx : x.isNaN with
      | false => exact .inl (inTurn_of_not_lt hx hlow hhigh)
      | true => exact .inr ⟨rfl, rfl⟩

theorem inTurn_or_of_mem_project {n : ℕ} {xs : List Float}
    (hlen : xs.length ≤ n) {y : Float}
    (hy : y ∈ project (List.replicate n ⟨0, tau⟩) xs) :
    InTurn y ∨ y ∈ xs ∧ y.isNaN = true := by
  induction n generalizing xs with
  | zero =>
    rw [List.length_eq_zero_iff.mp (Nat.le_zero.mp hlen)] at hy
    cases hy
  | succ n ih =>
    cases xs with
    | nil => cases hy
    | cons x xs =>
      rw [List.replicate_succ, project] at hy
      rcases List.mem_cons.mp hy with rfl | hy
      · rcases inTurn_clamp_or x with h | ⟨hsame, h⟩
        · exact .inl h
        · rw [hsame]
          exact .inr ⟨List.mem_cons_self, h⟩
      · rcases ih (Nat.le_of_succ_le_succ hlen) hy with h | ⟨hmem, h⟩
        · exact .inl h
        · exact .inr ⟨List.mem_cons_of_mem x hmem, h⟩

/-! ### Sums with something that is not a number -/

theorem isNaN_foldl {xs : List Float} {acc : Float}
    (h : acc.isNaN = true ∨ ∃ x ∈ xs, x.isNaN = true) :
    (xs.foldl (· + ·) acc).isNaN = true := by
  -- induction on the summands: not a number stays not a number
  induction xs generalizing acc with
  | nil =>
    rcases h with h | ⟨x, hx, -⟩
    · exact h
    · cases hx
  | cons y ys ih =>
    refine ih ?_
    rcases h with h | ⟨x, hx, h⟩
    · exact .inl (Binary64.isNaN_add_left h)
    · rcases List.mem_cons.mp hx with rfl | hx
      · exact .inl (Binary64.isNaN_add_right h)
      · exact .inr ⟨x, hx, h⟩

theorem exists_mem_zipWith_left {α β γ : Type} (f : α → β → γ) {xs : List α}
    {ys : List β} (hlen : xs.length = ys.length) {x : α} (hx : x ∈ xs) :
    ∃ y, f x y ∈ List.zipWith f xs ys := by
  obtain ⟨i, hi, rfl⟩ := List.mem_iff_getElem.mp hx
  have hi' : i < ys.length := hlen ▸ hi
  have hboth : i < (List.zipWith f xs ys).length := by simp [hi, hi']
  refine ⟨ys[i], ?_⟩
  rw [← List.getElem_zipWith (h := hboth)]
  exact List.getElem_mem hboth

theorem exists_mem_zipWith_right {α β γ : Type} (f : α → β → γ) {xs : List α}
    {ys : List β} (hlen : xs.length = ys.length) {y : β} (hy : y ∈ ys) :
    ∃ x, f x y ∈ List.zipWith f xs ys := by
  rw [List.zipWith_comm]
  exact exists_mem_zipWith_left _ hlen.symm hy

/-- A vector with such a component makes every inner product such. -/
theorem isNaN_dot {xs ys : List Float} (hlen : xs.length = ys.length)
    {y : Float} (hy : y ∈ ys) (h : y.isNaN = true) :
    (dot xs ys).isNaN = true := by
  obtain ⟨x, hx⟩ := exists_mem_zipWith_right (· * ·) hlen hy
  exact isNaN_foldl (.inr ⟨x * y, hx, Binary64.isNaN_mul_right h⟩)

/-! ### The quasi-Newton search -/

namespace QuasiNewton

variable {p : QuasiNewton Float} {f : List Float → Float} {n : ℕ}

/-- An iterate whose vectors have `n` components and whose point lies in the box
of turns. -/
structure Boxed (n : ℕ) (it : Iterate Float) : Prop where
  sized : Sized n it
  inTurn : ∀ x ∈ it.point, InTurn x

/-- A trial point that is accepted has only numbers for coordinates. -/
theorem isNaN_of_mem_lineSearch {box : List (Interval Float)}
    {it : Iterate Float} {d : List Float} {tries : ℕ} {step value : Float}
    {point : List Float} (hit : Sized n it) (hpoint : point.length = n)
    (h : lineSearch f box it d tries step = some (point, value)) :
    ∀ x ∈ point, x.isNaN = false := by
  obtain ⟨t, -, -, hle⟩ := lineSearch_eq_some h
  intro x hx
  rw [Bool.eq_false_iff]
  intro hnan
  have hlen : point.length = it.point.length := by rw [hpoint, hit.point]
  obtain ⟨y, hy⟩ := exists_mem_zipWith_left (fun c xi : Float => c - xi) hlen hx
  have hmoved : it.gradient.length =
      (List.zipWith (fun c xi : Float => c - xi) point it.point).length := by
    rw [List.length_zipWith, hpoint, hit.point, hit.gradient, min_self]
  -- the predicted reduction is the inner product of the gradient with the move
  have hdot := isNaN_dot hmoved hy (Binary64.isNaN_sub_left hnan)
  exact Binary64.not_le_of_isNaN
    (Binary64.isNaN_add_right (Binary64.isNaN_mul_right hdot)) hle

theorem Boxed.lineSearch {it : Iterate Float} (hit : Boxed n it) {value : Float}
    {point : List Float} {tries : ℕ} {step : Float}
    (h : lineSearch f (List.replicate n ⟨0, tau⟩) it
      (course (List.replicate n ⟨0, tau⟩) it).1 tries step =
        some (point, value)) : point.length = n ∧ ∀ x ∈ point, InTurn x := by
  obtain ⟨t, htrial, -, -⟩ := lineSearch_eq_some h
  -- the point is the projection of a move, and an accepted one holds numbers
  -- only
  have hmoved : (List.zipWith (fun xi di => xi + t * di) it.point
      (course (List.replicate n ⟨0, tau⟩) it).1).length = n := by
    rw [List.length_zipWith, hit.sized.point,
      hit.sized.length_course List.length_replicate, min_self]
  have hlen : point.length = n := by rw [htrial, trial, length_project, hmoved]
  refine ⟨hlen, fun x hx => ?_⟩
  have hnumber := isNaN_of_mem_lineSearch hit.sized hlen h x hx
  rw [htrial, trial] at hx
  rcases inTurn_or_of_mem_project hmoved.le hx with h | ⟨-, hnan⟩
  · exact h
  · rw [hnumber] at hnan
    cases hnan

/-- A search from numbers ends in the box of turns. -/
theorem inTurn_of_minimize {x : List Float} {r : Minimum Float Float}
    (hx : ∀ c ∈ x, c.isNaN = false) (hlen : x.length = n)
    (h : p.minimize f x (List.replicate n ⟨0, tau⟩) = .ok r) :
    ∀ c ∈ r.point, InTurn c := by
  subst hlen
  have hstart :
      Boxed x.length (p.start f x (List.replicate x.length ⟨0, tau⟩)) := by
    refine ⟨p.sized_start f x _, fun c hc => ?_⟩
    rcases inTurn_or_of_mem_project le_rfl hc with h | ⟨hmem, hnan⟩
    · exact h
    · rw [hx c hmem] at hnan
      cases hnan
  rw [minimize_eq_ok h]
  -- every iterate stays in the box, and what is returned is one of them
  refine iterate_induction (P := Boxed x.length) (Q := fun r => ∀ c ∈ r.point,
    InTurn c) ?_ ?_ ?_ _ _
    hstart
  · intro k it it' hit hadvance
    refine ⟨hit.sized.next List.length_replicate hadvance, ?_⟩
    cases hadvance with
    | step _ _ hsearch _ => exact (hit.lineSearch hsearch).2
  · intro k it r hit hadvance
    cases hadvance with
    | notFinite | flat | stuck => exact hit.inTurn
    | stall _ _ hsearch _ => exact (hit.lineSearch hsearch).2
  · intro k it hit
    exact hit.inTurn

end QuasiNewton

/-! ### Draws -/

/-- The angle of a word is a number. -/
theorem isNaN_angleOfWord (w : UInt64) :
    (Keystream.angleOfWord w : Float).isNaN = false := by
  have hshift : (w >>> 12).toNat = w.toNat / 4096 := by
    rw [UInt64.toNat_shiftRight, Nat.shiftRight_eq_div_pow]
    rfl
  have hword : (w >>> 12).toNat < 2 ^ 53 := by
    have hlt := w.toNat_lt
    omega
  have hlarge : Binary64.IsLarge (Float.ofNat 0x10000000000000) :=
    ⟨_, _, _, _, rfl, by decide⟩
  have hshare := Binary64.isFinite_div (Binary64.isFinite_ofNat hword) hlarge
  exact Binary64.isNaN_mul_of_isFinite hshare inTurn_tau.isFinite

theorem isNaN_of_mem_drawMany {n : ℕ} {g : Keystream} :
    ∀ x ∈ (drawMany n g : List Float × Keystream).1, x.isNaN = false := by
  induction n generalizing g with
  | zero =>
    intro x hx
    cases hx
  | succ n ih =>
    intro x hx
    rcases List.mem_cons.mp hx with rfl | hx
    · exact isNaN_angleOfWord _
    · exact ih x hx

/-! ### Angles that were synthesized -/

theorem isFinite_roundHundredth {x : Float} (hx : InTurn x) :
    (roundHundredth x).isFinite = true := by
  have hhundred : UpTo (-46) (parts (100.0 : Float)) := by
    show (-46 : ℤ) ≤ -46
    exact le_rfl
  have hlarge : Binary64.IsLarge (100.0 : Float) := ⟨_, _, _, _, rfl, by decide⟩
  have hproduct := Binary64.isFinite_mul hx hhundred (by decide)
  exact Binary64.isFinite_div (Binary64.isFinite_round hproduct) hlarge

/-- The angles of a template stand in its steps. -/
theorem angles_runSteps {R : Type} {P : R → Prop} {angles : List R}
    (h : ∀ x ∈ angles, P x) :
    Decomposition.Angles P (runSteps angles) := by
  intro axis angle hstep
  obtain ⟨pair, hpair, heq⟩ := List.mem_map.mp hstep
  cases heq
  exact h _ (List.fst_mem_of_mem_zipIdx hpair)

theorem FixedGate.shape_matrix_of_arity {R : Type} [Scalar R] {g : FixedGate}
    (hg : g.arity = 1) :
    Shape.ofMat (g.matrix : Mat (Amplitude R)) = .ok .oneQubit := by
  cases g <;> first | rfl | cases hg

/-- The decomposition of a gate on one qubit has finite angles. -/
theorem angles_decomposeFixed {config : Config Float} {position : ℕ}
    {g : FixedGate} (hg : g.arity = 1) {d : Decomposition Float}
    (h : decomposeFixed config position g = .ok d) :
    d.Angles fun x => x.isFinite = true := by
  simp only [decomposeFixed] at h
  split at h
  · cases h
  · next found hfound =>
    -- a decomposition found is the rounded point of some converged run
    have haccepted := Synthesizer.accepted_of_synthesize hfound
    have hshape : found.shape = .oneQubit := by
      have hboth := haccepted.shape_eq
      rw [FixedGate.shape_matrix_of_arity hg] at hboth
      exact (Except.ok.inj hboth).symm
    rw [haccepted.steps_eq, hshape] at h
    obtain rfl := Except.ok.inj h
    -- each angle is a rounded coordinate in the turn
    refine angles_runSteps fun x hx => ?_
    obtain ⟨depth, -, o, source, run, ho, hrun, -, -, hrounded⟩ := haccepted
    obtain ⟨r, -, rfl⟩ := Synthesizer.ofRun_eq_ok hrounded
    obtain ⟨c, hc, rfl⟩ := List.mem_map.mp (List.mem_of_mem_tail hx)
    rw [show o.shape = .oneQubit from hshape] at hrun
    exact isFinite_roundHundredth
      (QuasiNewton.inTurn_of_minimize isNaN_of_mem_drawMany
      (length_drawMany o.dimension source) hrun c hc)

/-! ### Angles that were read -/

/-- Whatever a traversal gives was given for one of the elements. -/
theorem exists_of_mem_mapM {α β : Type} {f : α → Option β} {xs : List α}
    {ys : List β} (h : xs.mapM f = some ys) {y : β} (hy : y ∈ ys) :
    ∃ x ∈ xs, f x = some y := by
  induction xs generalizing ys with
  | nil =>
    cases h
    cases hy
  | cons x xs ih =>
    rw [List.mapM_cons] at h
    obtain ⟨z, hz, h⟩ := Option.bind_eq_some_iff.mp h
    obtain ⟨zs, hzs, h⟩ := Option.bind_eq_some_iff.mp h
    cases h
    rcases List.mem_cons.mp hy with rfl | hy
    · exact ⟨x, List.mem_cons_self, hz⟩
    · obtain ⟨w, hw, hfw⟩ := ih hzs hy
      exact ⟨w, List.mem_cons_of_mem x hw, hfw⟩

/-- A number that was read is finite. -/
theorem isFinite_of_scalar? {v : Json} {x : Float} (h : v.scalar? = some x) :
    x.isFinite = true := by
  cases v with
  | number literal => exact Binary64.isFinite_of_ofDecimal h
  | _ => cases h

theorem Step.isFinite_of_ofJson? {v : Json} {axis : Axis} {angle : Float}
    (h : Step.ofJson? v = some (.rotation axis angle)) :
    angle.isFinite = true := by
  obtain ⟨choice, -, h⟩ := Option.bind_eq_some_iff.mp h
  split at h
  · obtain ⟨fields, -, h⟩ := Option.bind_eq_some_iff.mp h
    split at h
    · obtain ⟨a, -, h⟩ := Option.bind_eq_some_iff.mp h
      obtain ⟨x, hx, h⟩ := Option.bind_eq_some_iff.mp h
      cases h
      exact isFinite_of_scalar? hx
    · cases h
  · cases h
  · cases h
  · cases h

namespace Table

theorem angles_entryOfJson? {field : Option String × Json}
    {entry : String × Decomposition Float}
    (h : entryOfJson? field = some entry) :
    entry.2.Angles fun x => x.isFinite = true := by
  obtain ⟨name, -, h⟩ := Option.bind_eq_some_iff.mp h
  obtain ⟨items, -, h⟩ := Option.bind_eq_some_iff.mp h
  obtain ⟨steps, hsteps, h⟩ := Option.bind_eq_some_iff.mp h
  cases h
  intro axis angle hstep
  obtain ⟨v, -, hv⟩ := exists_of_mem_mapM hsteps hstep
  exact Step.isFinite_of_ofJson? hv

/-- A table that was read has finite angles. -/
theorem angles_ofText {text : String} {t : Table Float}
    (h : ofText text = .ok t) :
    t.Angles fun x => x.isFinite = true := by
  rw [ofText] at h
  split at h
  · next t' hread =>
    cases h
    obtain ⟨v, -, hv⟩ := Option.bind_eq_some_iff.mp hread
    obtain ⟨values, -, hv⟩ := Option.bind_eq_some_iff.mp hv
    split at hv
    · obtain ⟨entries, hentries, hv⟩ := Option.bind_eq_some_iff.mp hv
      cases hv
      -- each field was read by itself, and a number is read as a finite one
      refine (angles_empty _).insertAll fun entry hentry => ?_
      obtain ⟨field, -, hfield⟩ := exists_of_mem_mapM hentries hentry
      exact angles_entryOfJson? hfield
    · cases hv
  · cases h

/-! ### The tables of a run -/

theorem angles_withDefaults : (withDefaults : Table Float).Angles fun x =>
      x.isFinite = true := by
  refine (angles_empty _).insert _ fun axis angle hstep => ?_
  have hangle : angle = 1.57 := by
    simp [controlledFlip, Step.rx, Step.rz] at hstep
    tauto
  rw [hangle]
  rfl

/-- Completing a table with the gates on one qubit keeps its angles finite. -/
theorem angles_populate {t t' : Table Float} {config : Config Float}
    (ht : t.Angles fun x => x.isFinite = true)
    (h : t.populate FixedGate.singleQubit config = .ok t') :
    t'.Angles fun x => x.isFinite = true := by
  obtain ⟨found, hfound, rfl⟩ := populate_eq_ok_iff.mp h
  refine ht.insertAll fun entry hentry => ?_
  obtain ⟨p, hp, -, hsteps⟩ := exists_mem_of_forall₂ hfound hentry
  have hlisted : p.1 ∈ FixedGate.singleQubit :=
    List.fst_mem_of_mem_zipIdx (List.mem_of_mem_filter hp)
  exact angles_decomposeFixed
    (FixedGate.arity_of_mem_singleQubit hlisted) hsteps

end Table

end Gimbal
