/-
Gimbal/Proofs/ReductionMeaning.lean

Reduction keeps the meaning of a circuit, up to a sign and an error in
proportion to the number of entries it removes:

    ‖V - s * U‖ ≤ 0.0166 * (c.length - (reduce rules c).length),        s = 1 or s = -1.

The error has two sources.  A dropped rotation by almost a full turn differs
from `-1` by at most half of what is missing to the turn; a merged angle is
rounded to hundredths, and whole turns that are taken off it are signs.
Commuting and cancelling are exact.  One entry goes for each error, so the
errors of all rules in all passes add up to the bound.
-/
import Mathlib
import Gimbal.Proofs.ExactRules
import Gimbal.Proofs.UnitaryCircuit

namespace Gimbal

open scoped Matrix.Norms.L2Operator

variable {n : ℕ}

/-! ### Angles -/

theorem isIdentityAngle_iff (θ : ℝ) :
    isIdentityAngle θ = true ↔ θ = 0 ∨ 6.25 ≤ θ ∧ θ ≤ 2 * Real.pi := by
  rw [isIdentityAngle, Bool.or_eq_true, Bool.and_eq_true, decide_eq_true_iff,
    decide_eq_true_iff, Exact.tau_eq, beq_iff_eq]
  rfl

/-- A rotation that does nothing is a sign, up to the width of the band. -/
theorem closeUpTo_turn_of_isIdentityAngle (d : Direction) {θ : ℝ}
    (h : isIdentityAngle θ) :
    CloseUpTo signs 0.0166 1 (d.turn θ) := by
  -- an identity angle is zero or close to a whole turn, which is a sign
  rcases (isIdentityAngle_iff θ).mp h with rfl | ⟨hlow, hhigh⟩
  · rw [Direction.turn_zero]
    exact (CloseUpTo.refl signs 1).mono (by norm_num)
  · have hfull : d.turn (2 * Real.pi) = -1 := by
      simpa using d.turn_int_mul_two_pi 1
    have hdist := d.norm_turn_sub_le θ (2 * Real.pi)
    have hpi := Real.pi_lt_d4
    refine ⟨-1, Or.inr rfl, ?_⟩
    calc ‖1 - (-1 : ℂ) • d.turn θ‖ = ‖d.turn θ - d.turn (2 * Real.pi)‖ := by
          rw [hfull, neg_smul, one_smul, sub_neg_eq_add, sub_neg_eq_add,
            add_comm]
      _ ≤ |θ - 2 * Real.pi| / 2 := hdist
      _ ≤ 0.0166 := by
          rw [abs_of_nonpos (by linarith)]
          norm_num at hlow hpi ⊢
          linarith

/-- A merged angle is the sum less some whole turns, up to half a hundredth. -/
theorem exists_abs_mergeAngles_sub_le (x y : ℝ) :
    ∃ k : ℤ, |mergeAngles x y - (x + y - k * (2 * Real.pi))| ≤ 0.005 := by
  unfold mergeAngles
  dsimp only
  split
  · exact ⟨⌊(x + y) / (2 * Real.pi)⌋, Exact.abs_roundHundredth_sub_le _⟩
  · exact ⟨0, by simpa using Exact.abs_roundHundredth_sub_le (x + y)⟩

/-- A merged rotation is the two after each other up to a sign, within a quarter
of a hundredth. -/
theorem closeUpTo_turn_mergeAngles (d : Direction) (x y : ℝ) :
    CloseUpTo signs 0.0025 (d.turn (mergeAngles x y)) (d.turn (x + y)) := by
  obtain ⟨k, hk⟩ := exists_abs_mergeAngles_sub_le x y
  -- the turns that were taken off are a sign, and rounding is all that is left
  have hwhole :
      d.turn (x + y - k * (2 * Real.pi)) =
        ((-1) ^ (-k) : ℂ) • d.turn (x + y) := by
    have hturn := d.turn_int_mul_two_pi (-k)
    rw [show x + y - k * (2 * Real.pi) =
      ((-k : ℤ) : ℝ) * (2 * Real.pi) + (x + y) by
      push_cast; ring, ← Direction.turn_mul_turn, hturn, Matrix.smul_mul,
        one_mul]
  have hsign : ((-1) ^ (-k) : ℂ) ∈ signs := by
    rcases Int.even_or_odd (-k) with heven | hodd
    · exact Or.inl heven.neg_one_zpow
    · exact Or.inr hodd.neg_one_zpow
  refine ⟨_, hsign, ?_⟩
  rw [← hwhole]
  refine (d.norm_turn_sub_le _ _).trans ?_
  norm_num at hk ⊢
  linarith

/-! ### Simplification -/

/-- `d` fits where `c` does and stands for it up to a sign, with an error in
proportion to the entries that it lacks. -/
structure Simplifies (n : ℕ) (c d : Circuit ℝ) : Prop where
  fits : Circuit.Fits n d
  close :
    CloseUpTo signs (0.0166 * (c.length - d.length)) (Circuit.complex n d)
      (Circuit.complex n c)

namespace Simplifies

variable {c d e : Circuit ℝ}

theorem trans (h : Simplifies n c d) (h' : Simplifies n d e) :
    Simplifies n c e where
  fits := h'.fits
  close := (h'.close.trans signs_le_unitary h.close).mono (le_of_eq (by ring))

/-- A circuit with the same operator that is not longer. -/
theorem of_complex_eq (hfits : Circuit.Fits n d) (hlen : d.length ≤ c.length)
    (heq : Circuit.complex n d = Circuit.complex n c) : Simplifies n c d where
  fits := hfits
  close := by
    have hcast : (d.length : ℝ) ≤ c.length := Nat.cast_le.mpr hlen
    rw [heq]
    exact (CloseUpTo.refl signs _).mono
      (mul_nonneg (by norm_num) (sub_nonneg.mpr hcast))

theorem refl (h : Circuit.Fits n c) : Simplifies n c c :=
  of_complex_eq h le_rfl rfl

/-- An entry in front stays as it is. -/
theorem cons {a : Entry ℝ} (ha : a.Fits n) (h : Simplifies n c d) :
    Simplifies n (a :: c) (a :: d) where
  fits := Circuit.Fits.cons ha h.fits
  close := by
    -- what stands in front is the same on both sides and has norm at most one
    have hone : ‖a.complex n‖ ≤ 1 :=
      (CStarRing.norm_of_mem_unitary (Entry.complex_mem_unitary ha)).le
    have hmul := h.close.mul signs_le_unitary
      (Circuit.norm_complex_le_one h.fits) hone
      (CloseUpTo.refl signs (a.complex n))
    rw [Circuit.complex_cons, Circuit.complex_cons]
    refine hmul.mono (le_of_eq ?_)
    rw [List.length_cons, List.length_cons]
    push_cast
    ring

/-- The first entries are replaced by close ones, fewer by one. -/
theorem front {δ : ℝ} (old new : Circuit ℝ) (hfits : Circuit.Fits n (old ++ c))
    (hnew : Circuit.Fits n new) (hlen : old.length = new.length + 1)
    (hδ : δ ≤ 0.0166)
    (hclose :
      CloseUpTo signs δ (Circuit.complex n new) (Circuit.complex n old)) :
    Simplifies n (old ++ c) (new ++ c) := by
  have hold : Circuit.Fits n old := hfits.subset (List.subset_append_left old c)
  have hc : Circuit.Fits n c := hfits.subset (List.subset_append_right old c)
  constructor
  · exact hnew.append hc
  · have hmul := (CloseUpTo.refl signs (Circuit.complex n c)).mul
      signs_le_unitary
      (Circuit.norm_complex_le_one hc) (Circuit.norm_complex_le_one hold) hclose
    rw [Circuit.complex_append, Circuit.complex_append]
    refine hmul.mono ?_
    rw [List.length_append, List.length_append, hlen]
    push_cast
    linarith

end Simplifies

/-! ### The rules -/

theorem simplifies_drop {e : Entry ℝ} {c : Circuit ℝ}
    (h : Circuit.Fits n (e :: c)) (hid : e.isIdentity) :
    Simplifies n (e :: c) c := by
  cases e with
  | cz control target => simp [Entry.isIdentity] at hid
  | rotation axis θ q =>
    have hq : q < n := (Entry.fits_rotation_iff axis θ).mp h.head
    have hinj : Function.Injective fun _ : Fin 1 => (⟨q, hq⟩ : Fin n) :=
      Function.injective_of_subsingleton _
    have hturn :=
      (closeUpTo_turn_of_isIdentityAngle axis.direction hid).place hinj
    rw [place_one, ← Entry.complex_rotation] at hturn
    refine Simplifies.front [.rotation axis θ q] [] h (by simp [Circuit.Fits])
      rfl le_rfl ?_
    rwa [Circuit.complex_nil, Circuit.complex_cons, Circuit.complex_nil,
      one_mul]

theorem simplifies_removeIdentities {c : Circuit ℝ} (h : Circuit.Fits n c) :
    Simplifies n c (removeIdentities c) := by
  -- induction on the circuit, dropping or keeping its head
  induction c with
  | nil => exact Simplifies.refl h
  | cons e c ih =>
    by_cases hid : e.isIdentity
    · have hskip : removeIdentities (e :: c) = removeIdentities c := by
        simp [removeIdentities, hid]
      rw [hskip]
      exact (simplifies_drop h hid).trans (ih h.tail)
    · have hkeep : removeIdentities (e :: c) = e :: removeIdentities c := by
        simp [removeIdentities, hid]
      rw [hkeep]
      exact (ih h.tail).cons h.head

theorem simplifies_fuse {first next e : Entry ℝ} {c : Circuit ℝ}
    (h : Circuit.Fits n (first :: next :: c))
    (hfuse : first.fuse? next = some e) :
    Simplifies n (first :: next :: c) (e :: c) := by
  obtain ⟨axis, x, y, p, rfl, rfl, rfl⟩ := fuse?_eq_some_iff.mp hfuse
  have hp : p < n := (Entry.fits_rotation_iff axis x).mp h.head
  have hinj : Function.Injective fun _ : Fin 1 => (⟨p, hp⟩ : Fin n) :=
    Function.injective_of_subsingleton _
  have hturn := (closeUpTo_turn_mergeAngles axis.direction x y).place hinj
  -- the second rotation acts last, so it stands on the left
  rw [add_comm x y, ← Direction.turn_mul_turn, place_mul hinj,
    ← Entry.complex_rotation, ← Entry.complex_rotation,
    ← Entry.complex_rotation] at hturn
  have hsmall : (0.0025 : ℝ) ≤ 0.0166 := by norm_num
  refine Simplifies.front [.rotation axis x p, .rotation axis y p]
    [.rotation axis (mergeAngles x y) p] h ?_ rfl hsmall ?_
  · exact Circuit.Fits.cons ((Entry.fits_rotation_iff axis _).mpr hp)
      (by simp [Circuit.Fits])
  · simpa using hturn

theorem simplifies_mergeFrom {first : Entry ℝ} {rest : Circuit ℝ}
    (h : Circuit.Fits n (first :: rest)) :
    Simplifies n (first :: rest) (mergeFrom first rest) := by
  fun_induction mergeFrom first rest with
  | case1 first => exact Simplifies.refl h
  | case2 first next rest e hfuse ih =>
    have hstep := simplifies_fuse h hfuse
    exact hstep.trans (ih hstep.fits)
  | case3 first next rest _ ih => exact (ih h.tail).cons h.head

theorem simplifies_mergeRotations {c : Circuit ℝ} (h : Circuit.Fits n c) :
    Simplifies n c (mergeRotations c) := by
  cases c with
  | nil => exact Simplifies.refl h
  | cons first rest => exact simplifies_mergeFrom h

theorem simplifies_commuteThroughCz {c : Circuit ℝ} (h : Circuit.Fits n c) :
    Simplifies n c (commuteThroughCz c) := by
  have hperm := commuteThroughCz_perm c
  refine Simplifies.of_complex_eq (h.subset hperm.subset) hperm.length_eq.le ?_
  rw [Circuit.complex, operator_commuteThroughCz h, Circuit.complex]

theorem simplifies_cancelCzPairs {c : Circuit ℝ} (h : Circuit.Fits n c) :
    Simplifies n c (cancelCzPairs c) := by
  have hsub := cancelCzPairs_sublist c
  refine Simplifies.of_complex_eq (h.subset hsub.subset) hsub.length_le ?_
  rw [Circuit.complex, operator_cancelCzPairs h, Circuit.complex]

/-! ### Passes -/

theorem simplifies_applyIf {f : Circuit ℝ → Circuit ℝ}
    (hf : ∀ {c}, Circuit.Fits n c → Simplifies n c (f c)) (rules : List Rule)
    (rule : Rule) {c : Circuit ℝ} (h : Circuit.Fits n c) :
    Simplifies n c (applyIf rules rule f c) := by
  unfold applyIf
  split
  · exact hf h
  · exact Simplifies.refl h

theorem simplifies_pass (rules : List Rule) {c : Circuit ℝ}
    (h : Circuit.Fits n c) :
    Simplifies n c (pass rules c) := by
  -- the rules in the order in which a pass applies them
  have hdrop :=
    simplifies_applyIf simplifies_removeIdentities rules .removeIdentities h
  have hcommute :=
    simplifies_applyIf simplifies_commuteThroughCz rules .commuteThroughCz
      hdrop.fits
  have hmerge :=
    simplifies_applyIf simplifies_mergeRotations rules .mergeRotations
      hcommute.fits
  have hcancel :=
    simplifies_applyIf simplifies_cancelCzPairs rules .cancelCzPairs hmerge.fits
  exact ((hdrop.trans hcommute).trans hmerge).trans hcancel

theorem simplifies_reduce (rules : List Rule) {c : Circuit ℝ}
    (h : Circuit.Fits n c) :
    Simplifies n c (reduce rules c) := by
  fun_induction reduce rules c with
  | case1 c next _ ih =>
    have hpass := simplifies_pass rules h
    exact hpass.trans (ih hpass.fits)
  | case2 c next _ => exact simplifies_pass rules h

/-- **Reduction keeps the meaning of a circuit**: the reduced circuit has a
unitary wherever the circuit has one, and up to a sign the two differ in the
operator norm by at most 0.0166 for each entry that was removed. -/
theorem reduce_close_up_to_sign (rules : List Rule) (c : Circuit ℝ) (n : ℕ)
    (U : Mat (Amplitude ℝ)) (h : c.unitary n = some U) :
    ∃ V : Mat (Amplitude ℝ), (reduce rules c).unitary n = some V ∧
      ∃ s : ℂ, (s = 1 ∨ s = -1) ∧
        ‖V.complex n - s • U.complex n‖ ≤
          0.0166 * ((c.length : ℝ) - (reduce rules c).length) := by
  obtain ⟨hfits, hclose⟩ :=
    simplifies_reduce rules (Circuit.unitary_eq_some_iff.mp h).1
  obtain ⟨V, hV, hcomplex⟩ := hfits.exists_complex
  obtain ⟨s, hs, hnorm⟩ := hclose
  refine ⟨V, hV, s, hs, ?_⟩
  rwa [hcomplex, Circuit.complex_of_unitary h]

/-- Two rotations that make almost a full turn once a phase flip between them is
out of the way. -/
theorem reduce_close_up_to_sign_around_cz :
    ∃ (c : Circuit ℝ) (U V : Mat (Amplitude ℝ)),
      c = [.rz 3 1, .cz 0 1, .rz 3.27 1] ∧
      c.unitary 2 = some U ∧ (reduce [.all] c).unitary 2 = some V ∧
      ∃ s : ℂ, (s = 1 ∨ s = -1) ∧
        ‖V.complex 2 - s • U.complex 2‖ ≤
          0.0166 * ((c.length : ℝ) - (reduce [.all] c).length) := by
  have hfits : Circuit.Fits 2 [.rz (3 : ℝ) 1, .cz 0 1, .rz 3.27 1] := by
    simp [Circuit.Fits, Entry.Fits, Entry.qubits, Entry.rz]
  obtain ⟨U, hU, -⟩ := hfits.exists_complex
  obtain ⟨V, hV, hclose⟩ := reduce_close_up_to_sign [.all] _ 2 U hU
  exact ⟨_, U, V, rfl, hU, hV, hclose⟩

end Gimbal
