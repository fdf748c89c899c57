/-
Gimbal/Proofs/CanonicalAngles.lean

The angles of a reduced circuit.  Three constants decide about them: sums above
6.28 are brought back into a turn, by whole turns of `2 * π`, and rotations by
6.25 and more are dropped.  They fit together.  What lies in a turn is less than
half a hundredth above 6.28, so with angles that are not negative

    0 ≤ mergeAngles x y ≤ 6.28 < 2 * π        (`mergeAngles_mem`),

and a merged angle can be merged again.  Every angle of a reduced circuit lies
in the turn for that reason, and it lies below the band, since no rotation that
does nothing is left.
-/
import Mathlib
import Gimbal.Compile
import Gimbal.Proofs.NormalForm
import Gimbal.Proofs.ReductionMeaning

namespace Gimbal

/-! ### Rounding to hundredths -/

namespace Exact

/-- Rounding gives an integer. -/
theorem exists_int_round (x : ℝ) : ∃ k : ℤ, Scalar.round x = k := by
  show ∃ k : ℤ, (if 0 ≤ x then (⌊x + 1 / 2⌋ : ℝ) else (⌈x - 1 / 2⌉ : ℝ)) = k
  split
  · exact ⟨_, rfl⟩
  · exact ⟨_, rfl⟩

theorem exists_int_roundHundredth (x : ℝ) :
    ∃ k : ℤ, roundHundredth x = k * 0.01 := by
  obtain ⟨k, hk⟩ := exists_int_round (x * 100.0)
  refine ⟨k, ?_⟩
  rw [roundHundredth, hk]
  norm_num
  ring

theorem roundHundredth_nonneg {x : ℝ} (hx : 0 ≤ x) : 0 ≤ roundHundredth x := by
  obtain ⟨k, hk⟩ := exists_int_roundHundredth x
  have hnear := (abs_le.mp (abs_roundHundredth_sub_le x)).1
  rw [hk] at hnear ⊢
  -- a negative multiple of a hundredth would be more than half of one away
  have hk0 : (-1 : ℝ) < k := by
    norm_num at hnear
    linarith
  have hk1 : (0 : ℤ) ≤ k := by
    have : (-1 : ℤ) < k := by exact_mod_cast hk0
    omega
  have hcast : (0 : ℝ) ≤ k := by exact_mod_cast hk1
  positivity

/-- What lies less than half a hundredth above a multiple is not rounded above
it. -/
theorem roundHundredth_le {x : ℝ} {m : ℤ} (hx : x < m * 0.01 + 0.005) :
    roundHundredth x ≤ m * 0.01 := by
  obtain ⟨k, hk⟩ := exists_int_roundHundredth x
  have hnear := (abs_le.mp (abs_roundHundredth_sub_le x)).2
  rw [hk] at hnear ⊢
  have hlt : (k : ℝ) < m + 1 := by
    norm_num at hnear hx
    linarith
  have hle : k ≤ m := by
    have : k < m + 1 := by exact_mod_cast hlt
    omega
  have hcast : (k : ℝ) ≤ m := by exact_mod_cast hle
  norm_num
  linarith

end Exact

/-! ### Merged angles -/

theorem exists_int_mergeAngles (x y : ℝ) :
    ∃ k : ℤ, mergeAngles x y = k * 0.01 := by
  unfold mergeAngles
  dsimp only
  split <;> exact Exact.exists_int_roundHundredth _

/-- Merged angles lie in the turn, wherever the two lie that are not
negative. -/
theorem mergeAngles_mem {x y : ℝ} (hx : 0 ≤ x) (hy : 0 ≤ y) :
    0 ≤ mergeAngles x y ∧ mergeAngles x y ≤ 6.28 := by
  have hround : ∀ s : ℝ, 0 ≤ s → s < 6.285 →
      0 ≤ roundHundredth s ∧ roundHundredth s ≤ 6.28 := by
    intro s hs hlt
    refine ⟨Exact.roundHundredth_nonneg hs, ?_⟩
    have hle :=
      Exact.roundHundredth_le (x := s) (m := 628)
        (by norm_num at hlt ⊢; linarith)
    norm_num at hle ⊢
    exact hle
  unfold mergeAngles
  dsimp only
  split
  · -- less than a turn is left, which is less than half a hundredth above 6.28
    have hlow := Int.sub_floor_div_mul_nonneg (x + y) Real.two_pi_pos
    have hhigh := Int.sub_floor_div_mul_lt (x + y) Real.two_pi_pos
    refine hround _ hlow (hhigh.trans ?_)
    have hpi := Real.pi_lt_d4
    norm_num at hpi ⊢
    linarith
  · next hsmall =>
    have hle : x + y ≤ 6.28 := not_lt.mp hsmall
    refine hround _ (add_nonneg hx hy) (hle.trans_lt (by norm_num))

/-! ### Reduced circuits -/

/-- An angle in the turn, of a rotation of the circuit or a multiple of a
hundredth. -/
def Entry.Regular (c : Circuit ℝ) : Entry ℝ → Prop
  | .rotation axis θ q =>
    (0 ≤ θ ∧ θ ≤ tau) ∧ (.rotation axis θ q ∈ c ∨ ∃ k : ℤ, θ = k * 0.01)
  | .cz _ _ => True

theorem Entry.Regular.merge {c : Circuit ℝ} {axis : Axis} {x y : ℝ} {q : ℕ}
    (hx : Regular c (.rotation axis x q))
    (hy : Regular c (.rotation axis y q)) :
    Regular c (.rotation axis (mergeAngles x y) q) := by
  obtain ⟨hlow, hhigh⟩ := mergeAngles_mem hx.1.1 hy.1.1
  have hpi := Real.pi_gt_d4
  refine ⟨⟨hlow, hhigh.trans ?_⟩, .inr (exists_int_mergeAngles x y)⟩
  rw [Exact.tau_eq]
  norm_num at hpi ⊢
  linarith

/-- **Reduced angles are canonical.**  Where all rotations of a circuit are by
angles in one turn, those of the reduced circuit are by angles strictly between
zero and 6.25, and each of them is a rotation of the circuit or has a multiple
of a hundredth for its angle. -/
theorem reduce_angles_canonical (c : Circuit ℝ)
    (hc : ∀ axis θ q, .rotation axis θ q ∈ c → 0 ≤ θ ∧ θ ≤ 2 * Real.pi) :
    ∀ axis (θ : ℝ) q, .rotation axis θ q ∈ reduce allRules c →
      (0 < θ ∧ θ < 6.25) ∧
        (.rotation axis θ q ∈ c ∨ ∃ k : ℤ, θ = k * 0.01) := by
  have hkeep : RulesKeep allRules fun d : Circuit ℝ => ∀ e ∈ d, e.Regular c :=
    rulesKeep_forall_mem (fun axis x y q hx hy => hx.merge hy) allRules
  have hself : ∀ e ∈ c, e.Regular c := by
    intro e he
    cases e with
    | rotation axis θ q => exact ⟨hc axis θ q he, .inl he⟩
    | cz control target => trivial
  intro axis θ q hmem
  obtain ⟨⟨hlow, hhigh⟩, horigin⟩ := hkeep.reduce hself _ hmem
  have hleft : isIdentityAngle θ = false :=
    (redexFree_reduce allRules c).noIdentity rfl axis θ q hmem
  rw [← Bool.not_eq_true, isIdentityAngle_iff, not_or, not_and_or, not_le,
    not_le] at hleft
  obtain ⟨hzero, hband⟩ := hleft
  exact ⟨⟨lt_of_le_of_ne hlow (Ne.symm hzero),
    hband.resolve_right (not_lt.mpr hhigh)⟩, horigin⟩

/-- Rotations that add up to more than a turn once they meet, a full turn, and
one that stays. -/
theorem reduce_angles_canonical_past_turn :
    ∃ c : Circuit ℝ,
      c = [.rz 3.1 0, .cz 0 1, .rz 3.2 0, .rx (2 * Real.pi) 1, .rx (1 / 3) 1] ∧
      (∀ axis θ q, .rotation axis θ q ∈ c → 0 ≤ θ ∧ θ ≤ 2 * Real.pi) ∧
      ∀ axis (θ : ℝ) q, .rotation axis θ q ∈ reduce allRules c →
        (0 < θ ∧ θ < 6.25) ∧
          (.rotation axis θ q ∈ c ∨ ∃ k : ℤ, θ = k * 0.01) := by
  have hpi := Real.pi_gt_three
  have hturn : ∀ axis (θ : ℝ) q, .rotation axis θ q ∈
      ([.rz 3.1 0, .cz 0 1, .rz 3.2 0, .rx (2 * Real.pi) 1, .rx (1 / 3) 1] :
        Circuit ℝ) →
      0 ≤ θ ∧ θ ≤ 2 * Real.pi := by
    intro axis θ q hmem
    simp only [Entry.rz, Entry.rx, List.mem_cons, Entry.rotation.injEq,
      reduceCtorEq, List.not_mem_nil, or_false, false_or] at hmem
    rcases hmem with ⟨-, rfl, -⟩ | ⟨-, rfl, -⟩ | ⟨-, rfl, -⟩ | ⟨-, rfl, -⟩ <;>
      constructor <;> norm_num <;> linarith
  exact ⟨_, rfl, hturn, reduce_angles_canonical _ hturn⟩

end Gimbal
