/-
Gimbal/Proofs/Binding.lean

Binding a decomposition to qubits.  Steps that are bound to some qubits of a
register have the operator of the same steps on a register of their own, placed
on those qubits:

    operator n (d.map (bindControlled qs[a] qs[b])) = place qs (operator k (d.map (bindControlled a b))).

Steps for one qubit are covered by `a = b`, since a step that joins two qubits
is not bound to one (`mapM_bindSingle?`).  `bindSteps` is a binding of this
kind, on distinct qubits, and it succeeds where the number of qubits suits the
steps (`bindSteps_eq`).
-/
import Mathlib
import Gimbal.Proofs.CircuitOperator
import Gimbal.Expand

namespace Gimbal

variable {R K : Type} {n : ℕ}

/-! ### Steps -/

namespace Step

/-- Steps for one qubit are bound like steps for two, as long as none of them
joins qubits. -/
theorem mapM_bindSingle? (q : ℕ) (d : Decomposition R) :
    d.mapM (bindSingle? q) =
      if d.any entangles then none else some (d.map (bindControlled q q)) := by
  induction d with
  | nil => rfl
  | cons s d ih =>
    rw [List.mapM_cons, ih]
    cases s with
    | cz => rfl
    | rotation axis angle =>
      -- a rotation is bound in either way, so the rest decides
      show (if d.any entangles then none
        else some (d.map (bindControlled q q))).bind _ = _
      rw [List.any_cons]
      show _ = if d.any entangles then _ else _
      split <;> rfl

theorem rename_bindControlled (p : ℕ → ℕ) (c t : ℕ) (s : Step R) :
    (s.bindControlled c t).rename p = s.bindControlled (p c) (p t) := by
  cases s <;> rfl

end Step

theorem fits_bindControlled {c t : ℕ} (hc : c < n) (ht : t < n)
    (d : Decomposition R) :
    Circuit.Fits n (d.map (Step.bindControlled c t)) := by
  intro e he
  obtain ⟨s, -, rfl⟩ := List.mem_map.mp he
  cases s with
  | rotation axis angle => exact (Entry.fits_rotation_iff axis angle).mpr ht
  | cz => exact Entry.fits_cz_iff.mpr ⟨hc, ht⟩

/-- Steps on distinct qubits of a register have the operator of the steps alone,
placed there. -/
theorem operator_bindControlled [CommRing K] [Rotations R K]
    [LawfulRotations R K] {qs : List ℕ} (h : ∀ q ∈ qs, q < n) (hnd : qs.Nodup)
    {a b : ℕ} (ha : a < qs.length) (hb : b < qs.length) (d : Decomposition R) :
    Circuit.Fits n (d.map (Step.bindControlled (qs.getD a 0) (qs.getD b 0))) ∧
      (Circuit.operator n
        (d.map (Step.bindControlled (qs.getD a 0) (qs.getD b 0))) :
          Matrix _ _ K)
        = place (wires qs h)
          (Circuit.operator qs.length (d.map (Step.bindControlled a b))) := by
  have hp : ∀ i : Fin qs.length, qs.getD i 0 = wires qs h i := by
    intro i
    exact List.getD_eq_getElem qs 0 i.isLt
  have hmap : (d.map (Step.bindControlled a b)).map (Entry.rename (qs.getD · 0))
      = d.map (Step.bindControlled (qs.getD a 0) (qs.getD b 0)) := by
    rw [List.map_map]
    refine List.map_congr_left fun s _ => ?_
    exact Step.rename_bindControlled _ a b s
  -- the bound steps are the steps on `a` and `b` with their qubits renamed, and
  -- renaming is placing
  rw [← hmap]
  exact Circuit.operator_rename (wires_injective h hnd) hp
    (fits_bindControlled ha hb d)

/-! ### Occurrences -/

/-- **Binding** succeeds where the qubits are distinct and the steps join qubits
exactly if there are two; rotations then act on the last qubit. -/
theorem bindSteps_eq (d : Decomposition R) (o : Occurrence R) :
    bindSteps d o =
      if o.qubits.Nodup ∧ (d.any Step.entangles ↔ o.qubits.length = 2) then
        .ok (d.map
          (Step.bindControlled (o.qubits.getD 0 0)
            (o.qubits.getD (o.qubits.length - 1) 0)))
      else .error (.arityMismatch o.name o) := by
  cases o with
  | controlled name c t =>
    -- on two qubits every step can be bound, so only the guards decide
    cases hany : d.any Step.entangles <;> by_cases hct : c = t <;>
      simp [bindSteps, Occurrence.qubits, Occurrence.name, hany, hct]
  | single name q =>
    rw [bindSteps, Step.mapM_bindSingle?]
    cases hany : d.any Step.entangles <;>
      simp [Occurrence.qubits, Occurrence.name]
  | parametrized name angle q =>
    rw [bindSteps, Step.mapM_bindSingle?]
    cases hany : d.any Step.entangles <;>
      simp [Occurrence.qubits, Occurrence.name]

/-- The same gate on the first qubits. -/
def Occurrence.alone : Occurrence R → Occurrence R
  | .single name _ => .single name 0
  | .controlled name _ _ => .controlled name 0 1
  | .parametrized name angle _ => .parametrized name angle 0

theorem Occurrence.qubits_alone (o : Occurrence R) :
    o.alone.qubits = List.range o.qubits.length := by
  cases o <;> rfl

/-- Where a decomposition is bound to an occurrence, it is bound to the same
gate alone. -/
theorem bindSteps_alone {d : Decomposition R} {o : Occurrence R}
    {piece : Circuit R} (h : bindSteps d o = .ok piece) :
    bindSteps d o.alone =
      .ok (d.map (Step.bindControlled 0 (o.qubits.length - 1))) := by
  rw [bindSteps_eq] at h ⊢
  split at h
  · next hcond =>
    rw [Occurrence.qubits_alone, List.length_range,
      if_pos ⟨List.nodup_range, hcond.2⟩]
    cases o <;> rfl
  · cases h

end Gimbal
