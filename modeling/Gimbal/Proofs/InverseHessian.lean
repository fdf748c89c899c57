/-
Gimbal/Proofs/InverseHessian.lean

The two-loop recursion as a matrix.

A history of pairs `(s, y, ρ)` stands for an approximate inverse Hessian: a
multiple of the identity, updated by one pair after the other, the oldest first
(`bfgs`),

    H  ↦  (1 - ρ s yᵀ) H (1 - ρ y sᵀ) + ρ s sᵀ.

The search never forms it.  Its first loop goes from the newest pair to the
oldest, its second one back, and they share a list of coefficients; but the
newest pair is the first of the one and the last of the other
(`twoLoop_append`), so that the recursion is the one on matrices, by induction
on the history from its new end.

Where all pairs have `ρ > 0` the matrix is positive definite.  The direction of
an iteration is minus its product with the free part of the gradient, so it
descends: over exact numbers, and with a tolerance that is not negative, the
search never falls back (`Visits.dot_modelDirection_neg`).
-/
import Mathlib
import Gimbal.Proofs.CurvatureWindow

namespace Gimbal

open Matrix

/-! ### Two loops, one recursion -/

section TwoLoop

variable {R : Type} [Scalar R]

/-- The first loop from any state. -/
def peelFrom (history : List (Curvature R)) (state : List R × List R) :
    List R × List R :=
  history.reverse.foldl (fun acc c =>
    let a := c.rho * dot c.s acc.1
    (List.zipWith (fun q y => q - a * y) acc.1 c.y, a :: acc.2)) state

/-- Coefficients that are there already stay behind the new ones. -/
theorem peelFrom_eq (history : List (Curvature R)) (q alphas : List R) :
    peelFrom history (q, alphas) =
      ((peelFrom history (q, [])).1,
        (peelFrom history (q, [])).2 ++ alphas) := by
  unfold peelFrom
  generalize history.reverse = pairs
  induction pairs generalizing q alphas with
  | nil => rfl
  | cons c pairs ih =>
    rw [List.foldl_cons, ih, List.foldl_cons, ih _ [_], List.append_assoc]
    rfl

/-- The newest pair comes first. -/
theorem peel_append (history : List (Curvature R)) (c : Curvature R)
    (g : List R) :
    peel (history ++ [c]) g =
      ((peel history
        (List.zipWith (fun q y => q - c.rho * dot c.s g * y) g c.y)).1,
          (peel history
            (List.zipWith (fun q y => q - c.rho * dot c.s g * y) g c.y)).2 ++
          [c.rho * dot c.s g]) := by
  have hfirst : peel (history ++ [c]) g = peelFrom history
      (List.zipWith (fun q y => q - c.rho * dot c.s g * y) g c.y,
        [c.rho * dot c.s g]) := by
    rw [peel, List.reverse_append]
    rfl
  rw [hfirst, peelFrom_eq]
  rfl

theorem length_alphas (history : List (Curvature R)) (g : List R) :
    (peel history g).2.length = history.length := by
  induction history using List.reverseRecOn generalizing g with
  | nil => rfl
  | append_singleton history c ih =>
    rw [peel_append, List.length_append, ih, List.length_append]
    rfl

/-- The newest pair comes last. -/
theorem rebuild_append {history : List (Curvature R)} {alphas : List R}
    (hlength : alphas.length = history.length) (c : Curvature R) (a : R)
    (q : List R) :
    rebuild (history ++ [c]) (alphas ++ [a]) q =
      List.zipWith
        (fun qi si =>
          qi + si * (a - c.rho * dot c.y (rebuild history alphas q)))
        (rebuild history alphas q) c.s := by
  rw [rebuild, List.zip_append hlength.symm, List.foldl_append]
  rfl

/-- The two loops, with any scale between them. -/
def twoLoop (scale : R) (history : List (Curvature R)) (g : List R) : List R :=
  rebuild history (peel history g).2
    ((peel history g).1.map fun qi => qi * scale)

/-- The newest pair is met before and after all others. -/
theorem twoLoop_append (scale : R) (history : List (Curvature R))
    (c : Curvature R) (g : List R) :
    twoLoop scale (history ++ [c]) g =
      let a := c.rho * dot c.s g
      let q := twoLoop scale history (List.zipWith (fun q y => q - a * y) g c.y)
      List.zipWith (fun qi si => qi + si * (a - c.rho * dot c.y q)) q c.s := by
  rw [twoLoop, peel_append, rebuild_append (length_alphas _ _)]
  rfl

theorem inverseHessianTimes_singleton (c : Curvature R) (g : List R) :
    inverseHessianTimes [c] g =
      let a := c.rho * dot c.s g
      let q := (List.zipWith (fun q y => q - a * y) g c.y).map fun qi =>
        qi * (dot c.s c.y / dot c.y c.y)
      List.zipWith (fun qi si => qi + si * (a - c.rho * dot c.y q)) q c.s :=
  twoLoop_append (curvatureScale [c]) [] c g

end TwoLoop

/-! ### Vectors with as many components -/

/-- The first `n` components of a vector. -/
def components (n : ℕ) (xs : List ℝ) : Fin n → ℝ := fun i => xs.getD i 0

theorem ofFn_components {n : ℕ} {xs : List ℝ} (h : xs.length = n) :
    List.ofFn (components n xs) = xs := by
  subst h
  refine List.ext_getElem (by rw [List.length_ofFn]) fun i hi hi' => ?_
  rw [List.getElem_ofFn, components, List.getD_eq_getElem _ _ hi']

theorem components_ofFn {n : ℕ} (v : Fin n → ℝ) :
    components n (List.ofFn v) = v := by
  funext i
  rw [components,
    List.getD_eq_getElem _ _ (by rw [List.length_ofFn]; exact i.isLt),
    List.getElem_ofFn]

theorem zipWith_ofFn {n : ℕ} (f : ℝ → ℝ → ℝ) (u v : Fin n → ℝ) :
    List.zipWith f (List.ofFn u) (List.ofFn v) = List.ofFn fun i =>
      f (u i) (v i) := by
  refine List.ext_getElem (by simp) fun i hi hi' => ?_
  rw [List.getElem_zipWith, List.getElem_ofFn, List.getElem_ofFn,
    List.getElem_ofFn]

theorem dot_eq_sum (xs ys : List ℝ) :
    dot xs ys = (List.zipWith (· * ·) xs ys).sum :=
  List.sum_eq_foldl.symm

theorem dot_cons (a b : ℝ) (xs ys : List ℝ) :
    dot (a :: xs) (b :: ys) = a * b + dot xs ys := by
  rw [dot_eq_sum, dot_eq_sum, List.zipWith_cons_cons, List.sum_cons]

theorem dot_nil_right (xs : List ℝ) : dot xs [] = 0 := by
  rw [dot_eq_sum, List.zipWith_nil_right, List.sum_nil]

theorem dot_comm (xs ys : List ℝ) : dot xs ys = dot ys xs := by
  rw [dot_eq_sum, dot_eq_sum, List.zipWith_comm]
  simp only [mul_comm]

theorem dot_map_neg (xs ys : List ℝ) :
    dot (xs.map fun v => -v) ys = -dot xs ys := by
  rw [dot_eq_sum, dot_eq_sum, List.zipWith_map_left, List.sum_neg,
    List.map_zipWith]
  simp only [neg_mul]

/-- Components that one vector has lost do not matter in the other. -/
theorem dot_release (xs ys : List ℝ) (pins : List Bool) :
    dot (release xs pins) (release ys pins) = dot xs (release ys pins) := by
  unfold release
  -- induction on the components of the three lists at once
  induction xs generalizing ys pins with
  | nil => rfl
  | cons x xs ih =>
    cases pins with
    | nil =>
      rw [List.zipWith_nil_right, List.zipWith_nil_right, dot_nil_right,
        dot_nil_right]
    | cons pin pins =>
      cases ys with
      | nil => rw [List.zipWith_nil_left, dot_nil_right, dot_nil_right]
      | cons y ys =>
        rw [List.zipWith_cons_cons, List.zipWith_cons_cons, dot_cons,
          dot_cons, ih]
        -- a pinned component is zero on either side
        cases pin
        · rfl
        · simp only [if_true, mul_zero]

theorem dot_ofFn {n : ℕ} (u v : Fin n → ℝ) :
    dot (List.ofFn u) (List.ofFn v) = u ⬝ᵥ v := by
  rw [dot_eq_sum, zipWith_ofFn, List.sum_ofFn]
  rfl

/-! ### The matrix of a history -/

section Bfgs

variable {n : ℕ}

/-- The update of an approximate inverse Hessian by a pair. -/
noncomputable def bfgsUpdate (H : Matrix (Fin n) (Fin n) ℝ) (c : Curvature ℝ) :
    Matrix (Fin n) (Fin n) ℝ :=
  (1 - c.rho • vecMulVec (components n c.s) (components n c.y)) * H *
    (1 - c.rho • vecMulVec (components n c.y) (components n c.s)) +
    c.rho • vecMulVec (components n c.s) (components n c.s)

/-- The multiple of the identity to begin with, from the newest pair. -/
noncomputable def bfgsScale (n : ℕ) (history : List (Curvature ℝ)) : ℝ :=
  match history.getLast? with
  | some c =>
    (components n c.s ⬝ᵥ components n c.y) /
      (components n c.y ⬝ᵥ components n c.y)
  | none => 1

/-- The approximate inverse Hessian that a history stands for. -/
noncomputable def bfgs (n : ℕ) (history : List (Curvature ℝ)) :
    Matrix (Fin n) (Fin n) ℝ :=
  history.foldl bfgsUpdate (bfgsScale n history • 1)

theorem bfgsUpdate_mulVec (H : Matrix (Fin n) (Fin n) ℝ) (c : Curvature ℝ)
    (g : Fin n → ℝ) :
    bfgsUpdate H c *ᵥ g =
      let a := c.rho * (components n c.s ⬝ᵥ g)
      let q := H *ᵥ (g - a • components n c.y)
      q + (a - c.rho * (components n c.y ⬝ᵥ q)) • components n c.s := by
  dsimp only
  -- the right factor of the update, applied to a vector
  have hright :
      (1 - c.rho • vecMulVec (components n c.y) (components n c.s)) *ᵥ g =
      g - (c.rho * (components n c.s ⬝ᵥ g)) • components n c.y := by
    rw [sub_mulVec, one_mulVec, smul_mulVec, vecMulVec_mulVec, op_smul_eq_smul,
      smul_smul]
  rw [bfgsUpdate, add_mulVec, ← mulVec_mulVec, ← mulVec_mulVec, hright,
    sub_mulVec, one_mulVec, smul_mulVec, smul_mulVec, vecMulVec_mulVec,
    vecMulVec_mulVec, op_smul_eq_smul,
    op_smul_eq_smul, smul_smul, smul_smul, sub_smul]
  exact sub_add_eq_add_sub _ _ _ |>.trans (add_sub_assoc _ _ _)

/-- The two loops multiply with the matrix that is updated from a multiple of
the identity. -/
theorem twoLoop_ofFn (scale : ℝ) {history : List (Curvature ℝ)}
    (hhistory : ∀ c ∈ history, c.s.length = n ∧ c.y.length = n)
    (g : Fin n → ℝ) :
    twoLoop scale history (List.ofFn g) =
      List.ofFn (history.foldl bfgsUpdate (scale • 1) *ᵥ g) := by
  -- induction on the history from its end, where the recursion starts
  induction history using List.reverseRecOn generalizing g with
  | nil =>
    show (List.ofFn g).map (fun qi => qi * scale) = _
    rw [List.map_ofFn, List.foldl_nil, smul_mulVec, one_mulVec]
    congr 1
    funext i
    exact mul_comm _ _
  | append_singleton history c ih =>
    rw [List.forall_mem_append, List.forall_mem_singleton] at hhistory
    obtain ⟨hold, hs, hy⟩ := hhistory
    rw [List.foldl_append, List.foldl_cons, List.foldl_nil, bfgsUpdate_mulVec,
      twoLoop_append]
    -- all vectors as functions, the pair's own included
    rw [← ofFn_components hs, ← ofFn_components hy]
    simp only [components_ofFn, dot_ofFn, zipWith_ofFn]
    have hpeeled :
        (fun i => g i - c.rho * (components n c.s ⬝ᵥ g) * components n c.y i) =
        g - (c.rho * (components n c.s ⬝ᵥ g)) • components n c.y := rfl
    rw [hpeeled, ih hold, dot_ofFn, zipWith_ofFn]
    congr 1
    funext i
    exact congrArg (_ + ·) (mul_comm _ _)

theorem curvatureScale_eq {history : List (Curvature ℝ)}
    (hhistory : ∀ c ∈ history, c.s.length = n ∧ c.y.length = n) :
    curvatureScale history = bfgsScale n history := by
  rw [curvatureScale, bfgsScale]
  cases hlast : history.getLast? with
  | none => rfl
  | some c =>
    obtain ⟨hs, hy⟩ := hhistory c (List.mem_of_getLast? hlast)
    dsimp only
    rw [← dot_ofFn, ← dot_ofFn, ofFn_components hs, ofFn_components hy]

/-- **The two-loop recursion multiplies with the matrix of the history.** -/
theorem inverseHessianTimes_ofFn {history : List (Curvature ℝ)}
    (hhistory : ∀ c ∈ history, c.s.length = n ∧ c.y.length = n)
    (g : Fin n → ℝ) :
    inverseHessianTimes history (List.ofFn g) =
      List.ofFn (bfgs n history *ᵥ g) := by
  rw [bfgs, ← curvatureScale_eq hhistory]
  exact twoLoop_ofFn _ hhistory g

/-! ### Positive definiteness -/

/-- The form of an updated matrix is the form of the old one at a shifted
vector, and a square. -/
theorem dotProduct_bfgsUpdate (H : Matrix (Fin n) (Fin n) ℝ) (c : Curvature ℝ)
    (v : Fin n → ℝ) :
    let w := v - (c.rho * (components n c.s ⬝ᵥ v)) • components n c.y
    v ⬝ᵥ bfgsUpdate H c *ᵥ v =
      w ⬝ᵥ H *ᵥ w + c.rho * (components n c.s ⬝ᵥ v) ^ 2 := by
  intro w
  -- the left factor moves over to the vector
  have hshift : w ⬝ᵥ H *ᵥ w =
      v ⬝ᵥ H *ᵥ w - c.rho * (components n c.s ⬝ᵥ v) *
        (components n c.y ⬝ᵥ H *ᵥ w) := by
    rw [sub_dotProduct, smul_dotProduct, smul_eq_mul]
  rw [bfgsUpdate_mulVec, dotProduct_add, dotProduct_smul, smul_eq_mul, hshift,
    dotProduct_comm v (components n c.s)]
  ring

theorem bfgsUpdate_pos {H : Matrix (Fin n) (Fin n) ℝ}
    (hH : ∀ v ≠ 0, 0 < v ⬝ᵥ H *ᵥ v) {c : Curvature ℝ} (hrho : 0 < c.rho) :
    ∀ v ≠ 0, 0 < v ⬝ᵥ bfgsUpdate H c *ᵥ v := by
  intro v hv
  have hform := dotProduct_bfgsUpdate H c v
  dsimp only at hform
  rw [hform]
  by_cases hw : v - (c.rho * (components n c.s ⬝ᵥ v)) • components n c.y = 0
  · -- the vector is a multiple of `y`, and so not orthogonal to `s`
    have hsv : components n c.s ⬝ᵥ v ≠ 0 := by
      intro hzero
      rw [hzero, mul_zero, zero_smul, sub_zero] at hw
      exact hv hw
    rw [hw, zero_dotProduct, zero_add]
    exact mul_pos hrho (sq_pos_of_ne_zero hsv)
  · exact add_pos_of_pos_of_nonneg (hH _ hw) (mul_nonneg hrho.le (sq_nonneg _))

theorem dotProduct_self_pos {v : Fin n → ℝ} (hv : v ≠ 0) : 0 < v ⬝ᵥ v :=
  dotProduct_star_self_pos_iff.mpr hv

/-- With positive weights, and a positive multiple of the identity to begin
with, the matrix of a history is positive definite. -/
theorem bfgs_pos {history : List (Curvature ℝ)}
    (hscale : 0 < bfgsScale n history) (hrho : ∀ c ∈ history, 0 < c.rho) :
    ∀ v ≠ 0, 0 < v ⬝ᵥ bfgs n history *ᵥ v := by
  rw [bfgs]
  refine List.foldlRecOn (motive := fun H => ∀ v ≠ 0, 0 < v ⬝ᵥ H *ᵥ v) _ _ ?_ ?_
  · intro v hv
    rw [smul_mulVec, one_mulVec, dotProduct_smul, smul_eq_mul]
    exact mul_pos hscale (dotProduct_self_pos hv)
  · exact fun H hH c hc => bfgsUpdate_pos hH (hrho c hc)

theorem bfgsScale_pos {history : List (Curvature ℝ)}
    (hhistory : ∀ c ∈ history, c.s.length = n ∧ c.y.length = n)
    (hcurved : ∀ c ∈ history, 0 < dot c.s c.y) : 0 < bfgsScale n history := by
  rw [bfgsScale]
  cases hlast : history.getLast? with
  | none => exact one_pos
  | some c =>
    have hc := List.mem_of_getLast? hlast
    obtain ⟨hs, hy⟩ := hhistory c hc
    -- the scale is a quotient of two positive inner products
    have hdot : 0 < components n c.s ⬝ᵥ components n c.y := by
      rw [← dot_ofFn, ofFn_components hs, ofFn_components hy]
      exact hcurved c hc
    refine div_pos hdot (dotProduct_self_pos fun hzero => ?_)
    rw [hzero, dotProduct_zero] at hdot
    exact hdot.false

end Bfgs

/-- Times its approximate inverse Hessian a vector has a positive inner product
with itself. -/
theorem dot_inverseHessianTimes_pos {n : ℕ} {history : List (Curvature ℝ)}
    (hhistory : ∀ c ∈ history, c.s.length = n ∧ c.y.length = n)
    (hcurved : ∀ c ∈ history, 0 < dot c.s c.y ∧ c.rho = 1 / dot c.s c.y)
    {g : List ℝ} (hg : g.length = n) (hne : ∃ v ∈ g, v ≠ 0) :
    0 < dot g (inverseHessianTimes history g) := by
  have hrho : ∀ c ∈ history, 0 < c.rho := by
    intro c hc
    obtain ⟨hpos, hrho⟩ := hcurved c hc
    rw [hrho]
    exact one_div_pos.mpr hpos
  have hcomponents : components n g ≠ 0 := by
    intro hzero
    obtain ⟨v, hv, hne⟩ := hne
    obtain ⟨i, hi, rfl⟩ := List.mem_iff_getElem.mp hv
    refine hne ?_
    rw [← List.getD_eq_getElem g 0 hi]
    exact congrFun hzero ⟨i, hg ▸ hi⟩
  rw [← ofFn_components hg, inverseHessianTimes_ofFn hhistory, dot_ofFn]
  exact bfgs_pos (bfgsScale_pos hhistory fun c hc => (hcurved c hc).1) hrho _
    hcomponents

namespace QuasiNewton

/-! ### Descent -/

theorem Visits.aligned {R : Type} [Scalar R] {p : QuasiNewton R}
    {f : List R → R} {box : List (Interval R)} {x : List R} {k : ℕ}
    {it : Iterate R} (h : p.Visits f box x k it) :
    Aligned box it := by
  induction h with
  | start =>
    refine ⟨length_gradient .., fun c hc => ?_⟩
    cases hc
  | next _ _ hstep ih => exact ih.next (hstep ▸ advances_advance _ _)

section Descent

variable {p : QuasiNewton ℝ} {f : List ℝ → ℝ} {box : List (Interval ℝ)}
  {x : List ℝ} {k : ℕ}
  {it : Iterate ℝ}

/-- The direction that the history gives, without its pinned components. -/
theorem modelDirection_eq (box : List (Interval ℝ)) (it : Iterate ℝ) :
    modelDirection box it =
      (release (inverseHessianTimes it.history (freePart box it))
        (pinned it.point it.gradient box)).map fun v => -v := by
  rw [modelDirection, release, List.map_zipWith]
  congr 1
  funext di pin
  cases pin
  · rfl
  · exact neg_zero.symm

/-- Above a tolerance that is not negative some component is not zero. -/
theorem exists_mem_freePart_ne_zero (htolerance : 0 ≤ p.gradientTolerance)
    (hsteep : ¬ maxAbs (freePart box it) ≤ p.gradientTolerance) :
    ∃ v ∈ freePart box it, v ≠ 0 := by
  by_contra hzero
  push Not at hzero
  refine hsteep (maxAbs_le_iff.mpr ⟨htolerance, fun v hv => ?_⟩)
  rw [hzero v hv]
  exact abs_zero.trans_le htolerance

/-- The direction that the history gives descends. -/
theorem Visits.dot_modelDirection_neg (h : p.Visits f box x k it)
    (htolerance : 0 ≤ p.gradientTolerance)
    (hsteep : ¬ maxAbs (freePart box it) ≤ p.gradientTolerance) :
    dot (modelDirection box it) (freePart box it) < 0 := by
  have haligned : Aligned box it := h.aligned
  have hcurved : ∀ c ∈ it.history, 0 < dot c.s c.y ∧
      c.rho = 1 / dot c.s c.y := by
    intro c hc
    obtain ⟨hcurved, hrho⟩ := h.stored c hc
    have hleast : (0 : ℝ) < leastCurvature := by norm_num [leastCurvature]
    exact ⟨hleast.trans hcurved, hrho⟩
  have hpos :
      0 < dot (freePart box it)
        (inverseHessianTimes it.history (freePart box it)) :=
    dot_inverseHessianTimes_pos haligned.history hcurved
      haligned.length_freePart
      (exists_mem_freePart_ne_zero htolerance hsteep)
  -- pinned components are zero in the gradient, so masking the direction
  -- changes nothing
  have hmask : dot (modelDirection box it) (freePart box it) =
      -dot (freePart box it)
        (inverseHessianTimes it.history (freePart box it)) := by
    rw [modelDirection_eq, dot_map_neg, dot_comm (freePart box it)]
    exact congrArg _ (dot_release _ _ _)
  rw [hmask]
  exact neg_neg_of_pos hpos

end Descent

/-- **The two-loop recursion is the operator of the history, and always gives
descent.**  For a history of vectors with `n` components it multiplies with the
matrix that is updated from a multiple of the identity by one pair after the
other; if the pairs are curved and carry one over their inner product, that
matrix is positive definite.  So a search with a tolerance that is not negative
never falls back:  in every iteration that searches, on every objective and in
every box, the direction that the history gives descends and is the one that is
followed. -/
theorem inverseHessian_descends :
    (∀ (n : ℕ) (history : List (Curvature ℝ)) (g : List ℝ),
      (∀ c ∈ history, c.s.length = n ∧ c.y.length = n) → g.length = n →
      inverseHessianTimes history g =
        List.ofFn (bfgs n history *ᵥ components n g) ∧
        ((∀ c ∈ history, 0 < dot c.s c.y ∧ c.rho = 1 / dot c.s c.y) →
          (∃ v ∈ g, v ≠ 0) →
          0 < dot g (inverseHessianTimes history g))) ∧
    ∀ (p : QuasiNewton ℝ) (f : List ℝ → ℝ) (box : List (Interval ℝ))
      (x : List ℝ) (k : ℕ)
      (it : Iterate ℝ), 0 ≤ p.gradientTolerance → p.Visits f box x k it →
      ¬ maxAbs (freePart box it) ≤ p.gradientTolerance →
      dot (modelDirection box it) (freePart box it) < 0 ∧
        course box it = (modelDirection box it, it.history) := by
  constructor
  · intro n history g hhistory hg
    refine ⟨?_,
      fun hcurved hne => dot_inverseHessianTimes_pos hhistory hcurved hg hne⟩
    rw [← inverseHessianTimes_ofFn hhistory, ofFn_components hg]
  · intro p f box x k it htolerance hvisits hsteep
    have hneg : dot (modelDirection box it) (freePart box it) < 0 :=
      hvisits.dot_modelDirection_neg htolerance hsteep
    exact ⟨hneg, course_of_not_fallsBack (not_le.mpr hneg)⟩

/-- On the second step down the bowl, with one pair in the history and a
gradient along one axis. -/
theorem inverseHessian_descends_bowl :
    ∃ (it : Iterate ℝ) (c : Curvature ℝ), c = ⟨[-1, -2], [-2, -8], 1 / 18⟩ ∧
      it.history = [c] ∧
      Visits ⟨1e-6, 2.2e-9, 1, 2, 40, 1⟩ bowl [⟨-5, 5⟩, ⟨-5, 5⟩] [1, 1] 1 it ∧
      freePart [⟨-5, 5⟩, ⟨-5, 5⟩] it = [0, -4] ∧
      inverseHessianTimes it.history [0, -4] =
        List.ofFn (bfgs 2 [c] *ᵥ components 2 [0, -4]) ∧
      0 < dot [0, -4] (inverseHessianTimes it.history [0, -4]) ∧
      dot (modelDirection [⟨-5, 5⟩, ⟨-5, 5⟩] it) [0, -4] < 0 ∧
      course [⟨-5, 5⟩, ⟨-5, 5⟩] it =
        (modelDirection [⟨-5, 5⟩, ⟨-5, 5⟩] it, [c]) := by
  let box : List (Interval ℝ) := [⟨-5, 5⟩, ⟨-5, 5⟩]
  let c : Curvature ℝ := ⟨[-1, -2], [-2, -8], 1 / 18⟩
  let it : Iterate ℝ := ⟨[0, -1], 2, [0, -4], [c]⟩
  have hfree : freePart box it = [0, -4] := by
    norm_num [box, it, freePart, pinned, isPinned, release]
  have hsteep : ¬ maxAbs (freePart box it) ≤ 1e-6 := by
    rw [hfree, maxAbs_le_iff]
    norm_num [Scalar.abs]
  have hcurved : ∀ c ∈ it.history, 0 < dot c.s c.y ∧
      c.rho = 1 / dot c.s c.y := by
    norm_num [it, c, dot, sum]
  obtain ⟨hoperator, hdescends⟩ := inverseHessian_descends
  obtain ⟨hequal, hpos⟩ :=
    hoperator 2 it.history [0, -4]
      (List.forall_mem_singleton.mpr ⟨rfl, rfl⟩) rfl
  obtain ⟨hneg, hcourse⟩ :=
    hdescends _ bowl box [1, 1] 1 it (by norm_num) (visits_bowl 1) hsteep
  rw [hfree] at hneg
  exact ⟨it, c, rfl, rfl, visits_bowl 1, hfree, hequal,
    hpos hcurved ⟨-4, by simp, by norm_num⟩, hneg, hcourse⟩

end QuasiNewton

end Gimbal
