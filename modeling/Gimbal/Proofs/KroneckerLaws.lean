/-
Gimbal/Proofs/KroneckerLaws.lean

The product laws of the Kronecker product, for matrices of any shape.

A row of `a.kron b` is counted block by block, as `i * b.rows + k`, and a column
as `j * b.cols + l`; there the entry is a product of two (`entry_kron_block`).
So the stored product is the Kronecker product of linear algebra along the
enumeration of pairs (`HasShape.leading_kron`), and

    (a.kron b).mul (c.kron d) = (a.mul c).kron (b.mul d),      (a.kron b).kron c = a.kron (b.kron c)

where the shapes allow the products.  Rows and columns are counted by different
blocks, and the inner dimensions by a third: nothing asks for square matrices,
or for any entries at all.

Lifting is a Kronecker product with an identity, which multiplies with itself to
the identity; so it keeps products, and in particular the runs of rotations that
a template for two qubits is made of.
-/
import Mathlib
import Gimbal.Proofs.KroneckerBlocks
import Gimbal.Proofs.TemplateMeaning

namespace Gimbal

open scoped Kronecker

variable {K : Type}

namespace Mat

/-! ### Matrices in sequence -/

/-- The matrices of a list applied one after another, the first one to `u`. -/
def inSequence [Zero K] [MulAdd K] (u : Mat K) (ms : List (Mat K)) : Mat K :=
  ms.foldl (fun u m => m.mul u) u

/-! ### Entries by blocks -/

/-- Every entry of the first factor scales a block with the shape of the
second. -/
theorem entry_kron_block [Zero K] [Mul K] (a b : Mat K) {i j k l : ℕ}
    (hi : i < a.rows) (hj : j < a.cols) (hk : k < b.rows) (hl : l < b.cols) :
    (a.kron b).entry (i * b.rows + k) (j * b.cols + l) =
      a.entry i j * b.entry k l := by
  rw [entry_kron a b (index_lt hi hk) (index_lt hj hl), index_div hk,
    index_div hl, index_mod hk, index_mod hl]

theorem HasShape.kron [Zero K] [Mul K] {r c r' c' : ℕ} {a b : Mat K}
    (ha : a.HasShape r c) (hb : b.HasShape r' c') :
    (a.kron b).HasShape (r * r') (c * c') := by
  obtain ⟨rfl, rfl⟩ := ha
  obtain ⟨rfl, rfl⟩ := hb
  exact ⟨rfl, rfl⟩

/-- The stored Kronecker product is the Kronecker product, with its pairs of
indices counted. -/
theorem HasShape.leading_kron [Zero K] [Mul K] {r c r' c' : ℕ} {a b : Mat K}
    (ha : a.HasShape r c) (hb : b.HasShape r' c') :
    (a.kron b).leading (r * r') (c * c')
      = (a.leading r c ⊗ₖ b.leading r' c').submatrix finProdFinEquiv.symm
        finProdFinEquiv.symm := by
  obtain ⟨rfl, rfl⟩ := ha
  obtain ⟨rfl, rfl⟩ := hb
  ext x y
  exact entry_kron a b x.isLt y.isLt

/-! ### Product laws -/

variable [CommRing K]

/-- The Kronecker product is associative. -/
theorem kron_assoc (a b c : Mat K) : (a.kron b).kron c = a.kron (b.kron c) := by
  refine ext_entry (Nat.mul_assoc _ _ _) (Nat.mul_assoc _ _ _) ?_
  intro i j hi hj
  have hrow : i / c.rows < a.rows * b.rows :=
    Nat.div_lt_of_lt_mul (by rwa [Nat.mul_comm])
  have hcol : j / c.cols < a.cols * b.cols :=
    Nat.div_lt_of_lt_mul (by rwa [Nat.mul_comm])
  have hi' : i < a.rows * (b.rows * c.rows) := by rwa [← Nat.mul_assoc]
  have hj' : j < a.cols * (b.cols * c.cols) := by rwa [← Nat.mul_assoc]
  have hrow' : i % (b.rows * c.rows) < b.rows * c.rows :=
    Nat.mod_lt _ (Nat.pos_of_lt_mul_left hi')
  have hcol' : j % (b.cols * c.cols) < b.cols * c.cols :=
    Nat.mod_lt _ (Nat.pos_of_lt_mul_left hj')
  calc ((a.kron b).kron c).entry i j
      = a.entry (i / c.rows / b.rows) (j / c.cols / b.cols)
          * b.entry (i / c.rows % b.rows) (j / c.cols % b.cols)
          * c.entry (i % c.rows) (j % c.cols) := by
        rw [entry_kron _ c hi hj, entry_kron a b hrow hcol]
    -- division with remainder by a product is division by one factor after the
    -- other
    _ = a.entry (i / (b.rows * c.rows)) (j / (b.cols * c.cols))
          * (b.entry (i % (b.rows * c.rows) / c.rows)
            (j % (b.cols * c.cols) / c.cols)
            * c.entry (i % (b.rows * c.rows) % c.rows)
              (j % (b.cols * c.cols) % c.cols)) := by
        rw [Nat.mod_mul_left_div_self, Nat.mod_mul_left_div_self,
          Nat.mod_mul_left_mod, Nat.mod_mul_left_mod, Nat.div_div_eq_div_mul,
          Nat.div_div_eq_div_mul, Nat.mul_comm c.rows,
          Nat.mul_comm c.cols, mul_assoc]
    _ = (a.kron (b.kron c)).entry i j := by
        rw [entry_kron a (b.kron c) hi' hj', ← entry_kron b c hrow' hcol']
        rfl

variable [MulAdd K] [LawfulMulAdd K]

/-- Kronecker products multiply factor by factor. -/
theorem kron_mul_kron {a b c d : Mat K} (hac : a.cols = c.rows)
    (hbd : b.cols = d.rows) :
    (a.kron b).mul (c.kron d) = (a.mul c).kron (b.mul d) := by
  have ha : a.HasShape a.rows a.cols := ⟨rfl, rfl⟩
  have hb : b.HasShape b.rows b.cols := ⟨rfl, rfl⟩
  have hc : c.HasShape a.cols c.cols := ⟨hac.symm, rfl⟩
  have hd : d.HasShape b.cols d.cols := ⟨hbd.symm, rfl⟩
  refine ((ha.kron hb).mul (hc.kron hd)).eq_of_leading_eq
    ((ha.mul hc).kron (hb.mul hd)) ?_
  -- over rectangular matrices this is the mixed product of the library
  rw [(ha.kron hb).leading_mul (hc.kron hd), ha.leading_kron hb,
    hc.leading_kron hd, (ha.mul hc).leading_kron (hb.mul hd), ha.leading_mul hc,
    hb.leading_mul hd,
    Matrix.mul_kronecker_mul, Matrix.submatrix_mul_equiv]

/-! ### Lifting -/

theorem identity_mul_identity (n : ℕ) :
    (identity n : Mat K).mul (identity n) = identity n := by
  have hone := onQubits_identity (K := K) n
  refine (hone.mul hone).eq_of_toMatrix_eq hone ?_
  rw [hone.toMatrix_mul hone, toMatrix_identity, mul_one]

omit [MulAdd K] [LawfulMulAdd K] in
theorem lift_identity : (identity 1 : Mat K).lift = identity 2 := by
  have hone := onQubits_identity (K := K) 1
  refine (hone.kron hone).eq_of_toMatrix_eq (onQubits_identity 2) ?_
  rw [hone.toMatrix_identity_kron, toMatrix_identity, toMatrix_identity,
    place_one]

/-- Lifting keeps products. -/
theorem lift_mul {a b : Mat K} (h : a.cols = b.rows) :
    (a.mul b).lift = a.lift.mul b.lift := by
  rw [lift, lift, lift, kron_mul_kron rfl h, identity_mul_identity]

/-- Lifting a sequence lifts every part of it. -/
theorem lift_inSequence {u : Mat K} {ms : List (Mat K)} (hu : u.OnQubits 1)
    (hms : ∀ m ∈ ms, m.OnQubits 1) :
    (inSequence u ms).lift = inSequence u.lift (ms.map lift) := by
  induction ms generalizing u with
  | nil => rfl
  | cons m ms ih =>
    obtain ⟨hm, hms⟩ := List.forall_mem_cons.mp hms
    have hstep : (m.mul u).lift = m.lift.mul u.lift :=
      lift_mul (hm.2.trans hu.1.symm)
    calc (inSequence u (m :: ms)).lift
        = inSequence (m.mul u).lift (ms.map lift) := ih (hm.mul hu) hms
      _ = inSequence u.lift ((m :: ms).map lift) := by rw [hstep]; rfl

end Mat

/-! ### Runs of rotations -/

/-- The rotations of a run, where `k` have gone before. -/
def runRotations {R : Type} [Scalar R] (k : ℕ) (angles : List R) :
    List (Mat (Amplitude R)) :=
  (angles.zipIdx k).map fun p => Rotations.rotation (runAxis p.2) p.1

theorem runMatrixFrom_eq_inSequence {R : Type} [Scalar R] (k : ℕ)
    (m : Mat (Amplitude R)) (angles : List R) :
    runMatrixFrom k m angles = Mat.inSequence m (runRotations k angles) := by
  induction angles generalizing k m with
  | nil => rfl
  | cons θ angles ih => exact ih (k + 1) _

theorem onQubits_runRotations (k : ℕ) (angles : List ℝ) :
    ∀ m ∈ runRotations k angles, m.OnQubits 1 := by
  intro m hm
  obtain ⟨p, -, rfl⟩ := List.mem_map.mp hm
  exact LawfulRotations.onQubits_rotation _ _

/-- A run of lifted rotations. -/
def liftedRun {R : Type} [Scalar R] (angles : List R) : Mat (Amplitude R) :=
  Mat.inSequence (Mat.identity 2) ((runRotations 0 angles).map Mat.lift)

/-- A run that is multiplied out and then lifted is the run of its lifted
rotations. -/
theorem lift_runMatrix (angles : List ℝ) :
    (runMatrix angles).lift = liftedRun angles := by
  rw [runMatrix, runMatrixFrom_eq_inSequence,
    Mat.lift_inSequence (Mat.onQubits_identity 1)
      (onQubits_runRotations 0 angles), Mat.lift_identity,
    liftedRun]

/-- **The laws of the Kronecker product**, over any commutative ring and for
matrices of any shape, empty ones included.  Its entries are the products of an
entry of each factor, block by block; products are taken factor by factor where
the shapes allow them; and it is associative.  So lifting keeps products, those
of any number of one-qubit matrices included, and a template for two qubits,
which lifts its runs of rotations as a whole, is made of lifted rotations. -/
theorem Mat.kron_laws [CommRing K] [MulAdd K] [LawfulMulAdd K] :
    (∀ a b : Mat K, (a.kron b).HasShape (a.rows * b.rows) (a.cols * b.cols) ∧
      ∀ i j k l, i < a.rows → j < a.cols → k < b.rows → l < b.cols →
        (a.kron b).entry (i * b.rows + k) (j * b.cols + l) =
          a.entry i j * b.entry k l) ∧
    (∀ a b c d : Mat K, a.cols = c.rows → b.cols = d.rows →
      (a.kron b).mul (c.kron d) = (a.mul c).kron (b.mul d)) ∧
    (∀ a b c : Mat K, (a.kron b).kron c = a.kron (b.kron c)) ∧
    (∀ a b : Mat K, a.cols = b.rows → (a.mul b).lift = a.lift.mul b.lift) ∧
    (∀ ms : List (Mat K), (∀ m ∈ ms, m.OnQubits 1) →
      (inSequence (identity 1) ms).lift =
        inSequence (identity 2) (ms.map lift)) ∧
    ∀ (depth : ℕ) (angles : List ℝ), templateProduct .twoQubit depth angles
      = ((liftedRun (angles.drop depth)).mul controlledZ).mul
        (liftedRun (angles.take depth)) := by
  refine ⟨fun a b => ⟨⟨rfl, rfl⟩, fun i j k l => entry_kron_block a b⟩,
    fun a b c d => kron_mul_kron, kron_assoc, fun a b => lift_mul,
      fun ms hms => ?_,
    fun depth angles => ?_⟩
  · rw [lift_inSequence (onQubits_identity 1) hms, lift_identity]
  · rw [templateProduct, lift_runMatrix, lift_runMatrix]

/-- The numbers from one on, row by row. -/
def Mat.counted (r c : ℕ) : Mat ℤ := ofFn r c fun i j => c * i + j + 1

/-- Matrices that are not square, a pair of them without entries, and two gates
on one qubit in sequence. -/
theorem Mat.kron_laws_oblong :
    ((counted 2 1).kron (counted 3 2)).entry (1 * 3 + 2) (0 * 2 + 1) = 2 * 6 ∧
    ((counted 2 1).kron (counted 3 2)).mul ((counted 1 3).kron (counted 2 4))
      = ((counted 2 1).mul (counted 1 3)).kron ((counted 3 2).mul (counted 2 4)) ∧
    ((counted 2 0).kron (counted 3 2)).mul ((counted 0 3).kron (counted 2 4))
      = ((counted 2 0).mul (counted 0 3)).kron ((counted 3 2).mul (counted 2 4)) ∧
    ((counted 1 2).mul (counted 2 3)).lift =
      (counted 1 2).lift.mul (counted 2 3).lift ∧
    (inSequence (identity 1) [counted 2 2, square 0 1 1 0]).lift
      = inSequence (identity 2) [(counted 2 2).lift,
        (square 0 1 1 0).lift] := by
  obtain ⟨hblock, hmul, -, hlift, hsequence, -⟩ := kron_laws (K := ℤ)
  have hentry := (hblock (counted 2 1) (counted 3 2)).2 1 0 2 1
  refine ⟨hentry (by decide) (by decide) (by decide) (by decide),
    hmul _ _ _ _ rfl rfl, hmul _ _ _ _ rfl rfl, hlift _ _ rfl, hsequence _ ?_⟩
  intro m hm
  rcases List.mem_pair.mp hm with rfl | rfl
  · exact ⟨rfl, rfl⟩
  · exact onQubits_square 0 1 1 0

end Gimbal
