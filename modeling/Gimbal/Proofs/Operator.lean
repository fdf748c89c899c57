/-
Gimbal/Proofs/Operator.lean

Stored matrices as operators.  `m.leading r c` is the matrix of linear algebra
with the first entries of `m`, and `m.toMatrix n` is the one on the basis states
of `n` qubits.  On matrices of that shape (`HasShape r c`, `OnQubits n`) nothing
is lost, and the operations correspond:

    (a.mul b).toMatrix n = a.toMatrix n * b.toMatrix n,      (identity n).toMatrix n = 1.

Gates that are applied one after another multiply to their operators in the
order in which they act (`product`), and a loop that multiplies embedded gates
computes it (`foldlM_mul_eq_some_iff`).
-/
import Mathlib
import Gimbal.Proofs.Exact
import Gimbal.Gate

namespace Gimbal

/-- A sum that is accumulated from the left. -/
theorem fold_mulAdd {K : Type} [CommRing K] [MulAdd K] [LawfulMulAdd K] (n : ℕ)
    (f g : ℕ → K) :
    Nat.fold n (fun k _ acc => MulAdd.mulAdd acc (f k) (g k)) 0 =
      ∑ k : Fin n, f k * g k := by
  induction n with
  | zero => simp
  | succ n ih =>
    rw [Nat.fold_succ, ih, LawfulMulAdd.mulAdd_eq, Fin.sum_univ_castSucc]
    rfl

namespace Mat

variable {K L : Type}

/-! ### Matrices of any shape -/

/-- The matrix has `r` rows and `c` columns. -/
def HasShape (r c : ℕ) (m : Mat K) : Prop := m.rows = r ∧ m.cols = c

/-- The entries in the first `r` rows and the first `c` columns. -/
def leading [Zero K] (m : Mat K) (r c : ℕ) : Matrix (Fin r) (Fin c) K :=
  Matrix.of fun i j => m.entry i j

theorem leading_apply [Zero K] (m : Mat K) {r c : ℕ} (i : Fin r) (j : Fin c) :
    m.leading r c i j = m.entry i j := rfl

/-- A matrix is determined by its shape and its leading entries. -/
theorem HasShape.eq_of_leading_eq [Zero K] {r c : ℕ} {a b : Mat K}
    (ha : a.HasShape r c) (hb : b.HasShape r c)
    (h : a.leading r c = b.leading r c) : a = b := by
  refine ext_entry (ha.1.trans hb.1.symm) (ha.2.trans hb.2.symm) ?_
  intro i j hi hj
  rw [ha.1] at hi
  rw [ha.2] at hj
  exact congrFun (congrFun h ⟨i, hi⟩) ⟨j, hj⟩

theorem HasShape.mul [Zero K] [MulAdd K] {r k c : ℕ} {a b : Mat K}
    (ha : a.HasShape r k) (hb : b.HasShape k c) : (a.mul b).HasShape r c :=
  ⟨ha.1, hb.2⟩

/-- The stored product is the product. -/
theorem HasShape.leading_mul [CommRing K] [MulAdd K] [LawfulMulAdd K]
    {r k c : ℕ} {a b : Mat K} (ha : a.HasShape r k) (hb : b.HasShape k c) :
    (a.mul b).leading r c = a.leading r k * b.leading k c := by
  ext i j
  rw [leading_apply, Mat.mul, ha.1, hb.2, entry_ofFn _ i.isLt j.isLt,
    fold_mulAdd, ha.2, Matrix.mul_apply]
  rfl

/-! ### Operators on qubits -/

/-- The shape of a matrix on `n` qubits. -/
def OnQubits (n : ℕ) (m : Mat K) : Prop := m.rows = 2 ^ n ∧ m.cols = 2 ^ n

/-- The operator on `n` qubits with the entries of `m`. -/
def toMatrix [Zero K] (m : Mat K) (n : ℕ) :
    Matrix (Fin (2 ^ n)) (Fin (2 ^ n)) K :=
  Matrix.of fun i j => m.entry i j

theorem toMatrix_apply [Zero K] (m : Mat K) (n : ℕ) (i j : Fin (2 ^ n)) :
    m.toMatrix n i j = m.entry i j := rfl

/-- A matrix on `n` qubits is determined by its operator. -/
theorem OnQubits.eq_of_toMatrix_eq [Zero K] {n : ℕ} {a b : Mat K}
    (ha : a.OnQubits n) (hb : b.OnQubits n) (h : a.toMatrix n = b.toMatrix n) :
    a = b :=
  HasShape.eq_of_leading_eq ha hb h

/-! ### Products -/

theorem onQubits_identity [Zero K] [One K] (n : ℕ) :
    (identity n : Mat K).OnQubits n :=
  ⟨rfl, rfl⟩

theorem toMatrix_ofFn [Zero K] (n : ℕ) (f : ℕ → ℕ → K) :
    (ofFn (2 ^ n) (2 ^ n) f).toMatrix n = Matrix.of fun i j =>
      f i.val j.val := by
  ext i j
  exact entry_ofFn f i.isLt j.isLt

/-- Every operator is that of a matrix. -/
theorem exists_toMatrix_eq [Zero K] {n : ℕ}
    (M : Matrix (Fin (2 ^ n)) (Fin (2 ^ n)) K) :
    ∃ m : Mat K, m.OnQubits n ∧ m.toMatrix n = M := by
  refine ⟨ofFn (2 ^ n) (2 ^ n) fun i j =>
    if h : i < 2 ^ n ∧ j < 2 ^ n then M ⟨i, h.1⟩ ⟨j, h.2⟩ else 0,
      ⟨rfl, rfl⟩, ?_⟩
  rw [toMatrix_ofFn]
  ext i j
  simp

theorem toMatrix_identity [CommRing K] (n : ℕ) :
    (identity n : Mat K).toMatrix n = 1 := by
  rw [identity, Nat.pow_eq, toMatrix_ofFn]
  ext i j
  simp [Matrix.one_apply, Fin.ext_iff]

theorem OnQubits.mul [Zero K] [MulAdd K] {n : ℕ} {a b : Mat K}
    (ha : a.OnQubits n) (hb : b.OnQubits n) : (a.mul b).OnQubits n :=
  ⟨ha.1, hb.2⟩

theorem OnQubits.toMatrix_mul [CommRing K] [MulAdd K] [LawfulMulAdd K] {n : ℕ}
    {a b : Mat K} (ha : a.OnQubits n) (hb : b.OnQubits n) :
    (a.mul b).toMatrix n = a.toMatrix n * b.toMatrix n :=
  HasShape.leading_mul ha hb

/-! ### Gates one after another -/

/-- The product of operators in the order in which they act. -/
def product {α : Type} [CommRing K] {n : ℕ}
    (op : α → Matrix (Fin (2 ^ n)) (Fin (2 ^ n)) K) :
    List α → Matrix (Fin (2 ^ n)) (Fin (2 ^ n)) K
  | [] => 1
  | a :: as => product op as * op a

theorem product_append {α : Type} [CommRing K] {n : ℕ}
    (op : α → Matrix (Fin (2 ^ n)) (Fin (2 ^ n)) K) (as bs : List α) :
    product op (as ++ bs) = product op bs * product op as := by
  induction as with
  | nil => rw [List.nil_append, product, mul_one]
  | cons a as ih => rw [List.cons_append, product, product, ih, mul_assoc]

/-- A loop that multiplies the gates of a list, where `gate a` is there exactly
under the condition `P a` and then has the operator `op a`. -/
theorem foldlM_mul_eq_some_iff {α : Type} [CommRing K] [MulAdd K]
    [LawfulMulAdd K] {n : ℕ} {gate : α → Option (Mat K)} {P : α → Prop}
    {op : α → Matrix (Fin (2 ^ n)) (Fin (2 ^ n)) K}
    (hgate : ∀ a m, gate a = some m ↔ P a ∧ m.OnQubits n ∧ m.toMatrix n = op a)
    {as : List α} {u U : Mat K} (hu : u.OnQubits n) :
    as.foldlM (fun u a => (gate a).map fun g => g.mul u) u = some U ↔
      (∀ a ∈ as, P a) ∧ U.OnQubits n ∧
        U.toMatrix n = product op as * u.toMatrix n := by
  -- induction on the gates, for any matrix the loop starts from
  induction as generalizing u with
  | nil =>
    rw [List.foldlM_nil, product, one_mul]
    constructor
    · intro h
      obtain rfl : u = U := Option.some.inj h
      exact ⟨by simp, hu, rfl⟩
    · rintro ⟨-, hU, hmat⟩
      exact congrArg some (hu.eq_of_toMatrix_eq hU hmat.symm)
  | cons a as ih =>
    rw [List.foldlM_cons, List.forall_mem_cons, and_assoc]
    rcases hm : gate a with - | m
    · constructor
      · intro h
        cases h
      · -- under the condition there is a gate: some matrix has the operator
        rintro ⟨ha, -⟩
        obtain ⟨m, hshape, hop⟩ := exists_toMatrix_eq (op a)
        rw [(hgate a m).mpr ⟨ha, hshape, hop⟩] at hm
        cases hm
    · -- the rest of the loop starts from the product with this gate
      obtain ⟨ha, hshape, hop⟩ := (hgate a m).mp hm
      refine (ih (hshape.mul hu)).trans ?_
      rw [hshape.toMatrix_mul hu, hop, product, mul_assoc]
      exact ⟨fun h => ⟨ha, h⟩, fun h => h.2⟩

/-! ### Changing the entries -/

theorem OnQubits.map {n : ℕ} {m : Mat K} (h : m.OnQubits n) (f : K → L) :
    (m.map f).OnQubits n := h

theorem entryAt?_map (m : Mat K) (f : K → L) (i j : ℕ) :
    (m.map f).entryAt? i j = (m.entryAt? i j).map f := by
  unfold entryAt?
  by_cases h : i < m.rows ∧ j < m.cols
  · rw [if_pos h, if_pos (show i < (m.map f).rows ∧ j < (m.map f).cols from h)]
    exact Array.getElem?_map
  · rw [if_neg h,
      if_neg (show ¬ (i < (m.map f).rows ∧ j < (m.map f).cols) from h)]
    rfl

theorem entryAt?_eq_some [Zero K] (m : Mat K) {i j : ℕ} (hi : i < m.rows)
    (hj : j < m.cols) :
    m.entryAt? i j = some (m.entry i j) := by
  have hlt : i * m.cols + j < m.entries.size := by
    rw [m.size_eq]
    exact index_lt hi hj
  rw [entry, entryAt?, if_pos ⟨hi, hj⟩, Array.getElem?_eq_getElem hlt]
  rfl

theorem entry_map [Zero K] [Zero L] (m : Mat K) (f : K → L) {i j : ℕ}
    (hi : i < m.rows) (hj : j < m.cols) :
    (m.map f).entry i j = f (m.entry i j) := by
  rw [entry, entryAt?_map, m.entryAt?_eq_some hi hj]
  rfl

theorem OnQubits.toMatrix_map [Zero K] [Zero L] {n : ℕ} {m : Mat K}
    (h : m.OnQubits n) (f : K → L) :
    (m.map f).toMatrix n = (m.toMatrix n).map f := by
  ext i j
  rw [toMatrix_apply,
    m.entry_map f (i.isLt.trans_eq h.1.symm) (j.isLt.trans_eq h.2.symm)]
  rfl

/-! ### One and two qubits -/

theorem onQubits_square (a b c d : K) : (square a b c d).OnQubits 1 :=
  ⟨rfl, rfl⟩

theorem toMatrix_square [Zero K] (a b c d : K) :
    (square a b c d).toMatrix 1 = !![a, b; c, d] := by
  ext i j
  match i, j with
  | ⟨0, _⟩, ⟨0, _⟩ => rfl
  | ⟨0, _⟩, ⟨1, _⟩ => rfl
  | ⟨1, _⟩, ⟨0, _⟩ => rfl
  | ⟨1, _⟩, ⟨1, _⟩ => rfl

theorem onQubits_controlledZ [Zero K] [One K] [Neg K] :
    (controlledZ : Mat K).OnQubits 2 :=
  ⟨rfl, rfl⟩

/-- The phase flip is diagonal, with a sign at the state where both qubits are
set. -/
theorem toMatrix_controlledZ [CommRing K] :
    (controlledZ : Mat K).toMatrix 2 = Matrix.diagonal fun i =>
    if i.val = 3 then -1 else 1 := by
  show (ofFn (2 ^ 2) (2 ^ 2) _ : Mat K).toMatrix 2 = _
  rw [toMatrix_ofFn]
  ext i j
  simp [Matrix.diagonal_apply, Fin.ext_iff]

end Mat

end Gimbal
