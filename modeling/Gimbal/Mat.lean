/-
Gimbal/Mat.lean

Matrices of any shape, stored row by row.  A matrix is made by `Mat.ofFn` and
read by `Mat.entry`, which gives zero outside the shape, so that every operation
here is `ofFn` of an expression in entries:

    (ofFn r c f).entry i j = f i j        for i < r, j < c   (`entry_ofFn`).

Two matrices of one shape with the same entries are equal (`Mat.ext_entry`).  A
register of `n` qubits has matrices with `2 ^ n` rows and columns.
-/
import Gimbal.Amplitude

namespace Gimbal

/-- A matrix with its entries row by row. -/
structure Mat (K : Type) where
  rows : Nat
  cols : Nat
  entries : Array K
  size_eq : entries.size = rows * cols

namespace Mat

variable {K L : Type}

/-- The matrix of shape `rows × cols` with entry `f i j` in row `i` and column
`j`. -/
def ofFn (rows cols : Nat) (f : Nat → Nat → K) : Mat K where
  rows := rows
  cols := cols
  entries := Array.ofFn fun k : Fin (rows * cols) => f (k / cols) (k % cols)
  size_eq := Array.size_ofFn

/-- The entry in row `i` and column `j`, if the matrix has one. -/
def entryAt? (m : Mat K) (i j : Nat) : Option K :=
  if i < m.rows ∧ j < m.cols then m.entries[i * m.cols + j]? else none

/-- The entry in row `i` and column `j`; zero outside the matrix. -/
def entry [Zero K] (m : Mat K) (i j : Nat) : K := (m.entryAt? i j).getD 0

/-- The matrix with the given rows, if all of them have the same length. -/
def ofRows? (rows : List (List K)) : Option (Mat K) :=
  let cols := (rows.headD []).length
  let entries := rows.flatten.toArray
  if h : entries.size = rows.length * cols then
    if rows.all (·.length == cols) then some ⟨rows.length, cols, entries, h⟩
    else none
  else none

/-- The two-by-two matrix with rows `a b` and `c d`. -/
def square (a b c d : K) : Mat K := ⟨2, 2, #[a, b, c, d], rfl⟩

/-- The rows of a matrix. -/
def toRows (m : Mat K) : List (List K) :=
  (List.range m.rows).map fun i =>
    (List.range m.cols).filterMap fun j => m.entryAt? i j

/-- Applies a function to every entry. -/
def map (f : K → L) (m : Mat K) : Mat L where
  rows := m.rows
  cols := m.cols
  entries := m.entries.map f
  size_eq := by simp [m.size_eq]

/-- The product of two matrices: each entry is an inner product, summed from the
left. -/
def mul [Zero K] [MulAdd K] (a b : Mat K) : Mat K :=
  ofFn a.rows b.cols fun i j =>
    Nat.fold a.cols
      (fun k _ acc => MulAdd.mulAdd acc (a.entry i k) (b.entry k j)) 0

/-- The Kronecker product: every entry of `a` scales a copy of `b`. -/
def kron [Zero K] [Mul K] (a b : Mat K) : Mat K :=
  ofFn (a.rows * b.rows) (a.cols * b.cols) fun i j =>
    a.entry (i / b.rows) (j / b.cols) * b.entry (i % b.rows) (j % b.cols)

/-- The identity on a register of `n` qubits. -/
def identity [Zero K] [One K] (n : Nat) : Mat K :=
  ofFn (Nat.pow 2 n) (Nat.pow 2 n) fun i j => if i = j then 1 else 0

/-- A one-qubit matrix on the second of two qubits. -/
def lift [Zero K] [One K] [Mul K] (m : Mat K) : Mat K := (identity 1).kron m

/-! ### Reading back what was built -/

@[simp] theorem rows_ofFn (r c : Nat) (f : Nat → Nat → K) :
    (ofFn r c f).rows = r := rfl

@[simp] theorem cols_ofFn (r c : Nat) (f : Nat → Nat → K) :
    (ofFn r c f).cols = c := rfl

theorem index_lt {r c i j : Nat} (hi : i < r) (hj : j < c) :
    i * c + j < r * c := by
  have h : (i + 1) * c ≤ r * c := Nat.mul_le_mul_right c hi
  rw [Nat.succ_mul] at h
  omega

theorem index_div {c i j : Nat} (hj : j < c) : (i * c + j) / c = i := by
  rw [Nat.mul_comm, Nat.mul_add_div (by omega), Nat.div_eq_of_lt hj,
    Nat.add_zero]

theorem index_mod {c i j : Nat} (hj : j < c) : (i * c + j) % c = j := by
  rw [Nat.mul_comm, Nat.mul_add_mod, Nat.mod_eq_of_lt hj]

theorem entryAt?_ofFn {r c i j : Nat} (f : Nat → Nat → K) (hi : i < r)
    (hj : j < c) :
    (ofFn r c f).entryAt? i j = some (f i j) := by
  have hlt : i * c + j < r * c := index_lt hi hj
  simp [entryAt?, ofFn, hi, hj, hlt, index_div hj, index_mod hj]

theorem entry_ofFn [Zero K] {r c i j : Nat} (f : Nat → Nat → K) (hi : i < r)
    (hj : j < c) :
    (ofFn r c f).entry i j = f i j := by
  simp [entry, entryAt?_ofFn f hi hj]

theorem entry_of_ge [Zero K] (m : Mat K) {i j : Nat}
    (h : m.rows ≤ i ∨ m.cols ≤ j) :
    m.entry i j = 0 := by
  have : ¬ (i < m.rows ∧ j < m.cols) := by omega
  simp [entry, entryAt?, this]

/-- A matrix is determined by its shape and its entries. -/
theorem ext_entry [Zero K] {a b : Mat K} (hr : a.rows = b.rows)
    (hc : a.cols = b.cols)
    (h : ∀ i j, i < a.rows → j < a.cols → a.entry i j = b.entry i j) :
    a = b := by
  obtain ⟨r, c, xs, hxs⟩ := a
  obtain ⟨r', c', ys, hys⟩ := b
  obtain rfl : r = r' := hr
  obtain rfl : c = c' := hc
  have hxy : xs = ys := by
    refine Array.ext (hxs.trans hys.symm) fun k hk hk' => ?_
    have hc : 0 < c := by
      rcases Nat.eq_zero_or_pos c with rfl | h0
      · simp [hxs] at hk
      · exact h0
    have hkr : k / c < r := Nat.div_lt_of_lt_mul (by rw [Nat.mul_comm]; omega)
    have hkc : k % c < c := Nat.mod_lt _ hc
    have hk2 : k / c * c + k % c = k := by
      rw [Nat.mul_comm]; exact Nat.div_add_mod k c
    have := h (k / c) (k % c) hkr hkc
    simpa [entry, entryAt?, hkr, hkc, hk2, hk, hk'] using this
  subst hxy
  rfl

end Mat

end Gimbal
