/-
Gimbal/Proofs/KroneckerBlocks.lean

Kronecker products as placements.

An index of a register of `m + n` qubits splits into the number of its first `m`
qubits and that of its last `n`, and since qubit 0 is the most significant bit,
these are its quotient and its remainder by `2 ^ n`.  That is how a Kronecker
product finds its factors, so it is one operator on the first block and one on
the last:

    (a.kron b).toMatrix (m + n) = place first a * place last b        (`OnQubits.toMatrix_kron`).

With an identity for one of the factors a single placement is left.  Two such
products put a gate on any block of consecutive qubits, which is what embedding
it there does.
-/
import Mathlib
import Gimbal.Proofs.DisjointQubits
import Gimbal.Proofs.EmbeddingLaws

namespace Gimbal

variable {K : Type} {k m n : ℕ}

/-! ### The two blocks of an index -/

/-- The first qubits of a register make the quotient of an index. -/
theorem val_select_castAdd (x : Fin (2 ^ (m + n))) :
    (select (Fin.castAdd n) x : Fin (2 ^ m)).val = x.val / 2 ^ n := by
  have hlt : x.val / 2 ^ n < 2 ^ m := by
    rw [Nat.div_lt_iff_lt_mul (Nat.two_pow_pos n), ← pow_add]
    exact x.isLt
  -- the leading digits of a state are its bits above the last `n`
  have heq :
      select (Fin.castAdd n) x = (⟨x.val / 2 ^ n, hlt⟩ : Fin (2 ^ m)) := by
    apply ext_qubitOf
    intro q
    rw [qubitOf_select]
    show x.val.testBit (m + n - 1 - q) = (x.val / 2 ^ n).testBit (m - 1 - q)
    rw [Nat.testBit_div_two_pow]
    congr 1
    omega
  rw [heq]

/-- The last qubits of a register make the remainder of an index. -/
theorem val_select_natAdd (x : Fin (2 ^ (m + n))) :
    (select (Fin.natAdd m) x : Fin (2 ^ n)).val = x.val % 2 ^ n := by
  -- the trailing digits are the bits below
  have heq : select (Fin.natAdd m) x
      = (⟨x.val % 2 ^ n, Nat.mod_lt _ (Nat.two_pow_pos n)⟩ : Fin (2 ^ n)) := by
    apply ext_qubitOf
    intro q
    rw [qubitOf_select]
    show x.val.testBit (m + n - 1 - (m + q)) =
      (x.val % 2 ^ n).testBit (n - 1 - q)
    have hlt : n - 1 - q.val < n := by omega
    have hbit : m + n - 1 - (m + q.val) = n - 1 - q.val := by omega
    rw [Nat.testBit_mod_two_pow, decide_eq_true hlt, Bool.true_and, hbit]
  rw [heq]

/-- Every qubit lies in one of the two blocks. -/
theorem agreeOff_blocks (x y : Fin (2 ^ (m + n))) :
    AgreeOff (Fin.append (Fin.castAdd n) (Fin.natAdd m)) x y := by
  rw [agreeOff_append_iff]
  intro r hfirst hlast
  induction r using Fin.addCases with
  | left a => exact absurd rfl (hfirst a)
  | right b => exact absurd rfl (hlast b)

theorem castAdd_ne_natAdd (a : Fin m) (b : Fin n) :
    Fin.castAdd n a ≠ Fin.natAdd m b := by
  intro h
  have hval := congrArg Fin.val h
  simp only [Fin.val_castAdd, Fin.val_natAdd] at hval
  omega

namespace Mat

/-! ### Kronecker products -/

theorem entry_kron [Zero K] [Mul K] (a b : Mat K) {i j : ℕ}
    (hi : i < a.rows * b.rows) (hj : j < a.cols * b.cols) :
    (a.kron b).entry i j
      = a.entry (i / b.rows) (j / b.cols) * b.entry (i % b.rows) (j % b.cols) :=
  entry_ofFn _ hi hj

theorem OnQubits.kron [Zero K] [Mul K] {a b : Mat K} (ha : a.OnQubits m)
    (hb : b.OnQubits n) :
    (a.kron b).OnQubits (m + n) := by
  constructor
  · show a.rows * b.rows = _
    rw [ha.1, hb.1, pow_add]
  · show a.cols * b.cols = _
    rw [ha.2, hb.2, pow_add]

variable [CommRing K]

/-- **A Kronecker product** is its first factor on the first block of qubits,
and its second on the last. -/
theorem OnQubits.toMatrix_kron {a b : Mat K} (ha : a.OnQubits m)
    (hb : b.OnQubits n) :
    (a.kron b).toMatrix (m + n)
      = place (Fin.castAdd n) (a.toMatrix m) *
        place (Fin.natAdd m) (b.toMatrix n) := by
  ext x y
  have hx : x.val < a.rows * b.rows := by
    rw [ha.1, hb.1, ← pow_add]
    exact x.isLt
  have hy : y.val < a.cols * b.cols := by
    rw [ha.2, hb.2, ← pow_add]
    exact y.isLt
  -- every qubit is in one of the two blocks, so no entry is zero for want of
  -- agreement
  rw [place_mul_place_apply castAdd_ne_natAdd, if_pos (agreeOff_blocks x y),
    toMatrix_apply, toMatrix_apply, toMatrix_apply, entry_kron a b hx hy,
    hb.1, hb.2]
  simp only [val_select_castAdd, val_select_natAdd]

theorem OnQubits.toMatrix_kron_identity {a : Mat K} (ha : a.OnQubits m)
    (n : ℕ) :
    (a.kron (identity n)).toMatrix (m + n) =
      place (Fin.castAdd n) (a.toMatrix m) := by
  rw [ha.toMatrix_kron (onQubits_identity n), toMatrix_identity, place_one,
    mul_one]

theorem OnQubits.toMatrix_identity_kron {b : Mat K} (hb : b.OnQubits n)
    (m : ℕ) :
    ((identity m).kron b).toMatrix (m + n) =
      place (Fin.natAdd m) (b.toMatrix n) := by
  rw [(onQubits_identity m).toMatrix_kron hb, toMatrix_identity, place_one,
    one_mul]

/-! ### Gates on a block -/

/-- Embedding a gate on consecutive qubits, where `w` names them. -/
theorem OnQubits.embed_block {g M : Mat K} (hg : g.OnQubits k) {s : ℕ}
    {w : Fin k → Fin n} (hw : ∀ i, (w i).val = s + i) (hM : M.OnQubits n)
    (hop : M.toMatrix n = place w (g.toMatrix k)) :
    g.embed n (List.range' s k) = some M := by
  have hlt : ∀ q ∈ List.range' s k, q < n := by
    intro q hq
    obtain ⟨i, hi, rfl⟩ := List.mem_range'.mp hq
    rw [one_mul, ← hw ⟨i, hi⟩]
    exact Fin.isLt _
  have hwires :
      wires (List.range' s k) hlt ∘ Fin.cast (List.length_range' ..).symm
        = w := by
    funext i
    apply Fin.ext
    show (List.range' s k)[i.val] = _
    rw [List.getElem_range', hw i, one_mul]
  refine (embed_eq_some_iff_of_length (List.length_range' ..) hg).mpr
    ⟨hlt, hM, ?_⟩
  rw [hwires, hop]

/-- **Embedding on a block is a Kronecker product.**  A gate on `k` consecutive
qubits, behind `m` others and before `r` more, is its Kronecker product with the
identities on both sides, over any commutative ring.  In particular lifting a
one-qubit matrix puts it on the second of two qubits. -/
theorem embed_eq_kron :
    (∀ (m k r : ℕ) (g : Mat K), g.OnQubits k →
      g.embed (m + k + r) (List.range' m k) =
        some (((identity m).kron g).kron (identity r))) ∧
    ∀ g : Mat K, g.OnQubits 1 → g.embed 2 [1] = some g.lift := by
  constructor
  · intro m k r g hg
    have hinner := (onQubits_identity m).kron hg
    refine hg.embed_block (w := Fin.castAdd r ∘ Fin.natAdd m) (fun i => rfl)
      (hinner.kron (onQubits_identity r)) ?_
    -- padding to the right, then to the left, places the block twice
    rw [hinner.toMatrix_kron_identity, hg.toMatrix_identity_kron,
      place_place (Fin.castAdd_injective _ r)]
  · intro g hg
    exact hg.embed_block (n := 1 + 1) (w := Fin.natAdd 1) (fun i => rfl)
      ((onQubits_identity 1).kron hg) (hg.toMatrix_identity_kron 1)

/-- A controlled flip on the two inner qubits of four, and a matrix of four
different entries. -/
theorem embed_eq_kron_inner :
    (controlledX : Mat ℤ).embed 4
    [1, 2] = some (((identity 1).kron controlledX).kron (identity 1)) ∧
    (square 1 2 3 4 : Mat ℤ).embed 2 [1] = some (square 1 2 3 4).lift := by
  obtain ⟨hblock, hlift⟩ := embed_eq_kron (K := ℤ)
  exact ⟨hblock 1 2 1 controlledX ⟨rfl, rfl⟩, hlift _ (onQubits_square 1 2 3 4)⟩

end Mat

end Gimbal
