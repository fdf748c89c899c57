/-
Gimbal/Proofs/EmbeddingDomain.lean

Where embeddings exist, for gates of any shape.  With `k` chosen qubits,

    g.embed n qs exists      iff      every qubit of qs is below n,
                                      and g has at least 2 ^ k rows and 2 ^ k columns.

One direction bounds every reading: the bits of `k` qubits make a number below
`2 ^ k`, so a gate that is larger than needed is read in its leading block only
(`embed_eq_some_of_le`).  For the other one, two cells of the register find
every fault.  Both lie on the diagonal, where an index agrees with itself
whatever was chosen: the first cell looks up every chosen qubit, and the last
one, where all qubits are set, reads the last entry that the gate has to have.

A qubit may be chosen more than once; that changes neither cell.
-/
import Mathlib
import Gimbal.Proofs.Placement
import Gimbal.Register

namespace Gimbal

variable {K : Type} {k n : ℕ}

/-! ### The state with all qubits set -/

/-- The basis state in which every qubit is set. -/
def allSet (n : ℕ) : Fin (2 ^ n) :=
  ⟨2 ^ n - 1, Nat.sub_lt (Nat.two_pow_pos n) Nat.one_pos⟩

theorem qubitOf_allSet (q : Fin n) : qubitOf (allSet n) q = true := by
  show (2 ^ n - 1).testBit (n - 1 - q) = true
  rw [Nat.testBit_two_pow_sub_one, decide_eq_true_iff]
  omega

/-- Whichever qubits are chosen, they are all set. -/
theorem select_allSet (q : Fin k → Fin n) : select q (allSet n) = allSet k := by
  apply ext_qubitOf
  intro p
  rw [qubitOf_select, qubitOf_allSet, qubitOf_allSet]

/-! ### Registers that fit the machine -/

section Register

variable [Zero K] {g : Mat K} {qs : List ℕ}

/-- The size of the register is looked at first. -/
theorem Register.embed_eq : Register.embed g n qs =
    if n < Register.limit then (g.embed n qs).elim (.error .noEmbedding) .ok
    else .error .registerTooLarge := by
  rw [Register.embed, Register.check]
  split
  · cases g.embed n qs <;> rfl
  · rfl

theorem Register.exists_embed_eq_ok_iff :
    (∃ m, Register.embed g n qs = .ok m) ↔ n < Register.limit ∧ ∃ m,
      g.embed n qs = some m := by
  rw [Register.embed_eq]
  split_ifs with hn
  · cases g.embed n qs <;> simp [hn]
  · simp [hn]

theorem Register.embed_eq_noEmbedding_iff :
    Register.embed g n qs = .error .noEmbedding ↔ n < Register.limit ∧
      g.embed n qs = none := by
  rw [Register.embed_eq]
  split_ifs with hn
  · cases g.embed n qs <;> simp [hn]
  · simp [hn]

end Register

/-! ### Gates that can be read -/

namespace Mat

/-- The register has every chosen qubit, and the gate has an entry for all their
values. -/
@[mk_iff]
structure Embeds (g : Mat K) (n : ℕ) (qs : List ℕ) : Prop where
  qubits_lt : ∀ q ∈ qs, q < n
  rows_ge : 2 ^ qs.length ≤ g.rows
  cols_ge : 2 ^ qs.length ≤ g.cols

variable [Zero K] {g : Mat K} {qs : List ℕ}

theorem Embeds.exists_embed (h : g.Embeds n qs) :
    ∃ m, g.embed n qs = some m := by
  obtain ⟨m, hm, -⟩ := embed_eq_some_of_le h.rows_ge h.cols_ge h.qubits_lt
  exact ⟨m, hm⟩

/-- The last cell reads the last entry of the leading block. -/
theorem two_pow_le_of_embed {m : Mat K} (hm : g.embed n qs = some m)
    (hlt : ∀ q ∈ qs, q < n) :
    2 ^ qs.length ≤ g.rows ∧ 2 ^ qs.length ≤ g.cols := by
  obtain ⟨s, hs, hrow, hcol⟩ := exists_subIndex?_of_embed hm (allSet n).isLt
  rw [subIndex?_eq hlt, select_allSet] at hs
  obtain rfl := Option.some.inj hs
  exact ⟨Nat.le_of_pred_lt hrow, Nat.le_of_pred_lt hcol⟩

theorem embeds_of_embed {m : Mat K} (hm : g.embed n qs = some m) :
    g.Embeds n qs := by
  have hlt : ∀ q ∈ qs, q < n := by
    intro q hmem
    by_contra hq
    rw [embed_eq_none g hmem (Nat.le_of_not_lt hq)] at hm
    cases hm
  obtain ⟨hrows, hcols⟩ := two_pow_le_of_embed hm hlt
  exact ⟨hlt, hrows, hcols⟩

theorem exists_embed_iff_embeds : (∃ m, g.embed n qs = some m) ↔
      g.Embeds n qs := by
  constructor
  · rintro ⟨m, hm⟩
    exact embeds_of_embed hm
  · exact Embeds.exists_embed

theorem embed_eq_none_iff : g.embed n qs = none ↔ ¬ g.Embeds n qs := by
  rw [← exists_embed_iff_embeds, Option.eq_none_iff_forall_ne_some, not_exists]

/-- **Embedding fails exactly on bad input.**  Whatever the gate, the register
and the list of qubits, the empty one included, an embedding is made if and only
if every qubit is in the register and the gate has an entry for all values of as
many qubits; it may be larger, and need not be square.  Where the matrices of
the register can be described, the lack of an embedding is the only fault. -/
theorem embed_domain (g : Mat K) (n : ℕ) (qs : List ℕ) :
    ((∃ m, g.embed n qs = some m) ↔
      (∀ q ∈ qs, q < n) ∧ 2 ^ qs.length ≤ g.rows ∧ 2 ^ qs.length ≤ g.cols) ∧
    ((∃ m, Register.embed g n qs = .ok m) ↔ n < Register.limit ∧ g.Embeds n qs) ∧
    (Register.embed g n qs = .error .noEmbedding ↔ n < Register.limit ∧
      ¬ g.Embeds n qs) := by
  rw [Register.exists_embed_eq_ok_iff, Register.embed_eq_noEmbedding_iff,
    embed_eq_none_iff, exists_embed_iff_embeds, embeds_iff]
  exact ⟨Iff.rfl, Iff.rfl, Iff.rfl⟩

/-- A gate with a row and a column too many is read in its leading block; with a
column too few, it is not read. -/
example :
    ((ofFn 3 3 fun i j => 3 * i + j : Mat ℕ).embed 1 [0]).map toRows =
      some [[0, 1], [3, 4]] ∧
    ((ofFn 3 1 fun i _ => i : Mat ℕ).embed 1 [0]).isNone = true := by
  decide +kernel

end Mat

end Gimbal
