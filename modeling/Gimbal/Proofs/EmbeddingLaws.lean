/-
Gimbal/Proofs/EmbeddingLaws.lean

The algebra of embedding a gate in a register.

On distinct qubits of the register embedding is a homomorphism: it is defined on
every gate of the right shape, and

    embed (a * b) = embed a * embed b,        embed 1 = 1

over any commutative ring.  A gate that is embedded in a small register, which
is then embedded in a larger one, is the gate on the qubits that its positions
name:

    embed (embed a at ps) at qs = embed a at [qs[p] for p in ps].

Nothing is added or multiplied for this law, so the entries may come from any
type with a zero.

Both are read off from placement (`Mat.embed_eq_some_iff`), where the qubits are
wires into the register and not numbers in a list; listing is the only thing
left to look at here.
-/
import Mathlib
import Gimbal.Proofs.Placement

namespace Gimbal

variable {K : Type} {n : ℕ}

/-! ### Lists of qubits and their wires -/

/-- The qubits that stand at the given positions of a list. -/
def qubitsAt (qs ps : List ℕ) : List ℕ := ps.map fun p => qs.getD p 0

theorem length_qubitsAt (qs ps : List ℕ) :
    (qubitsAt qs ps).length = ps.length := List.length_map _

theorem qubitsAt_lt {qs ps : List ℕ} (hqs : ∀ q ∈ qs, q < n)
    (hps : ∀ p ∈ ps, p < qs.length) :
    ∀ q ∈ qubitsAt qs ps, q < n := by
  intro q hq
  obtain ⟨p, hp, rfl⟩ := List.mem_map.mp hq
  rw [List.getD_eq_getElem qs 0 (hps p hp)]
  exact hqs _ (List.getElem_mem _)

/-- Positions lead to their qubits, and the qubits to the register. -/
theorem wires_qubitsAt {qs ps : List ℕ} (hqs : ∀ q ∈ qs, q < n)
    (hps : ∀ p ∈ ps, p < qs.length) :
    wires (qubitsAt qs ps) (qubitsAt_lt hqs hps) ∘
      Fin.cast (length_qubitsAt qs ps).symm
      = wires qs hqs ∘ wires ps hps := by
  funext i
  apply Fin.ext
  have hi : ps[i.val] < qs.length := hps _ (List.getElem_mem _)
  show (ps.map fun p => qs.getD p 0)[i.val] = qs[ps[i.val]]
  rw [List.getElem_map, List.getD_eq_getElem qs 0 hi]

namespace Mat

/-- What embedding gives, and when, for a list of qubits whose length is known
by another name. -/
theorem embed_eq_some_iff_of_length [Zero K] {g m : Mat K} {qs : List ℕ} {k : ℕ}
    (hlen : qs.length = k) (hg : g.OnQubits k) :
    g.embed n qs = some m ↔ ∃ h : ∀ q ∈ qs, q < n,
      m.OnQubits n ∧
        m.toMatrix n =
          place (wires qs h ∘ Fin.cast hlen.symm) (g.toMatrix k) := by
  subst hlen
  exact embed_eq_some_iff hg

/-! ### Products -/

section Ring

variable [CommRing K]

/-- The identity is embedded as the identity, whichever qubits are chosen. -/
theorem embed_identity {qs : List ℕ} (hlt : ∀ q ∈ qs, q < n) :
    (identity qs.length : Mat K).embed n qs = some (identity n) := by
  refine (embed_eq_some_iff (onQubits_identity _)).mpr
    ⟨hlt, onQubits_identity n, ?_⟩
  rw [toMatrix_identity, toMatrix_identity, place_one]

variable [MulAdd K] [LawfulMulAdd K]

/-- Gates on the same distinct qubits multiply as they do alone. -/
theorem embed_mul {a b ea eb : Mat K} {qs : List ℕ} (hnd : qs.Nodup)
    (ha : a.OnQubits qs.length) (hb : b.OnQubits qs.length)
    (hea : a.embed n qs = some ea) (heb : b.embed n qs = some eb) :
    (a.mul b).embed n qs = some (ea.mul eb) := by
  obtain ⟨hlt, hshape, hop⟩ := (embed_eq_some_iff ha).mp hea
  obtain ⟨_, hshape', hop'⟩ := (embed_eq_some_iff hb).mp heb
  refine (embed_eq_some_iff (ha.mul hb)).mpr ⟨hlt, hshape.mul hshape', ?_⟩
  rw [hshape.toMatrix_mul hshape', hop, hop', ha.toMatrix_mul hb,
    place_mul (wires_injective hlt hnd)]

/-- **Embedding is a homomorphism.**  On distinct qubits of a register every
gate of their number of qubits has an embedding, the embedding of a product is
the product of the embeddings, and that of the identity is the identity.  The
entries lie in any commutative ring. -/
theorem embed_homomorphism (n : ℕ) (qs : List ℕ) (hnd : qs.Nodup)
    (hlt : ∀ q ∈ qs, q < n) :
    (∀ a b : Mat K, a.OnQubits qs.length → b.OnQubits qs.length →
      ∃ ea eb, a.embed n qs = some ea ∧ b.embed n qs = some eb ∧
        (a.mul b).embed n qs = some (ea.mul eb)) ∧
    (identity qs.length : Mat K).embed n qs = some (identity n) := by
  refine ⟨fun a b ha hb => ?_, embed_identity hlt⟩
  obtain ⟨ea, hea, -⟩ := embed_eq_some ha hlt
  obtain ⟨eb, heb, -⟩ := embed_eq_some hb hlt
  exact ⟨ea, eb, hea, heb, embed_mul hnd ha hb hea heb⟩

end Ring

/-- The two controlled gates on the outer qubits of three, the last one as the
control. -/
theorem embed_homomorphism_crossed :
    (∃ ea eb : Mat ℤ, controlledX.embed 3 [2, 0] = some ea ∧
      controlledZ.embed 3 [2, 0] = some eb ∧
      (controlledX.mul controlledZ : Mat ℤ).embed 3 [2, 0] = some (ea.mul eb)) ∧
    (identity 2 : Mat ℤ).embed 3 [2, 0] = some (identity 3) := by
  obtain ⟨hmul, hone⟩ :=
    embed_homomorphism (K := ℤ) 3 [2, 0] (by decide) (by decide)
  exact ⟨hmul controlledX controlledZ ⟨rfl, rfl⟩ ⟨rfl, rfl⟩, hone⟩

/-! ### Registers within registers -/

/-- **Nested embeddings compose.**  A gate at some positions of a list of
distinct qubits, all of them in the register, is the gate on the qubits at those
positions.  Of the positions nothing is asked but that the list has them, and
the entries come from any type with a zero. -/
theorem embed_embed [Zero K] (n : ℕ) (qs ps : List ℕ) (hnd : qs.Nodup)
    (hqs : ∀ q ∈ qs, q < n) (hps : ∀ p ∈ ps, p < qs.length) (a : Mat K)
    (ha : a.OnQubits ps.length) :
    ∃ inner outer, a.embed qs.length ps = some inner ∧
      inner.embed n qs = some outer ∧
      a.embed n (qubitsAt qs ps) = some outer := by
  obtain ⟨inner, hinner, hshape, hop⟩ := embed_eq_some ha hps
  obtain ⟨outer, houter, hshape', hop'⟩ := embed_eq_some hshape hqs
  refine ⟨inner, outer, hinner, houter, ?_⟩
  refine (embed_eq_some_iff_of_length (length_qubitsAt qs ps) ha).mpr
    ⟨qubitsAt_lt hqs hps, hshape', ?_⟩
  rw [hop', hop, place_place (wires_injective hqs hnd), wires_qubitsAt hqs hps]

/-- The third and the first of the qubits 3, 1, 0 are the qubits 0 and 3. -/
theorem embed_embed_interleaved :
    ∃ inner outer, (ofFn 4 4 fun i j => 4 * i + j).embed 3 [2, 0] = some inner ∧
      inner.embed 4 [3, 1, 0] = some outer ∧
      (ofFn 4 4 fun i j => 4 * i + j).embed 4 [0, 3] = some outer :=
  embed_embed 4 [3, 1, 0] [2, 0] (by decide) (by decide) (by decide) _
    ⟨rfl, rfl⟩

end Mat

end Gimbal
