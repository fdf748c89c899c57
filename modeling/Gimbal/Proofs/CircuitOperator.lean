/-
Gimbal/Proofs/CircuitOperator.lean

The operator of an output circuit, over any commutative ring.  An entry is
placed on its qubits, and a circuit is the product of its entries, the first one
acting first:

    operator n (e :: c) = operator n c * e.operator n.

`Circuit.unitary` computes it: it succeeds exactly where every qubit lies in the
register, and its result is the matrix of this operator (`unitary_eq_some_iff`).
Rotations may be any two-by-two matrices, diagonal ones about the third axis
(`LawfulRotations`).  Over all of them diagonal gates commute and phase flips
undo themselves, also where the two qubits of one coincide.

Renaming the qubits of a circuit by an injective map places its operator
(`operator_rename`).
-/
import Mathlib
import Gimbal.Proofs.Placement
import Gimbal.Proofs.Rules

namespace Gimbal

variable {A K : Type} {k n : ℕ}

/-- Rotations are two-by-two, and diagonal about the third axis. -/
class LawfulRotations (A K : Type) [Zero K] [Rotations A K] : Prop where
  onQubits_rotation : ∀ (axis : Axis) (a : A),
    (Rotations.rotation axis a : Mat K).OnQubits 1
  diagonal_rotation : ∀ a : A, ∃ d,
    (Rotations.rotation .z a : Mat K).toMatrix 1 = Matrix.diagonal d

/-! ### Entries -/

namespace Entry

/-- The register has every qubit of the entry. -/
def Fits (n : ℕ) (e : Entry A) : Prop := ∀ q ∈ e.qubits, q < n

theorem fits_rotation_iff (axis : Axis) (a : A) {q : ℕ} :
    (rotation axis a q).Fits n ↔ q < n := by
  simp [Fits, qubits]

theorem fits_cz_iff {c t : ℕ} : (cz c t : Entry A).Fits n ↔ c < n ∧ t < n := by
  simp [Fits, qubits]

variable [CommRing K] [Rotations A K]

/-- The operator of an entry on a register that has its qubits. -/
def operator (n : ℕ) (e : Entry A) : Matrix (Fin (2 ^ n)) (Fin (2 ^ n)) K :=
  ((e.matrix.embed n e.qubits).getD (.identity n) : Mat K).toMatrix n

variable [LawfulRotations A K]

theorem onQubits_matrix (e : Entry A) :
    (e.matrix : Mat K).OnQubits e.qubits.length := by
  cases e with
  | rotation axis a q => exact LawfulRotations.onQubits_rotation axis a
  | cz c t => exact Mat.onQubits_controlledZ

theorem operator_eq_place (e : Entry A) (h : e.Fits n) :
    (e.operator n : Matrix _ _ K) =
    place (wires e.qubits h) (e.matrix.toMatrix e.qubits.length) := by
  obtain ⟨m, hm, -, hplace⟩ := Mat.embed_eq_some (onQubits_matrix (K := K) e) h
  rw [operator, hm, ← hplace]
  rfl

/-- What one step of `Circuit.unitary` multiplies with. -/
theorem embed_eq_some_iff (e : Entry A) (m : Mat K) :
    e.matrix.embed n e.qubits = some m ↔ e.Fits n ∧ m.OnQubits n ∧
      m.toMatrix n = e.operator n := by
  rw [Mat.embed_eq_some_iff (onQubits_matrix e)]
  constructor
  · rintro ⟨h, hm, hmat⟩
    exact ⟨h, hm, hmat.trans (operator_eq_place e h).symm⟩
  · rintro ⟨h, hm, hmat⟩
    exact ⟨h, hm, hmat.trans (operator_eq_place e h)⟩

/-- A rotation alone. -/
theorem operator_rotation_zero (axis : Axis) (a : A) :
    ((rotation axis a 0).operator 1 : Matrix _ _ K) =
    (Rotations.rotation axis a : Mat K).toMatrix 1 := by
  have hfits : (rotation axis a 0).Fits 1 :=
    (fits_rotation_iff axis a).mpr Nat.one_pos
  have hid : (wires [0] hfits : Fin 1 → Fin 1) = id := Subsingleton.elim _ _
  calc (rotation axis a 0).operator 1
      = place (wires [0] hfits : Fin 1 → Fin 1)
        ((Rotations.rotation axis a : Mat K).toMatrix 1) :=
        operator_eq_place _ hfits
    _ = _ := by rw [hid, place_id]

/-- A phase flip alone. -/
theorem operator_cz_zero_one :
    ((cz 0 1 : Entry A).operator 2 : Matrix _ _ K) =
    (Mat.controlledZ : Mat K).toMatrix 2 := by
  have hfits : (cz 0 1 : Entry A).Fits 2 :=
    fits_cz_iff.mpr ⟨Nat.two_pos, Nat.one_lt_two⟩
  have hid : (wires [0, 1] hfits : Fin 2 → Fin 2) = id := by
    funext i
    match i with
    | ⟨0, _⟩ => rfl
    | ⟨1, _⟩ => rfl
  calc (cz 0 1 : Entry A).operator 2
      = place (wires [0, 1] hfits : Fin 2 → Fin 2)
        ((Mat.controlledZ : Mat K).toMatrix 2) :=
        operator_eq_place _ hfits
    _ = _ := by rw [hid, place_id]

/-- Phase flips and rotations about the third axis are diagonal. -/
theorem exists_operator_eq_diagonal {e : Entry A} (h : e.Fits n)
    (hdiag : e.isZRotation ∨ e.isCz) :
    ∃ d, (e.operator n : Matrix _ _ K) = Matrix.diagonal d := by
  rw [operator_eq_place e h]
  cases e with
  | rotation axis a q =>
    cases axis with
    | x => simp [isZRotation, isCz] at hdiag
    | z =>
      -- a rotation about z is diagonal, and so is its placement
      obtain ⟨d, hd⟩ := LawfulRotations.diagonal_rotation (K := K) a
      exact ⟨_, (congrArg (place _) hd).trans (place_diagonal _ d)⟩
  | cz c t =>
    exact ⟨_,
      (congrArg (place _) Mat.toMatrix_controlledZ).trans (place_diagonal _ _)⟩

/-- A phase flip undoes itself, also where its qubits coincide. -/
theorem operator_cz_mul_self {c t : ℕ} (h : (cz c t : Entry A).Fits n) :
    ((cz c t : Entry A).operator n * (cz c t : Entry A).operator n :
      Matrix _ _ K) = 1 := by
  have hcz :
      ((cz c t : Entry A).operator n : Matrix _ _ K) = Matrix.diagonal _ :=
    (operator_eq_place _ h).trans
      ((congrArg (place _) Mat.toMatrix_controlledZ).trans (place_diagonal _ _))
  rw [hcz, Matrix.diagonal_mul_diagonal, ← Matrix.diagonal_one]
  congr 1
  funext x
  split <;> simp

/-- Renaming qubits places the operator of an entry. -/
theorem operator_rename {q : Fin k → Fin n} (hq : Function.Injective q)
    {p : ℕ → ℕ} (hp : ∀ a : Fin k, p a = q a) {e : Entry A} (h : e.Fits k) :
    (e.rename p).Fits n ∧
      ((e.rename p).operator n : Matrix _ _ K) = place q (e.operator k) := by
  have hlt : ∀ a, a < k → p a < n := fun a ha => by
    have := hp ⟨a, ha⟩
    rw [show p a = (q ⟨a, ha⟩).val from this]
    exact Fin.isLt _
  have hfits : (e.rename p).Fits n := by
    cases e with
    | rotation axis a r =>
      exact (fits_rotation_iff axis a).mpr
        (hlt r ((fits_rotation_iff axis a).mp h))
    | cz c t =>
      obtain ⟨hc, ht⟩ := fits_cz_iff.mp h
      exact fits_cz_iff.mpr ⟨hlt c hc, hlt t ht⟩
  refine ⟨hfits, ?_⟩
  -- both sides place the same matrix, on qubits that agree one by one
  rw [operator_eq_place _ hfits, operator_eq_place _ h, place_place hq]
  cases e with
  | rotation axis a r =>
    refine congrArg (fun w : Fin 1 → Fin n => place w _)
      (funext fun i => Fin.ext ?_)
    match i with
    | ⟨0, _⟩ => exact hp ⟨r, (fits_rotation_iff axis a).mp h⟩
  | cz c t =>
    refine congrArg (fun w : Fin 2 → Fin n => place w _)
      (funext fun i => Fin.ext ?_)
    match i with
    | ⟨0, _⟩ => exact hp ⟨c, (fits_cz_iff.mp h).1⟩
    | ⟨1, _⟩ => exact hp ⟨t, (fits_cz_iff.mp h).2⟩

end Entry

/-! ### Circuits -/

namespace Circuit

/-- The register has every qubit of the circuit. -/
def Fits (n : ℕ) (c : Circuit A) : Prop := ∀ e ∈ c, e.Fits n

theorem Fits.cons {e : Entry A} {c : Circuit A} (he : e.Fits n)
    (hc : Fits n c) :
    Fits n (e :: c) := by
  intro e' he'
  rcases List.mem_cons.mp he' with rfl | hmem
  · exact he
  · exact hc e' hmem

theorem Fits.head {e : Entry A} {c : Circuit A} (h : Fits n (e :: c)) :
    e.Fits n :=
  h e List.mem_cons_self

theorem Fits.tail {e : Entry A} {c : Circuit A} (h : Fits n (e :: c)) :
    Fits n c :=
  fun e' he' => h e' (List.mem_cons_of_mem e he')

theorem Fits.append {c d : Circuit A} (hc : Fits n c) (hd : Fits n d) :
    Fits n (c ++ d) := by
  intro e he
  rcases List.mem_append.mp he with hmem | hmem
  · exact hc e hmem
  · exact hd e hmem

theorem Fits.subset {c d : Circuit A} (h : Fits n c) (hsub : d ⊆ c) :
    Fits n d :=
  fun e he => h e (hsub he)

variable [CommRing K] [Rotations A K]

/-- The operator of a circuit; the first entry acts first. -/
def operator (n : ℕ) (c : Circuit A) : Matrix (Fin (2 ^ n)) (Fin (2 ^ n)) K :=
  Mat.product (Entry.operator n) c

@[simp] theorem operator_nil (n : ℕ) :
    (operator n ([] : Circuit A) : Matrix _ _ K) = 1 := rfl

@[simp] theorem operator_cons (n : ℕ) (e : Entry A) (c : Circuit A) :
    (operator n (e :: c) : Matrix _ _ K) = operator n c * e.operator n := rfl

theorem operator_append (n : ℕ) (c d : Circuit A) :
    (operator n (c ++ d) : Matrix _ _ K) = operator n d * operator n c :=
  Mat.product_append _ c d

variable [LawfulRotations A K]

/-- Renaming qubits by an injective map places the operator of a circuit. -/
theorem operator_rename {q : Fin k → Fin n} (hq : Function.Injective q)
    {p : ℕ → ℕ} (hp : ∀ a : Fin k, p a = q a) {c : Circuit A} (h : Fits k c) :
    Fits n (c.map (Entry.rename p)) ∧
      (operator n (c.map (Entry.rename p)) : Matrix _ _ K) =
      place q (operator k c) := by
  induction c with
  | nil => exact ⟨by simp [Fits], (place_one q).symm⟩
  | cons e c ih =>
    obtain ⟨hfit, hop⟩ := Entry.operator_rename (K := K) hq hp h.head
    obtain ⟨hfits, hops⟩ := ih h.tail
    refine ⟨Fits.cons hfit hfits, ?_⟩
    rw [List.map_cons, operator_cons, operator_cons, hop, hops, place_mul hq]

variable [MulAdd K] [LawfulMulAdd K]

/-- **The unitary of a circuit** exists where the register has every qubit, and
is the matrix of the circuit's operator. -/
theorem unitary_eq_some_iff {c : Circuit A} {U : Mat K} :
    c.unitary n = some U ↔ Fits n c ∧ U.OnQubits n ∧
      U.toMatrix n = operator n c := by
  rw [unitary,
    Mat.foldlM_mul_eq_some_iff Entry.embed_eq_some_iff
      (Mat.onQubits_identity n), Mat.toMatrix_identity, mul_one]
  rfl

/-- The unitary of a circuit that fits. -/
theorem Fits.exists_unitary {c : Circuit A} (h : Fits n c) :
    ∃ U : Mat K, c.unitary n = some U ∧ U.toMatrix n = operator n c := by
  obtain ⟨U, hU, hmat⟩ := Mat.exists_toMatrix_eq (operator n c : Matrix _ _ K)
  exact ⟨U, unitary_eq_some_iff.mpr ⟨h, hU, hmat⟩, hmat⟩

end Circuit

end Gimbal
