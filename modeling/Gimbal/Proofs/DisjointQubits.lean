/-
Gimbal/Proofs/DisjointQubits.lean

Gates that share no qubit.

Between a state `x` and a state `y` the product of two operators on disjoint
qubits has one way to go:  the left factor can only change its own qubits, and
has to bring them to their values in `y`, for the right one will not touch them.
So the sum over all states in between has one term,

    (place p A * place q B) x y = A (select p x) (select p y) * B (select q x) (select q y)

where `x` and `y` agree off the qubits of both, and is zero elsewhere
(`place_mul_place_apply`).  Nothing in this depends on the order of the factors
but that of a product of two numbers, so over a commutative ring gates on
disjoint qubits commute, and neighbours in a circuit that share no qubit may be
exchanged.

The qubits of one gate may repeat: a phase flip with coinciding qubits is no
exception.
-/
import Mathlib
import Gimbal.Proofs.Placement
import Gimbal.Proofs.CircuitOperator
import Gimbal.Proofs.UnitaryCircuit

namespace Gimbal

variable {A K : Type} {k m n : ℕ}

/-! ### States between two others -/

/-- On the qubits of a choice, a state that agrees with another off a disjoint
choice is the same. -/
theorem AgreeOff.select_eq {p : Fin k → Fin n} {q : Fin m → Fin n}
    (hpq : ∀ a b, p a ≠ q b) {x y : Fin (2 ^ n)} (h : AgreeOff q x y) :
    select p x = select p y := by
  apply ext_qubitOf
  intro a
  rw [qubitOf_select, qubitOf_select]
  exact h (p a) fun b hb => hpq a b hb.symm

/-- Setting the chosen qubits as they are in a state of the register, also where
one is chosen twice. -/
theorem select_patch_select (p : Fin k → Fin n) (x y : Fin (2 ^ n)) :
    select p (patch p x (select p y)) = select p y := by
  apply ext_qubitOf
  intro a
  have hfactors : Function.FactorsThrough (qubitOf (select p y)) p := by
    intro b c hbc
    rw [qubitOf_select, qubitOf_select, hbc]
  rw [qubitOf_select, patch, qubitOf_ofQubits, hfactors.extend_apply]

theorem agreeOff_append_iff {p : Fin k → Fin n} {q : Fin m → Fin n}
    {x y : Fin (2 ^ n)} :
    AgreeOff (Fin.append p q) x y ↔
      ∀ r, (∀ a, p a ≠ r) → (∀ b, q b ≠ r) → qubitOf x r = qubitOf y r := by
  simp only [AgreeOff, Fin.forall_fin_add, Fin.append_left, Fin.append_right,
    and_imp]

/-- Two changes of disjoint qubits can only meet in one state. -/
theorem eq_patch_of_agreeOff {p : Fin k → Fin n} {q : Fin m → Fin n}
    (hpq : ∀ a b, p a ≠ q b) {x y w : Fin (2 ^ n)} (hp : AgreeOff p x w)
    (hq : AgreeOff q w y) :
    w = patch p x (select p y) := by
  refine AgreeOff.eq_of_select_eq (hp.symm.trans (agreeOff_patch p x _)) ?_
  rw [select_patch_select, hq.select_eq hpq]

/-- The state where two changes of disjoint qubits meet exists if nothing else
changes. -/
theorem agreeOff_patch_select_iff {p : Fin k → Fin n} {q : Fin m → Fin n}
    (x y : Fin (2 ^ n)) :
    AgreeOff q (patch p x (select p y)) y ↔ AgreeOff (Fin.append p q) x y := by
  rw [agreeOff_append_iff]
  constructor
  · intro h r hp hq
    exact (agreeOff_patch p x _ r hp).trans (h r hq)
  · intro h r hq
    -- a qubit of `p` has its new value, any other the old one
    by_cases hp : ∃ a, p a = r
    · obtain ⟨a, rfl⟩ := hp
      rw [← qubitOf_select, select_patch_select, qubitOf_select]
    · have hp' := not_exists.mp hp
      exact (agreeOff_patch p x _ r hp').symm.trans (h r hp' hq)

/-! ### Products of placements -/

section Ring

variable [CommRing K]

/-- **Two operators on disjoint qubits**, one after the other, act on each
choice on its own. -/
theorem place_mul_place_apply {p : Fin k → Fin n} {q : Fin m → Fin n}
    (hpq : ∀ a b, p a ≠ q b) (A : Matrix (Fin (2 ^ k)) (Fin (2 ^ k)) K)
    (B : Matrix (Fin (2 ^ m)) (Fin (2 ^ m)) K) (x y : Fin (2 ^ n)) :
    (place p A * place q B) x y =
      if AgreeOff (Fin.append p q) x y then
        A (select p x) (select p y) * B (select q x) (select q y)
      else 0 := by
  -- the only state in between has the qubits of `p` as in `y` and the others as
  -- in `x`
  have hsingle : ∀ w, w ≠ patch p x (select p y) →
      place p A x w * place q B w y = 0 := by
    intro w hw
    rw [place_apply, place_apply]
    split_ifs with hp hq
    · exact absurd (eq_patch_of_agreeOff hpq hp hq) hw
    · exact mul_zero _
    · exact zero_mul _
    · exact zero_mul _
  have hoff := agreeOff_patch p x (select p y)
  have hsel : select q (patch p x (select p y)) = select q x :=
    (hoff.select_eq fun b a => (hpq a b).symm).symm
  rw [Matrix.mul_apply, Fintype.sum_eq_single _ hsingle, place_apply,
    place_apply, if_pos hoff, select_patch_select, hsel, mul_ite, mul_zero]
  exact if_congr (agreeOff_patch_select_iff x y) rfl rfl

/-- Operators on disjoint qubits commute. -/
theorem place_comm {p : Fin k → Fin n} {q : Fin m → Fin n}
    (hpq : ∀ a b, p a ≠ q b) (A : Matrix (Fin (2 ^ k)) (Fin (2 ^ k)) K)
    (B : Matrix (Fin (2 ^ m)) (Fin (2 ^ m)) K) :
    place p A * place q B = place q B * place p A := by
  -- which of the two lists a qubit is in plays no part
  have hoff : ∀ x y : Fin (2 ^ n),
      AgreeOff (Fin.append p q) x y ↔ AgreeOff (Fin.append q p) x y := by
    intro x y
    rw [agreeOff_append_iff, agreeOff_append_iff]
    exact forall_congr' fun r => forall_comm
  ext x y
  rw [place_mul_place_apply hpq,
    place_mul_place_apply (fun b a => (hpq a b).symm), mul_comm]
  exact if_congr (hoff x y) rfl rfl

/-! ### Gates and circuits -/

theorem wires_ne_of_disjoint {ps qs : List ℕ} (hps : ∀ p ∈ ps, p < n)
    (hqs : ∀ q ∈ qs, q < n) (hdisj : ps.Disjoint qs) (a : Fin ps.length)
    (b : Fin qs.length) :
    wires ps hps a ≠ wires qs hqs b := by
  intro h
  have hval : ps.get a = qs.get b := congrArg Fin.val h
  exact hdisj (List.get_mem ps a) (hval ▸ List.get_mem qs b)

theorem Mat.embed_comm [MulAdd K] [LawfulMulAdd K] {a b ea eb : Mat K}
    {ps qs : List ℕ} (hdisj : ps.Disjoint qs) (ha : a.OnQubits ps.length)
    (hb : b.OnQubits qs.length) (hea : a.embed n ps = some ea)
    (heb : b.embed n qs = some eb) : ea.mul eb = eb.mul ea := by
  obtain ⟨hps, hshape, hop⟩ := (embed_eq_some_iff ha).mp hea
  obtain ⟨hqs, hshape', hop'⟩ := (embed_eq_some_iff hb).mp heb
  refine (hshape.mul hshape').eq_of_toMatrix_eq (hshape'.mul hshape) ?_
  rw [hshape.toMatrix_mul hshape', hshape'.toMatrix_mul hshape, hop, hop',
    place_comm (wires_ne_of_disjoint hps hqs hdisj)]

variable [Rotations A K] [LawfulRotations A K]

/-- Entries that share no qubit commute. -/
theorem Entry.operator_comm {d e : Entry A} (hd : d.Fits n) (he : e.Fits n)
    (hdisj : d.qubits.Disjoint e.qubits) :
    (d.operator n * e.operator n : Matrix _ _ K) =
    e.operator n * d.operator n := by
  rw [operator_eq_place d hd, operator_eq_place e he,
    place_comm (wires_ne_of_disjoint hd he hdisj)]

namespace Circuit

/-- Neighbours that share no qubit may be exchanged. -/
theorem operator_exchange {front back : Circuit A} {d e : Entry A}
    (h : Fits n (front ++ d :: e :: back))
    (hdisj : d.qubits.Disjoint e.qubits) :
    (operator n (front ++ e :: d :: back) : Matrix _ _ K)
      = operator n (front ++ d :: e :: back) := by
  have hd : d.Fits n := h d (by simp)
  have he : e.Fits n := h e (by simp)
  have hcomm := Entry.operator_comm (K := K) hd he hdisj
  simp only [operator_append, operator_cons, mul_assoc]
  rw [← mul_assoc (d.operator n), hcomm, mul_assoc]

variable [MulAdd K] [LawfulMulAdd K]

theorem unitary_exchange (front back : Circuit A) {d e : Entry A}
    (hdisj : d.qubits.Disjoint e.qubits) (n : ℕ) :
    (unitary (front ++ d :: e :: back) n : Option (Mat K)) =
    unitary (front ++ e :: d :: back) n := by
  have hperm : (front ++ d :: e :: back).Perm (front ++ e :: d :: back) :=
    (List.Perm.swap e d back).append_left front
  ext U
  rw [unitary_eq_some_iff, unitary_eq_some_iff]
  constructor
  · rintro ⟨hfits, hshape, hop⟩
    exact ⟨hfits.subset hperm.symm.subset, hshape,
      hop.trans (operator_exchange hfits hdisj).symm⟩
  · rintro ⟨hfits, hshape, hop⟩
    exact ⟨hfits.subset hperm.subset, hshape,
      hop.trans (operator_exchange hfits hdisj.symm).symm⟩

end Circuit

/-- **Gates on disjoint qubits commute.**  Two gates on lists of qubits of a
register that have no qubit in common are embedded as matrices that commute,
over any commutative ring; a list may name a qubit twice.  So exchanging two
neighbours of a circuit that share no qubit changes the unitary on no register,
and neither whether there is one. -/
theorem disjoint_gates_commute [MulAdd K] [LawfulMulAdd K] (n : ℕ) :
    (∀ (ps qs : List ℕ) (a b : Mat K), ps.Disjoint qs → (∀ p ∈ ps, p < n) →
      (∀ q ∈ qs, q < n) →
      a.OnQubits ps.length → b.OnQubits qs.length →
      ∃ ea eb, a.embed n ps = some ea ∧ b.embed n qs = some eb ∧
        ea.mul eb = eb.mul ea) ∧
    ∀ (front back : Circuit A) (d e : Entry A), d.qubits.Disjoint e.qubits →
      (Circuit.unitary (front ++ d :: e :: back) n : Option (Mat K))
        = Circuit.unitary (front ++ e :: d :: back) n := by
  constructor
  · intro ps qs a b hdisj hps hqs ha hb
    obtain ⟨ea, hea, -⟩ := Mat.embed_eq_some ha hps
    obtain ⟨eb, heb, -⟩ := Mat.embed_eq_some hb hqs
    exact ⟨ea, eb, hea, heb, Mat.embed_comm hdisj ha hb hea heb⟩
  · intro front back d e hdisj
    exact Circuit.unitary_exchange front back hdisj n

end Ring

/-- A gate on the outer qubits of three, the last one first, and a flip of the
one in between; a phase flip on those outer qubits and a rotation of the middle
one, before a flip whose qubits coincide. -/
theorem disjoint_gates_commute_interleaved :
    (∃ ea eb : Mat (Amplitude ℝ), Mat.controlledX.embed 3 [2, 0] = some ea ∧
      (Mat.square 0 1 1 0).embed 3 [1] = some eb ∧ ea.mul eb = eb.mul ea) ∧
    ∃ U : Mat (Amplitude ℝ),
      Circuit.unitary [.rx (1 : ℝ) 0, .cz 2 0, .rx 3 1, .cz 1 1] 3 = some U ∧
      Circuit.unitary [.rx (1 : ℝ) 0, .rx 3 1, .cz 2 0, .cz 1 1] 3 =
        some U := by
  obtain ⟨hgates, hentries⟩ :=
    disjoint_gates_commute (A := ℝ) (K := Amplitude ℝ) 3
  refine ⟨hgates [2, 0] [1] _ _ (by simp) (by decide) (by decide) ⟨rfl, rfl⟩
    ⟨rfl, rfl⟩, ?_⟩
  have hfits : Circuit.Fits 3 [.rx (1 : ℝ) 0, .cz 2 0, .rx 3 1, .cz 1 1] := by
    simp [Circuit.Fits, Entry.Fits, Entry.qubits, Entry.rx]
  have hdisj :
      (Entry.cz 2 0 : Entry ℝ).qubits.Disjoint (Entry.rx 3 1).qubits := by
    simp [Entry.qubits, Entry.rx]
  obtain ⟨U, hU, -⟩ := hfits.exists_unitary (K := Amplitude ℝ)
  exact ⟨U, hU, (hentries [.rx 1 0] [.cz 1 1] _ _ hdisj).symm.trans hU⟩

end Gimbal
