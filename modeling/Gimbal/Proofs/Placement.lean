/-
Gimbal/Proofs/Placement.lean

Placing an operator on some qubits of a register.

A basis state of `n` qubits is an index below `2 ^ n`; it is determined by the
values of its qubits, and any values make one (`qubitOf`, `ofQubits`).  For a
choice `q : Fin k → Fin n` of qubits,

    place q A x y = A (select q x) (select q y)     where x and y agree off the chosen qubits,

and zero elsewhere.  Nothing is asked of `q` here: a diagonal operator stays
diagonal even where a qubit is chosen twice.  For an injective choice `place q`
is a homomorphism of rings that keeps the adjoint, placements compose, and over
the complex numbers the operator norm does not grow.

`Mat.embed` is this placement.  It is defined where every chosen qubit lies in
the register and the gate has an entry for all their values, and reads no
others.
-/
import Mathlib
import Gimbal.Proofs.Operator
import Gimbal.Mat.Embed

namespace Gimbal

variable {k m n : ℕ} {K L : Type}

/-! ### Basis states by the values of their qubits -/

/-- The value of a qubit in a basis state; qubit 0 is the most significant
bit. -/
def qubitOf (x : Fin (2 ^ n)) (q : Fin n) : Bool := x.val.testBit (n - 1 - q)

/-- The basis state in which the qubits have the given values. -/
def ofQubits (f : Fin n → Bool) : Fin (2 ^ n) := Fin.ofBits fun i => f i.rev

@[simp] theorem qubitOf_ofQubits (f : Fin n → Bool) (q : Fin n) :
    qubitOf (ofQubits f) q = f q := by
  have hlt : n - 1 - q.val < n := by omega
  have hrev : Fin.rev ⟨n - 1 - q.val, hlt⟩ = q := by
    apply Fin.ext
    show n - (n - 1 - q.val + 1) = q.val
    omega
  rw [qubitOf, ofQubits, Fin.val_ofBits, Nat.testBit_ofBits_lt _ _ hlt, hrev]

/-- A basis state is determined by the values of its qubits. -/
theorem ext_qubitOf {x y : Fin (2 ^ n)} (h : ∀ q, qubitOf x q = qubitOf y q) :
    x = y := by
  apply Fin.ext
  apply Nat.eq_of_testBit_eq
  intro i
  -- each binary digit below `n` is a qubit
  by_cases hi : i < n
  · have hq := h ⟨n - 1 - i, by omega⟩
    have hsub : n - 1 - (n - 1 - i) = i := by omega
    simpa only [qubitOf, hsub] using hq
  · -- beyond the register both numbers have no bits
    have hpow : 2 ^ n ≤ 2 ^ i := Nat.pow_le_pow_right (by omega) (by omega)
    rw [Nat.testBit_lt_two_pow (x.isLt.trans_le hpow),
      Nat.testBit_lt_two_pow (y.isLt.trans_le hpow)]

/-- The values of the chosen qubits, as a basis state of their own. -/
def select (q : Fin k → Fin n) (x : Fin (2 ^ n)) : Fin (2 ^ k) :=
  ofQubits fun p => qubitOf x (q p)

@[simp] theorem qubitOf_select (q : Fin k → Fin n) (x : Fin (2 ^ n))
    (p : Fin k) :
    qubitOf (select q x) p = qubitOf x (q p) :=
  qubitOf_ofQubits _ _

/-- Two basis states agree on every qubit that was not chosen. -/
def AgreeOff (q : Fin k → Fin n) (x y : Fin (2 ^ n)) : Prop :=
  ∀ r, (∀ p, q p ≠ r) → qubitOf x r = qubitOf y r

instance (q : Fin k → Fin n) (x y : Fin (2 ^ n)) : Decidable (AgreeOff q x y) :=
  inferInstanceAs (Decidable (∀ r, (∀ p, q p ≠ r) → qubitOf x r = qubitOf y r))

theorem AgreeOff.refl (q : Fin k → Fin n) (x : Fin (2 ^ n)) : AgreeOff q x x :=
  fun _ _ => rfl

theorem AgreeOff.symm {q : Fin k → Fin n} {x y : Fin (2 ^ n)}
    (h : AgreeOff q x y) :
    AgreeOff q y x := fun r hr => (h r hr).symm

theorem AgreeOff.trans {q : Fin k → Fin n} {x y z : Fin (2 ^ n)}
    (h : AgreeOff q x y) (h' : AgreeOff q y z) : AgreeOff q x z :=
  fun r hr => (h r hr).trans (h' r hr)

/-- States that agree on the chosen qubits and on the others are equal. -/
theorem AgreeOff.eq_of_select_eq {q : Fin k → Fin n} {x y : Fin (2 ^ n)}
    (h : AgreeOff q x y) (hs : select q x = select q y) : x = y := by
  apply ext_qubitOf
  intro r
  by_cases hr : ∃ p, q p = r
  · obtain ⟨p, rfl⟩ := hr
    rw [← qubitOf_select, hs, qubitOf_select]
  · exact h r (not_exists.mp hr)

/-- The state `x` with the chosen qubits set as in `y`. -/
noncomputable def patch (q : Fin k → Fin n) (x : Fin (2 ^ n))
    (y : Fin (2 ^ k)) : Fin (2 ^ n) :=
  ofQubits (Function.extend q (qubitOf y) (qubitOf x))

theorem agreeOff_patch (q : Fin k → Fin n) (x : Fin (2 ^ n)) (y : Fin (2 ^ k)) :
    AgreeOff q x (patch q x y) := by
  intro r hr
  rw [patch, qubitOf_ofQubits, Function.extend_apply' _ _ _ (not_exists.mpr hr)]

theorem select_patch {q : Fin k → Fin n} (hq : Function.Injective q)
    (x : Fin (2 ^ n)) (y : Fin (2 ^ k)) : select q (patch q x y) = y := by
  apply ext_qubitOf
  intro p
  rw [qubitOf_select, patch, qubitOf_ofQubits, hq.extend_apply]

/-! ### Placement -/

/-- The operator `A` on the chosen qubits. -/
def place [Zero K] (q : Fin k → Fin n)
    (A : Matrix (Fin (2 ^ k)) (Fin (2 ^ k)) K) :
    Matrix (Fin (2 ^ n)) (Fin (2 ^ n)) K :=
  Matrix.of fun x y => if AgreeOff q x y then A (select q x) (select q y) else 0

theorem place_apply [Zero K] (q : Fin k → Fin n)
    (A : Matrix (Fin (2 ^ k)) (Fin (2 ^ k)) K) (x y : Fin (2 ^ n)) :
    place q A x y = if AgreeOff q x y then A (select q x) (select q y) else 0 :=
  rfl

theorem place_map [Zero K] [Zero L] (q : Fin k → Fin n)
    (A : Matrix (Fin (2 ^ k)) (Fin (2 ^ k)) K) (f : K → L) (hf : f 0 = 0) :
    (place q A).map f = place q (A.map f) := by
  ext x y
  rw [Matrix.map_apply, place_apply, place_apply, apply_ite f, hf]
  rfl

theorem place_diagonal [Zero K] (q : Fin k → Fin n) (d : Fin (2 ^ k) → K) :
    place q (Matrix.diagonal d) = Matrix.diagonal fun x => d (select q x) := by
  ext x y
  rw [place_apply, Matrix.diagonal_apply, Matrix.diagonal_apply]
  by_cases hxy : x = y
  · subst hxy
    rw [if_pos (AgreeOff.refl q x), if_pos rfl, if_pos rfl]
  · rw [if_neg hxy]
    split_ifs with hoff hsel
    · exact absurd (hoff.eq_of_select_eq hsel) hxy
    · rfl
    · rfl

theorem place_one [Zero K] [One K] (q : Fin k → Fin n) :
    place q (1 : Matrix _ _ K) = 1 := by
  rw [← Matrix.diagonal_one, place_diagonal, Matrix.diagonal_one]

/-- An operator on all qubits of a register, in their order, is itself. -/
theorem place_id [Zero K] (A : Matrix (Fin (2 ^ n)) (Fin (2 ^ n)) K) :
    place id A = A := by
  have hsel : ∀ x : Fin (2 ^ n), select id x = x := fun x =>
    ext_qubitOf fun q => qubitOf_select id x q
  ext x y
  have hoff : AgreeOff id x y := fun r hr => absurd rfl (hr r)
  rw [place_apply, if_pos hoff, hsel, hsel]

/-- Placements compose. -/
theorem place_place [Zero K] {q : Fin k → Fin n} (hq : Function.Injective q)
    (p : Fin m → Fin k) (A : Matrix (Fin (2 ^ m)) (Fin (2 ^ m)) K) :
    place q (place p A) = place (q ∘ p) A := by
  -- choosing among the chosen is choosing by the composition
  have hsel : ∀ x : Fin (2 ^ n), select p (select q x) = select (q ∘ p) x := by
    intro x
    apply ext_qubitOf
    intro r
    simp
  have hoff : ∀ x y : Fin (2 ^ n),
      AgreeOff (q ∘ p) x y ↔ AgreeOff q x y ∧
        AgreeOff p (select q x) (select q y) := by
    intro x y
    constructor
    · intro h
      refine ⟨fun r hr => h r fun a => hr (p a), fun a ha => ?_⟩
      rw [qubitOf_select, qubitOf_select]
      exact h (q a) fun b hb => ha b (hq hb)
    · -- a qubit that `q` does not reach is untouched; one that it reaches is
      -- off `p`
      rintro ⟨h, h'⟩ r hr
      by_cases hex : ∃ a, q a = r
      · obtain ⟨a, rfl⟩ := hex
        rw [← qubitOf_select, ← qubitOf_select]
        exact h' a fun b hb => hr b (congrArg q hb)
      · exact h r (not_exists.mp hex)
  ext x y
  rw [place_apply, place_apply, place_apply, hsel, hsel, ← ite_and]
  exact if_congr (hoff x y).symm rfl rfl

section Ring

variable [CommRing K]

theorem place_smul (q : Fin k → Fin n) (a : K)
    (A : Matrix (Fin (2 ^ k)) (Fin (2 ^ k)) K) :
    place q (a • A) = a • place q A := by
  ext x y
  simp only [place_apply, Matrix.smul_apply, smul_ite, smul_zero]

theorem place_add (q : Fin k → Fin n)
    (A B : Matrix (Fin (2 ^ k)) (Fin (2 ^ k)) K) :
    place q (A + B) = place q A + place q B := by
  ext x y
  simp only [place_apply, Matrix.add_apply]
  split <;> simp

theorem place_sub (q : Fin k → Fin n)
    (A B : Matrix (Fin (2 ^ k)) (Fin (2 ^ k)) K) :
    place q (A - B) = place q A - place q B := by
  ext x y
  simp only [place_apply, Matrix.sub_apply]
  split <;> simp

/-- Placement on distinct qubits keeps products. -/
theorem place_mul {q : Fin k → Fin n} (hq : Function.Injective q)
    (A B : Matrix (Fin (2 ^ k)) (Fin (2 ^ k)) K) :
    place q (A * B) = place q A * place q B := by
  ext x y
  rw [place_apply, Matrix.mul_apply, Matrix.mul_apply]
  -- Only the states that agree with `x` off the chosen qubits contribute, one
  -- for each `z`.
  have hsum : ∑ w, place q A x w * place q B w y
      = ∑ z, place q A x (patch q x z) * place q B (patch q x z) y := by
    refine (Fintype.sum_of_injective (patch q x) ?_ _ _ ?_ fun _ => rfl).symm
    · intro z z' h
      rw [← select_patch hq x z, h, select_patch hq]
    · intro w hw
      have hoff : ¬ AgreeOff q x w := by
        intro h
        refine hw ⟨select q w, ?_⟩
        exact ((agreeOff_patch q x _).symm.trans h).eq_of_select_eq
          (select_patch hq x _)
      rw [place_apply, if_neg hoff, zero_mul]
  rw [hsum]
  have hiff : ∀ z, AgreeOff q (patch q x z) y ↔ AgreeOff q x y := fun z =>
    ⟨(agreeOff_patch q x z).trans, (agreeOff_patch q x z).symm.trans⟩
  split_ifs with hxy
  · refine Finset.sum_congr rfl fun z _ => ?_
    rw [place_apply, place_apply, if_pos (agreeOff_patch q x z),
      if_pos ((hiff z).mpr hxy), select_patch hq]
  · refine (Finset.sum_eq_zero fun z _ => ?_).symm
    rw [place_apply q B, if_neg (mt (hiff z).mp hxy), mul_zero]

end Ring

/-! ### Adjoints and norms -/

section Complex

open scoped Matrix.Norms.L2Operator

theorem place_conjTranspose (q : Fin k → Fin n)
    (A : Matrix (Fin (2 ^ k)) (Fin (2 ^ k)) ℂ) :
    place q A.conjTranspose = (place q A).conjTranspose := by
  ext x y
  have hiff : AgreeOff q x y ↔ AgreeOff q y x := ⟨AgreeOff.symm, AgreeOff.symm⟩
  rw [Matrix.conjTranspose_apply, place_apply, place_apply,
    if_congr hiff rfl rfl, apply_ite star, star_zero]
  rfl

/-- Placement on distinct qubits as a homomorphism of star algebras. -/
def placeHom (q : Fin k → Fin n) (hq : Function.Injective q) :
    Matrix (Fin (2 ^ k)) (Fin (2 ^ k)) ℂ →⋆ₐ[ℂ] Matrix (Fin (2 ^ n))
      (Fin (2 ^ n)) ℂ where
  toFun := place q
  map_one' := place_one q
  map_mul' := place_mul hq
  map_zero' := by rw [← zero_smul ℂ (1 : Matrix _ _ ℂ), place_smul, zero_smul]
  map_add' := place_add q
  commutes' a := by
    rw [Algebra.algebraMap_eq_smul_one, place_smul, place_one,
      Algebra.algebraMap_eq_smul_one]
  map_star' := place_conjTranspose q

/-- Placement on distinct qubits does not enlarge an operator. -/
theorem norm_place_le {q : Fin k → Fin n} (hq : Function.Injective q)
    (A : Matrix (Fin (2 ^ k)) (Fin (2 ^ k)) ℂ) : ‖place q A‖ ≤ ‖A‖ :=
  NonUnitalStarAlgHom.norm_apply_le (placeHom q hq) A

end Complex

/-! ### Embedding is placement -/

/-- The positions of listed qubits in a register that has them all. -/
def wires (qs : List ℕ) (h : ∀ q ∈ qs, q < n) : Fin qs.length → Fin n :=
  fun p => ⟨qs.get p, h _ (List.get_mem qs p)⟩

theorem wires_injective {qs : List ℕ} (h : ∀ q ∈ qs, q < n) (hnd : qs.Nodup) :
    Function.Injective (wires qs h) := by
  intro a b hab
  exact List.nodup_iff_injective_get.mp hnd (congrArg Fin.val hab)

section SubIndex

/-- The number that the bits of `qs` in `index` make behind the digits of
`acc`. -/
def readBits (n index acc : ℕ) (qs : List ℕ) : ℕ :=
  qs.foldl (fun acc q => 2 * acc + (index.testBit (n - 1 - q)).toNat) acc

theorem foldlM_qubitBit? {qs : List ℕ} (h : ∀ q ∈ qs, q < n) (index acc : ℕ) :
    qs.foldlM
      (fun acc q => (qubitBit? n q index).map fun b => 2 * acc + b.toNat) acc
      = some (readBits n index acc qs) := by
  induction qs generalizing acc with
  | nil => rfl
  | cons q qs ih =>
    have hq : q < n := h q (by simp)
    rw [List.foldlM_cons, qubitBit?, if_pos hq]
    exact ih (fun p hp => h p (by simp [hp])) _

theorem readBits_lt (n index acc : ℕ) (qs : List ℕ) :
    readBits n index acc qs < (acc + 1) * 2 ^ qs.length := by
  induction qs generalizing acc with
  | nil => simp [readBits]
  | cons q qs ih =>
    have hb : (index.testBit (n - 1 - q)).toNat ≤ 1 := Bool.toNat_le _
    have hstep := ih (2 * acc + (index.testBit (n - 1 - q)).toNat)
    refine hstep.trans_le ?_
    rw [List.length_cons, pow_succ', ← mul_assoc]
    exact Nat.mul_le_mul_right _ (by omega)

/-- Behind the digits of `acc`, the bits of the listed qubits in their order. -/
theorem testBit_readBits (n index acc : ℕ) (qs : List ℕ) (j : ℕ) :
    (readBits n index acc qs).testBit j =
      if h : j < qs.length then index.testBit (n - 1 - qs[qs.length - 1 - j])
      else acc.testBit (j - qs.length) := by
  -- induction on the qubits, for every number read so far
  induction qs generalizing acc with
  | nil => simp [readBits]
  | cons q qs ih =>
    show (readBits n index (2 * acc + _) qs).testBit j = _
    rw [ih]
    rcases Nat.lt_trichotomy j qs.length with hlt | heq | hgt
    · have hlt' : j < (q :: qs).length := by simp; omega
      have hidx : (q :: qs).length - 1 - j = qs.length - 1 - j + 1 := by
        simp; omega
      rw [dif_pos hlt, dif_pos hlt']
      simp only [hidx, List.getElem_cons_succ]
    · -- the bit of `q` itself, the last digit that was added to `acc`
      subst heq
      have hlt' : qs.length < (q :: qs).length := by simp
      rw [dif_neg (lt_irrefl _), dif_pos hlt', Nat.sub_self]
      simp only [List.length_cons, Nat.add_sub_cancel, Nat.sub_self,
        List.getElem_cons_zero]
      cases index.testBit (n - 1 - q) <;> simp [Nat.add_mod]
    · have hge' : ¬ j < (q :: qs).length := by simp; omega
      have hj : j - qs.length = j - (q :: qs).length + 1 := by simp; omega
      have hhalf : (2 * acc + (index.testBit (n - 1 - q)).toNat) / 2 = acc := by
        have := Bool.toNat_le (index.testBit (n - 1 - q))
        omega
      rw [dif_neg (by omega), dif_neg hge', hj, Nat.testBit_succ, hhalf]

theorem subIndex?_eq {qs : List ℕ} (h : ∀ q ∈ qs, q < n) (x : Fin (2 ^ n)) :
    subIndex? n qs x = some (select (wires qs h) x).val := by
  rw [subIndex?, foldlM_qubitBit? h]
  have hlt : readBits n x 0 qs < 2 ^ qs.length := by
    simpa using readBits_lt n x 0 qs
  -- the digits of the index are the chosen qubits, most significant first
  have heq :
      (⟨readBits n x 0 qs, hlt⟩ : Fin (2 ^ qs.length)) =
        select (wires qs h) x := by
    apply ext_qubitOf
    intro p
    have hp : qs.length - 1 - p.val < qs.length := by omega
    have hidx : qs.length - 1 - (qs.length - 1 - p.val) = p.val := by omega
    rw [qubitOf_select]
    show (readBits n x 0 qs).testBit (qs.length - 1 - p.val) = _
    rw [testBit_readBits, dif_pos hp]
    simp only [hidx]
    rfl
  rw [← heq]

/-- A qubit outside the register has no bit in an index. -/
theorem subIndex?_eq_none {qs : List ℕ} {q : ℕ} (hmem : q ∈ qs) (hq : n ≤ q)
    (index : ℕ) :
    subIndex? n qs index = none := by
  -- what the qubits in front of it have made does not matter
  have hfold : ∀ acc, qs.foldlM
      (fun acc q => (qubitBit? n q index).map fun b => 2 * acc + b.toNat) acc =
        none := by
    induction qs with
    | nil => cases hmem
    | cons p qs ih =>
      intro acc
      rw [List.foldlM_cons]
      by_cases hp : p < n
      · rw [qubitBit?, if_pos hp]
        refine ih ?_ _
        rcases List.mem_cons.mp hmem with rfl | htail
        · omega
        · exact htail
      · -- the first qubit out of range ends the reading
        rw [qubitBit?, if_neg hp]
        rfl
  exact hfold 0

end SubIndex

theorem agreeOff_eq {qs : List ℕ} (h : ∀ q ∈ qs, q < n) (x y : Fin (2 ^ n)) :
    agreeOff n qs x y = decide (AgreeOff (wires qs h) x y) := by
  have hmem : ∀ r : Fin n, (∀ p, wires qs h p ≠ r) ↔ r.val ∉ qs := by
    intro r
    constructor
    · intro hr hmem
      obtain ⟨p, hp⟩ := List.get_of_mem hmem
      exact hr p (Fin.ext hp)
    · rintro hr p rfl
      exact hr (List.get_mem qs p)
  rw [Bool.eq_iff_iff, decide_eq_true_iff, agreeOff, List.all_eq_true]
  constructor
  · intro hall r hr
    have hq := hall r.val (List.mem_range.mpr r.isLt)
    rw [List.contains_eq_mem, decide_eq_false ((hmem r).mp hr), Bool.false_or,
      beq_iff_eq] at hq
    exact hq
  · intro hoff r hr
    by_cases hq : r ∈ qs
    · simp [hq]
    · have := hoff ⟨r, List.mem_range.mp hr⟩ ((hmem _).mpr hq)
      simpa [qubitOf, hq] using this

namespace Mat

/-- A cell of an embedded gate, where the register has every chosen qubit and
the gate has an entry for all their values. -/
theorem embedAt?_eq [Zero K] {g : Mat K} {qs : List ℕ}
    (hr : 2 ^ qs.length ≤ g.rows) (hc : 2 ^ qs.length ≤ g.cols)
    (h : ∀ q ∈ qs, q < n) (x y : Fin (2 ^ n)) :
    g.embedAt? n qs x y =
      some (place (wires qs h) (g.toMatrix qs.length) x y) := by
  rw [embedAt?, agreeOff_eq h, place_apply]
  by_cases hoff : AgreeOff (wires qs h) x y
  · rw [decide_eq_true hoff, if_pos rfl, if_pos hoff, subIndex?_eq h,
      subIndex?_eq h]
    exact g.entryAt?_eq_some ((Fin.isLt _).trans_le hr)
      ((Fin.isLt _).trans_le hc)
  · rw [decide_eq_false hoff, if_neg Bool.false_ne_true, if_neg hoff]

theorem all_entries_ofFn (p : L → Bool) (r c : ℕ) (f : ℕ → ℕ → L) :
    (ofFn r c f).entries.all p = true ↔ ∀ i j, i < r → j < c → p (f i j) := by
  rw [Array.all_eq_true]
  constructor
  · intro hall i j hi hj
    have hsize : i * c + j < (ofFn r c f).entries.size := by
      rw [(ofFn r c f).size_eq]
      exact index_lt hi hj
    have hentry := entryAt?_ofFn f hi hj
    rw [entryAt?, if_pos ⟨hi, hj⟩] at hentry
    have hget := (Array.getElem?_eq_some_iff.mp hentry).2
    rw [← hget]
    exact hall (i * c + j) hsize
  · intro hall l hl
    rw [(ofFn r c f).size_eq, rows_ofFn, cols_ofFn] at hl
    have hc : 0 < c := Nat.pos_of_ne_zero fun h0 => by simp [h0] at hl
    simp only [ofFn, Array.getElem_ofFn]
    exact hall _ _ (Nat.div_lt_of_lt_mul (by rwa [Nat.mul_comm]))
      (Nat.mod_lt _ hc)

/-- **Embedding is placement**: where the register has every chosen qubit and
the gate has an entry for all their values, it is embedded, and its leading
block is placed on those qubits. -/
theorem embed_eq_some_of_le [Zero K] {g : Mat K} {qs : List ℕ}
    (hr : 2 ^ qs.length ≤ g.rows) (hc : 2 ^ qs.length ≤ g.cols)
    (h : ∀ q ∈ qs, q < n) :
    ∃ m, g.embed n qs = some m ∧ m.OnQubits n ∧
      m.toMatrix n = place (wires qs h) (g.toMatrix qs.length) := by
  -- every entry of the grid is defined, so the array is kept
  have hall :
      (ofFn (2 ^ n) (2 ^ n) (g.embedAt? n qs)).entries.all Option.isSome =
        true := by
    rw [all_entries_ofFn]
    intro i j hi hj
    rw [embedAt?_eq hr hc h ⟨i, hi⟩ ⟨j, hj⟩]
    rfl
  refine ⟨_, if_pos hall, ⟨rfl, rfl⟩, ?_⟩
  ext x y
  rw [toMatrix_apply, entry, entryAt?_map, Nat.pow_eq,
    entryAt?_ofFn _ x.isLt y.isLt, embedAt?_eq hr hc h]
  rfl

/-- A gate of the right shape is embedded as a whole. -/
theorem embed_eq_some [Zero K] {g : Mat K} {qs : List ℕ}
    (hg : g.OnQubits qs.length) (h : ∀ q ∈ qs, q < n) :
    ∃ m, g.embed n qs = some m ∧ m.OnQubits n ∧
      m.toMatrix n = place (wires qs h) (g.toMatrix qs.length) :=
  embed_eq_some_of_le hg.1.ge hg.2.ge h

/-- With an embedding, every cell of it could be read. -/
theorem isSome_embedAt?_of_embed [Zero K] {g m : Mat K} {qs : List ℕ}
    (hm : g.embed n qs = some m) {i j : ℕ} (hi : i < 2 ^ n) (hj : j < 2 ^ n) :
    (g.embedAt? n qs i j).isSome = true := by
  have hall :
      (ofFn (2 ^ n) (2 ^ n) (g.embedAt? n qs)).entries.all Option.isSome =
        true := by
    by_contra hnot
    rw [show g.embed n qs = none from if_neg hnot] at hm
    cases hm
  exact (all_entries_ofFn _ _ _ _).mp hall i j hi hj

/-- An index agrees with itself, so on the diagonal the gate has an entry at its
bits. -/
theorem exists_subIndex?_of_embed [Zero K] {g m : Mat K} {qs : List ℕ}
    (hm : g.embed n qs = some m) {i : ℕ} (hi : i < 2 ^ n) :
    ∃ s, subIndex? n qs i = some s ∧ s < g.rows ∧ s < g.cols := by
  obtain ⟨v, hv⟩ :=
    Option.isSome_iff_exists.mp (isSome_embedAt?_of_embed hm hi hi)
  -- on the diagonal the states agree, so the entry is read off `g`
  have hself : agreeOff n qs i i = true := by simp [agreeOff]
  rw [embedAt?, if_pos hself] at hv
  obtain ⟨row, hrow, hv⟩ := Option.bind_eq_some_iff.mp hv
  obtain ⟨col, hcol, hread⟩ := Option.bind_eq_some_iff.mp hv
  obtain rfl := Option.some.inj (hrow.symm.trans hcol)
  refine ⟨row, hrow, ?_⟩
  by_contra hout
  rw [entryAt?, if_neg hout] at hread
  cases hread

/-- A gate with a qubit outside the register has no embedding. -/
theorem embed_eq_none [Zero K] (g : Mat K) {qs : List ℕ} {q : ℕ} (hmem : q ∈ qs)
    (hq : n ≤ q) :
    g.embed n qs = none := by
  rw [Option.eq_none_iff_forall_ne_some]
  intro m hm
  obtain ⟨s, hs, -⟩ := exists_subIndex?_of_embed hm (Nat.two_pow_pos n)
  rw [subIndex?_eq_none hmem hq] at hs
  cases hs

/-- What embedding gives, and when. -/
theorem embed_eq_some_iff [Zero K] {g m : Mat K} {qs : List ℕ}
    (hg : g.OnQubits qs.length) :
    g.embed n qs = some m ↔ ∃ h : ∀ q ∈ qs, q < n,
      m.OnQubits n ∧
        m.toMatrix n = place (wires qs h) (g.toMatrix qs.length) := by
  -- one qubit out of range leaves no matrix at all
  by_cases h : ∀ q ∈ qs, q < n
  · obtain ⟨m', hm', hshape, hplace⟩ := embed_eq_some hg h
    rw [hm']
    constructor
    · intro hsome
      obtain rfl := Option.some.inj hsome
      exact ⟨h, hshape, hplace⟩
    · rintro ⟨_, hm, hmat⟩
      exact congrArg some (hshape.eq_of_toMatrix_eq hm (hplace.trans hmat.symm))
  · obtain ⟨q, hmem, hq⟩ : ∃ q ∈ qs, n ≤ q := by simpa using h
    rw [embed_eq_none g hmem hq]
    constructor
    · intro hsome
      cases hsome
    · rintro ⟨hall, -⟩
      exact absurd hall h

end Mat

end Gimbal
