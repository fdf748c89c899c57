/-
Gimbal/Proofs/FloatRange.lean

Which results of floating-point arithmetic are finite, and which are numbers at
all.

A finite `Float` is a mantissa of at most 53 binary digits times a power of two,
and the exponent is at most 971.  `UpTo k` bounds the exponent.  Rounding raises
it by little (`upTo_roundWithAccuracy`), and what is packed within the range
stays there (`upTo_unpack_pack`); so small products are finite, and so are the
quotients of finite numbers by numbers not below two.

What is not a number spoils every sum, difference and product, and fails every
comparison.
-/
import Mathlib
import Gimbal.Binary64.Decimal

namespace Gimbal

namespace Binary64

open Float.Model (Format UnpackedFloat totalExponent)
open Float.Model.UnpackedFloat

/-! ### Packing -/

/-- The largest exponent of a finite number. -/
def maxExponent : ℤ := 971

/-- Zero, or a finite number whose exponent is at most `k`. -/
def UpTo (k : ℤ) : UnpackedFloat → Prop
  | .zero _ => True
  | .finite _ _ e _ => e ≤ k
  | _ => False

theorem UpTo.mono {k l : ℤ} (hkl : k ≤ l) {u : UnpackedFloat} (h : UpTo k u) :
    UpTo l u := by
  cases u with
  | infinity | notANumber => cases h
  | zero => trivial
  | finite s m e hm => exact le_trans h hkl

theorem UpTo.eq_zero_or_finite {k : ℤ} {u : UnpackedFloat} (h : UpTo k u) :
    (∃ s, u = .zero s) ∨ ∃ s m e hm, u = .finite s m e hm ∧ e ≤ k := by
  cases u with
  | infinity | notANumber => cases h
  | zero s => exact .inl ⟨s, rfl⟩
  | finite s m e hm => exact .inr ⟨s, m, e, hm, rfl, h⟩

theorem UpTo.isFinite {k : ℤ} {u : UnpackedFloat} (h : UpTo k u) :
    u.isFinite = true := by
  cases u with
  | infinity | notANumber => cases h
  | zero | finite => rfl

theorem UpTo.isNaN {k : ℤ} {u : UnpackedFloat} (h : UpTo k u) :
    u.isNaN = false := by
  cases u with
  | infinity | notANumber => cases h
  | zero | finite => rfl

/-- Bits whose exponent is not the largest one are a finite number. -/
theorem upTo_unpack {b : BitVec Format.binary64.numBits}
    (h : (unpackExponent b).toNat ≠ 2047) :
    UpTo (max ((unpackExponent b).toNat - 1075) minExponent)
      (unpack Format.binary64 b) := by
  have hones : unpackExponent b ≠ -1#_ := by
    intro heq
    exact h (by rw [heq]; rfl)
  unfold unpack
  dsimp only
  rw [if_neg hones]
  -- a number with the least exponent has no hidden digit
  split
  · next hzero =>
    split
    · trivial
    · show ((unpackExponent b).toNat : ℤ) - 1075 + 1 ≤ _
      rw [hzero]
      exact le_max_right _ _
  · exact le_max_left _ _

theorem upTo_unpack_max {b : BitVec Format.binary64.numBits}
    (h : (unpackExponent b).toNat ≠ 2047) :
    UpTo maxExponent (unpack Format.binary64 b) := by
  have hlt : (unpackExponent b).toNat < 2048 := BitVec.isLt _
  refine (upTo_unpack h).mono (max_le ?_ (by decide))
  rw [maxExponent]
  omega

theorem pack_finite (s : Sign) (m : ℕ) (e : ℤ) (hm : 0 < m) :
    pack Format.binary64 (.finite s m e hm) =
      if 2048 ≤ (e + 1023 + 52).toNat + 1 then packedInfinity Format.binary64 s
      else if m.log2 + 1 = 53 then
        packComponents Format.binary64 s (BitVec.ofNat 11 (e + 1023 + 52).toNat)
          (BitVec.ofNat 52 m)
      else packComponents Format.binary64 s 0#11 (BitVec.ofNat 52 m) := rfl

/-- Packing keeps finite numbers finite and does not raise their exponents. -/
theorem upTo_unpack_pack {k : ℤ} (hmin : minExponent ≤ k)
    (hmax : k ≤ maxExponent) {u : UnpackedFloat} (h : UpTo k u) :
    UpTo k (unpack Format.binary64 (pack Format.binary64 u)) := by
  cases u with
  | infinity | notANumber => cases h
  | zero s =>
    rw [pack, unpack_packedZero]
    trivial
  | finite s m e hm =>
    have he : e ≤ k := h
    have hroom : (e + 1023 + 52).toNat + 1 < 2048 := by
      rw [maxExponent] at hmax
      omega
    rw [pack_finite, if_neg hroom.not_ge]
    -- a mantissa of 53 digits is stored with its exponent, a shorter one with
    -- the least exponent
    split
    · have hfield :
          (BitVec.ofNat 11 (e + 1023 + 52).toNat).toNat =
            (e + 1023 + 52).toNat := by
        rw [BitVec.toNat_ofNat, Nat.mod_eq_of_lt (by omega)]
      have hupTo := upTo_unpack (b := packComponents Format.binary64 s
        (BitVec.ofNat 11 (e + 1023 + 52).toNat) (BitVec.ofNat 52 m))
      rw [unpackExponent_packComponents, hfield] at hupTo
      refine (hupTo (by omega)).mono (max_le ?_ hmin)
      rw [minExponent] at hmin
      omega
    · have hupTo :=
        upTo_unpack
          (b := packComponents Format.binary64 s 0#11 (BitVec.ofNat 52 m))
      rw [unpackExponent_packComponents] at hupTo
      exact (hupTo (by decide)).mono (max_le (hmin.trans' (by decide)) hmin)

/-- Packing makes a number of a number only. -/
theorem isNaN_unpack_pack (u : UnpackedFloat) :
    (unpack Format.binary64 (pack Format.binary64 u)).isNaN = u.isNaN := by
  have hinfinity :
      ∀ s, (unpack Format.binary64 (packedInfinity Format.binary64 s)).isNaN =
        false := by
    intro s
    cases s <;> rfl
  cases u with
  | notANumber => rw [pack, unpack_packedNaN]
  | infinity s => exact hinfinity s
  | zero s => rw [pack, unpack_packedZero]
  | finite s m e hm =>
    -- a number in range keeps its exponent, one out of range becomes infinite
    by_cases he : e ≤ maxExponent
    · have hupTo : UpTo (max e minExponent) (.finite s m e hm) :=
        le_max_left _ _
      exact (upTo_unpack_pack (le_max_right _ _) (max_le he (by decide))
        hupTo).isNaN
    · have hover : 2048 ≤ (e + 1023 + 52).toNat + 1 := by
        rw [maxExponent] at he
        omega
      rw [pack_finite, if_pos hover, hinfinity]
      rfl

/-! ### Rounding -/

theorem mantissa_shiftRight (em : ExtendedMantissa) (n : ℕ) :
    (em >>> n).mantissa = em.mantissa / 2 ^ n := by
  induction n with
  | zero => exact (Nat.div_one _).symm
  | succ n ih =>
    show (em >>> n).mantissa / 2 = _
    rw [ih, Nat.div_div_eq_div_mul, pow_succ]

theorem mantissa_ofMantissaAndAccuracy (m : ℕ) (a : Accuracy) :
    (ExtendedMantissa.ofMantissaAndAccuracy m a).mantissa = m := by
  rw [ExtendedMantissa.ofMantissaAndAccuracy.eq_def]
  split <;> rfl

theorem roundedMantissa_le (em : ExtendedMantissa) :
    em.roundedMantissa ≤ em.mantissa + 1 := by
  have hparity : em.mantissa % 2 ≤ 1 := Nat.le_of_lt_succ (Nat.mod_lt _ two_pos)
  rw [ExtendedMantissa.roundedMantissa, Accuracy.roundToNearestEven.eq_def]
  split <;> omega

theorem log2_le_of_lt_two_pow_succ {m k : ℕ} (h : m < 2 ^ (k + 1)) :
    m.log2 ≤ k := by
  rcases Nat.eq_zero_or_pos m with rfl | hpos
  · exact Nat.zero_le k
  · exact Nat.le_of_lt_succ ((Nat.log2_lt hpos.ne').mpr h)

/-- A mantissa that loses `n` digits and is rounded has at most one digit more
than are left. -/
theorem log2_roundedMantissa_le (m n : ℕ) (a : Accuracy) :
    ((ExtendedMantissa.ofMantissaAndAccuracy m a >>> n).roundedMantissa).log2 ≤
      m.log2 + 1 - n := by
  -- a shift by `n` takes `n` digits away, and rounding may add one
  have hshort : m / 2 ^ n < 2 ^ (m.log2 + 1 - n) := by
    rw [Nat.div_lt_iff_lt_mul (by positivity), ← pow_add]
    refine Nat.lt_log2_self.trans_le (Nat.pow_le_pow_right two_pos ?_)
    omega
  have hrounded :=
    roundedMantissa_le (ExtendedMantissa.ofMantissaAndAccuracy m a >>> n)
  rw [mantissa_shiftRight, mantissa_ofMantissaAndAccuracy] at hrounded
  have hpos : 0 < 2 ^ (m.log2 + 1 - n) := by positivity
  apply log2_le_of_lt_two_pow_succ
  rw [pow_succ]
  omega

theorem exponent_shiftToTargetExponent (m : ℕ) (e : ℤ) (a : Accuracy) :
    (shiftToTargetExponent Format.binary64 m e a).2 =
      max e (max (m.log2 + e - 52) minExponent) := by
  show e + ((max (m.log2 + 1 + e - 53) (-1074) - e).toNat : ℤ) = _
  rw [minExponent]
  omega

theorem log2_shiftToTargetExponent_le (m : ℕ) (e : ℤ) (a : Accuracy) :
    ((shiftToTargetExponent Format.binary64 m e a).1.roundedMantissa.log2 : ℤ) ≤
      max (m.log2 + 1 + e - (shiftToTargetExponent Format.binary64 m e a).2)
        0 := by
  have hlog :=
    log2_roundedMantissa_le m (max (m.log2 + 1 + e - 53) (-1074) - e).toNat a
  show ((ExtendedMantissa.ofMantissaAndAccuracy m a >>>
      (max (m.log2 + 1 + e - 53) (-1074) - e).toNat).roundedMantissa.log2 : ℤ) ≤
    max (m.log2 + 1 + e - (e + (max (m.log2 + 1 + e - 53) (-1074) - e).toNat)) 0
  omega

/-- Rounding leaves an exponent that is small enough for a mantissa of 53
digits, with one more for a carry, or makes it no larger than it was. -/
theorem upTo_roundWithAccuracy (s : Sign) (m : ℕ) (e : ℤ) (a : Accuracy) :
    UpTo (max (max e (m.log2 + e - 51)) minExponent)
      (roundWithAccuracy Format.binary64 s m e a) := by
  have hlog := log2_shiftToTargetExponent_le m e a
  have hfirst := exponent_shiftToTargetExponent m e a
  unfold roundWithAccuracy
  dsimp only
  split
  · trivial
  · -- the second shift makes room for a carry of the rounding
    have hsecond := exponent_shiftToTargetExponent
      (shiftToTargetExponent Format.binary64 m e a).1.roundedMantissa
      (shiftToTargetExponent Format.binary64 m e a).2 .exact
    show (shiftToTargetExponent Format.binary64 _ _ .exact).2 ≤ _
    rw [minExponent] at hfirst hsecond ⊢
    omega

/-! ### Numbers and their parts -/

/-- The bits of a number. -/
def bitsOf (x : Float) : BitVec Format.binary64.numBits :=
  x.toModel.toBits.toBitVec

/-- The number as the arithmetic takes it apart. -/
def parts (x : Float) : UnpackedFloat := unpack Format.binary64 (bitsOf x)

theorem mantissa_lt_of_parts {x : Float} {s : Sign} {m : ℕ} {e : ℤ} {hm : 0 < m}
    (h : parts x = .finite s m e hm) : m < 2 ^ 53 := by
  unfold parts unpack at h
  dsimp only at h
  -- the hidden digit is set in every number but the least ones
  split at h
  · split at h <;> cases h
  · split at h
    · split at h
      · cases h
      · cases h
        exact (BitVec.isLt _).trans (by decide)
    · cases h
      exact BitVec.isLt _

/-- The largest exponent is kept for what is not finite. -/
theorem isFinite_iff {x : Float} :
    x.isFinite = true ↔ (unpackExponent (bitsOf x)).toNat ≠ 2047 := by
  refine ⟨fun h hones => ?_, fun h => (upTo_unpack_max h).isFinite⟩
  have hfield : unpackExponent (bitsOf x) = -1#11 := BitVec.eq_of_toNat_eq hones
  change (unpack Format.binary64 (bitsOf x)).isFinite = true at h
  unfold unpack at h
  dsimp only at h
  rw [if_pos hfield] at h
  split at h <;> cases h

/-- The exponents of finite numbers are bounded. -/
theorem upTo_parts_iff {x : Float} : UpTo maxExponent (parts x) ↔
      x.isFinite = true :=
  ⟨fun h => h.isFinite, fun h => upTo_unpack_max (isFinite_iff.mp h)⟩

theorem isNaN_eq (x : Float) : x.isNaN = (parts x).isNaN := rfl

theorem parts_eq_notANumber {x : Float} (h : x.isNaN = true) :
    parts x = .notANumber := by
  rw [isNaN_eq] at h
  cases hx : parts x <;> rw [hx] at h <;> first | rfl | cases h

/-- An operation whose result is within the range before it is packed. -/
theorem isFinite_of_upTo {k : ℤ} (hk : k ≤ maxExponent) {x : Float}
    {u : UnpackedFloat} (hx : bitsOf x = pack Format.binary64 u)
    (h : UpTo k u) : x.isFinite = true := by
  have hmax := upTo_unpack_pack (by decide) le_rfl (h.mono hk)
  rw [← hx] at hmax
  exact hmax.isFinite

theorem isNaN_of_bitsOf {x : Float} {u : UnpackedFloat}
    (hx : bitsOf x = pack Format.binary64 u) :
    x.isNaN = u.isNaN := by
  rw [isNaN_eq, parts, hx, isNaN_unpack_pack]

theorem bitsOf_mul (x y : Float) :
    bitsOf (x * y) =
      pack Format.binary64 (mul Format.binary64 (parts x) (parts y)) := rfl

theorem bitsOf_div (x y : Float) :
    bitsOf (x / y) =
      pack Format.binary64 (div Format.binary64 (parts x) (parts y)) := rfl

theorem bitsOf_add (x y : Float) :
    bitsOf (x + y) =
      pack Format.binary64 (add Format.binary64 (parts x) (parts y)) := rfl

theorem bitsOf_sub (x y : Float) :
    bitsOf (x - y) =
      pack Format.binary64 (sub Format.binary64 (parts x) (parts y)) := rfl

/-! ### What is not a number -/

theorem isNaN_mul_right {x y : Float} (h : y.isNaN = true) :
    (x * y).isNaN = true := by
  rw [isNaN_of_bitsOf (bitsOf_mul x y), parts_eq_notANumber h]
  cases parts x <;> rfl

theorem isNaN_add_left {x y : Float} (h : x.isNaN = true) :
    (x + y).isNaN = true := by
  rw [isNaN_of_bitsOf (bitsOf_add x y), parts_eq_notANumber h]
  rfl

theorem isNaN_add_right {x y : Float} (h : y.isNaN = true) :
    (x + y).isNaN = true := by
  rw [isNaN_of_bitsOf (bitsOf_add x y), parts_eq_notANumber h]
  cases parts x <;> rfl

theorem isNaN_sub_left {x y : Float} (h : x.isNaN = true) :
    (x - y).isNaN = true := by
  rw [isNaN_of_bitsOf (bitsOf_sub x y), parts_eq_notANumber h]
  rfl

theorem le_iff {x y : Float} :
    x ≤ y ↔ (UnpackedFloat.compare (parts x) (parts y)).any (·.isLE) = true :=
  decide_eq_true_iff

theorem lt_iff {x y : Float} :
    x < y ↔ UnpackedFloat.compare (parts x) (parts y) = some .lt :=
  decide_eq_true_iff.trans beq_iff_eq

/-- Nothing is at most what is not a number. -/
theorem not_le_of_isNaN {x y : Float} (h : y.isNaN = true) : ¬ x ≤ y := by
  rw [le_iff, parts_eq_notANumber h]
  cases parts x <;> exact Bool.false_ne_true

/-! ### Products and quotients -/

/-- The product of finite numbers before it is packed. -/
theorem upTo_mul {a b : ℤ} {x y : Float} (hx : UpTo a (parts x))
    (hy : UpTo b (parts y)) :
    UpTo (max (a + b + 54) minExponent)
      (mul Format.binary64 (parts x) (parts y)) := by
  rcases hx.eq_zero_or_finite with ⟨s, hx'⟩ | ⟨s, m, e, hm, hx', he⟩ <;>
    rcases hy.eq_zero_or_finite with ⟨t, hy'⟩ | ⟨t, n, f, hn, hy', hf⟩ <;>
      rw [hx', hy']
  · trivial
  · trivial
  · trivial
  · -- two mantissas of 53 digits have a product of 106
    have hlog : (m * n).log2 ≤ 105 := by
      apply log2_le_of_lt_two_pow_succ
      calc m * n < 2 ^ 53 * 2 ^ 53 :=
            Nat.mul_lt_mul'' (mantissa_lt_of_parts hx')
              (mantissa_lt_of_parts hy')
        _ = 2 ^ (105 + 1) := by rw [← pow_add]
    refine (upTo_roundWithAccuracy (s * t) (m * n) (e + f) .exact).mono ?_
    omega

theorem isFinite_mul {a b : ℤ} {x y : Float} (hx : UpTo a (parts x))
    (hy : UpTo b (parts y)) (h : a + b + 54 ≤ maxExponent) :
    (x * y).isFinite = true :=
  isFinite_of_upTo (max_le h (by decide)) (bitsOf_mul x y) (upTo_mul hx hy)

/-- The product of finite numbers may be infinite, but it is a number. -/
theorem isNaN_mul_of_isFinite {x y : Float} (hx : x.isFinite = true)
    (hy : y.isFinite = true) :
    (x * y).isNaN = false := by
  rw [isNaN_of_bitsOf (bitsOf_mul x y)]
  exact (upTo_mul (upTo_parts_iff.mpr hx) (upTo_parts_iff.mpr hy)).isNaN

/-- The magnitude is at least two. -/
def IsLarge (y : Float) : Prop :=
  ∃ s m e hm, parts y = .finite s m e hm ∧ 1 ≤ (m.log2 : ℤ) + e

theorem log2_div_le (m n : ℕ) (hn : 0 < n) :
    ((m / n).log2 : ℤ) ≤ max (m.log2 - n.log2) 0 := by
  have hlog : (m / n).log2 ≤ m.log2 - n.log2 := by
    apply log2_le_of_lt_two_pow_succ
    rw [Nat.div_lt_iff_lt_mul hn]
    calc m < 2 ^ (m.log2 + 1) := Nat.lt_log2_self
      _ ≤ 2 ^ (m.log2 - n.log2 + 1 + n.log2) :=
        Nat.pow_le_pow_right two_pos (by omega)
      _ = 2 ^ (m.log2 - n.log2 + 1) * 2 ^ n.log2 := pow_add 2 _ _
      _ ≤ 2 ^ (m.log2 - n.log2 + 1) * n :=
        Nat.mul_le_mul_left _ (Nat.log2_self_le hn.ne')
  omega

theorem log2_shiftLeft (m n : ℕ) (hm : 0 < m) :
    (m <<< n).log2 = m.log2 + n := by
  rw [Nat.shiftLeft_eq, Nat.log2_eq_iff (by positivity)]
  constructor
  · rw [pow_add]
    exact Nat.mul_le_mul_right _ (Nat.log2_self_le hm.ne')
  · rw [add_right_comm, pow_add]
    exact Nat.mul_lt_mul_of_pos_right Nat.lt_log2_self (by positivity)

theorem isFinite_div {x y : Float} (hx : x.isFinite = true) (hy : IsLarge y) :
    (x / y).isFinite = true := by
  obtain ⟨t, n, f, hn, hy', hlarge⟩ := hy
  refine isFinite_of_upTo le_rfl (bitsOf_div x y) ?_
  rcases (upTo_parts_iff.mpr hx).eq_zero_or_finite with ⟨s, hx'⟩ |
      ⟨s, m, e, hm, hx', he⟩ <;>
    rw [hx', hy']
  · trivial
  · have hlog : m.log2 ≤ 52 :=
      log2_le_of_lt_two_pow_succ (mantissa_lt_of_parts hx')
    -- the exponent of the quotient, and the digits that are shifted in
    let target : ℤ :=
      min (e - f) (max (m.log2 + 1 + e - (n.log2 + 1 + f) - 53) (-1074))
    let shift : ℕ := (e - f - target).toNat
    have hquotient := log2_div_le (m <<< shift) n hn
    rw [log2_shiftLeft m shift hm] at hquotient
    refine (upTo_roundWithAccuracy (s / t) (m <<< shift / n) target
      (accuracyOfFraction (m <<< shift % n) n)).mono ?_
    rw [maxExponent] at he ⊢
    rw [minExponent]
    omega

/-! ### Natural numbers -/

theorem upTo_round_natural (s : Sign) {m : ℕ} (hm : 0 < m) (hlt : m < 2 ^ 64) :
    UpTo 12 (UnpackedFloat.round Format.binary64 s m 0) := by
  have hlog : m.log2 ≤ 63 := log2_le_of_lt_two_pow_succ hlt
  let shift : ℕ := (0 - max ((m.log2 : ℤ) + 1 + 0 - 53) (-1074)).toNat
  refine (upTo_roundWithAccuracy s (m <<< shift) (0 - shift) .exact).mono ?_
  rw [log2_shiftLeft m shift hm, minExponent]
  omega

theorem upTo_toFloat (w : UInt64) : UpTo 12 (parts w.toFloat) := by
  have hbits : bitsOf w.toFloat =
      pack Format.binary64
        (UnpackedFloat.normalize Format.binary64 (w.toNat : ℤ) 0 .positive) :=
          rfl
  rw [parts, hbits]
  refine upTo_unpack_pack (by decide) (by decide) ?_
  unfold UnpackedFloat.normalize
  split
  · next hneg =>
    rw [compare_lt_iff_lt] at hneg
    omega
  · trivial
  · next hpos =>
    rw [compare_gt_iff_gt] at hpos
    exact upTo_round_natural _ (by omega) w.toNat_lt

theorem isFinite_ofNat {n : ℕ} (hn : n < 2 ^ 53) :
    (Float.ofNat n).isFinite = true := by
  have hone : UpTo (-52) (parts (1.0 : Float)) := by
    show (-52 : ℤ) ≤ -52
    exact le_rfl
  have hofNat : Float.ofNat n = n.toUInt64.toFloat * 1.0 := by
    show Float.ofScientific n false 0 = _
    unfold Float.ofScientific
    rw [dif_pos ⟨hn, by decide⟩]
    rfl
  rw [hofNat]
  exact isFinite_mul (upTo_toFloat _) hone (by decide)

/-! ### Numbers from bits -/

theorem unpackExponent_toNat (b : BitVec Format.binary64.numBits) :
    (unpackExponent b).toNat = b.toNat / hiddenBit % 2048 := by
  rw [unpackExponent_def, BitVec.extractLsb'_toNat, Nat.shiftRight_eq_div_pow]
  rfl

theorem isFinite_withSign (negative : Bool) {bits : ℕ}
    (h : bits < infinityBits) :
    (withSign negative bits).isFinite = true := by
  let n : ℕ := if negative then signBit + bits else bits
  let b : BitVec Format.binary64.numBits := n.toUInt64.toBitVec
  -- below the bits of infinity the exponent field is not all ones
  have hn : n < 2 ^ 64 ∧ n / hiddenBit % 2048 ≠ 2047 := by
    simp only [n, infinityBits, signBit, hiddenBit] at h ⊢
    split <;> omega
  have hb : b.toNat = n := Nat.mod_eq_of_lt hn.1
  refine isFinite_of_upTo le_rfl (u := unpack Format.binary64 b) rfl
    (upTo_unpack_max ?_)
  rw [unpackExponent_toNat, hb]
  exact hn.2

theorem isFinite_of_nearest {negative : Bool} {num den : ℕ} {x : Float}
    (h : nearest negative num den = some x) : x.isFinite = true := by
  unfold nearest at h
  split at h
  · cases h
    exact isFinite_withSign negative (by decide)
  · obtain ⟨hbits, hx⟩ := Option.ite_none_right_eq_some.mp h
    rw [← Option.some.inj hx]
    exact isFinite_withSign negative hbits

theorem isFinite_round {x : Float} (h : x.isFinite = true) :
    (round x).isFinite = true := by
  unfold round
  split
  · split
    · exact h
    · dsimp only
      rcases hnearest : nearest _ _ _ with _ | y
      · exact h
      · exact isFinite_of_nearest hnearest
  · exact h

/-! ### Reading -/

/-- The powers of ten that are applied when a decimal is read. -/
theorem isLarge_powerOfTen {k : ℕ} (hpos : 0 < k) (hk : k ≤ greatestPower) :
    IsLarge (powerOfTen k) := by
  have hall : ∀ k ∈ List.range' 1 308, (match parts (powerOfTen k) with
      | .finite _ m e _ => decide (1 ≤ (m.log2 : ℤ) + e)
      | _ => false) = true := by
    decide +kernel
  have hlarge :=
    hall k (by rw [List.mem_range'_1]; rw [greatestPower] at hk; omega)
  split at hlarge
  · next s m e hm hparts =>
    exact ⟨s, m, e, hm, hparts, of_decide_eq_true hlarge⟩
  · cases hlarge

theorem isFinite_of_movePoint {x y : Float} {places : ℤ}
    (hx : x.isFinite = true) (h : movePoint x places = some y) :
    y.isFinite = true := by
  fun_induction movePoint x places with
  | case1 => cases h; exact hx
  | case2 => cases h
  | case3 _ _ _ _ _ _ hfinite => rw [← Option.some.inj h]; exact hfinite
  | case4 => cases h
  | case5 x places _ hneg hleast =>
    cases h
    exact isFinite_div hx (isLarge_powerOfTen (by omega) (by omega))
  | case6 x places _ _ _ ih =>
    exact ih (isFinite_div hx (isLarge_powerOfTen (by decide) le_rfl)) h

theorem isFinite_neg {x : Float} (h : x.isFinite = true) :
    (-x).isFinite = true := by
  have hbits : bitsOf (-x) = pack Format.binary64 (neg (parts x)) := rfl
  refine isFinite_of_upTo le_rfl hbits ?_
  rcases (upTo_parts_iff.mpr h).eq_zero_or_finite with ⟨s, hx⟩ |
      ⟨s, m, e, hm, hx, he⟩ <;> rw [hx]
  · trivial
  · exact he

/-- Every decimal is read as a finite number, if as any. -/
theorem isFinite_of_ofDecimal {d : Decimal} {x : Float}
    (h : ofDecimal d = some x) :
    x.isFinite = true := by
  obtain ⟨digits, hdigits, h⟩ := Option.bind_eq_some_iff.mp h
  obtain ⟨y, hy, h⟩ := Option.bind_eq_some_iff.mp h
  have hfinite := isFinite_of_movePoint (isFinite_of_nearest hdigits) hy
  cases h
  split
  · exact isFinite_neg hfinite
  · exact hfinite

end Binary64

end Gimbal
