/-
Gimbal/Proofs/NumeralText.lean

The spelling of numbers, as it is written and as it is checked.

A numeral has a minus sign or none, a whole part without leading zeros, perhaps
a point with digits behind it, and perhaps an exponent.  `isNumeral` finds these
parts by looking for the mark of the exponent and for the point, and accepts
just the texts that are made of them (`isNumeral_iff`).

Natural numbers are written with their digits alone, and these are read as the
number (`digitsValue_digitText`).  A decimal always has a point or an exponent,
so its text is a numeral that is not digits alone (`isNumeral_plainText`).
-/
import Mathlib
import Gimbal.Json.Parser

namespace Gimbal

/-! ### Runs of digits -/

theorem isDigits_iff {cs : List Char} :
    isDigits cs = true ↔ cs ≠ [] ∧ ∀ c ∈ cs, c.isDigit = true := by
  simp [isDigits]

theorem isDigits_eq_false_of_mem {cs : List Char} {c : Char} (hc : c ∈ cs)
    (h : c.isDigit = false) : isDigits cs = false := by
  rw [Bool.eq_false_iff]
  intro hdigits
  rw [(isDigits_iff.mp hdigits).2 c hc] at h
  cases h

theorem isWhole_of_head {c : Char} {cs : List Char} (hc : c ≠ '0') :
    isWhole (c :: cs) = isDigits (c :: cs) := by
  unfold isWhole
  split <;> simp_all

theorem isWhole_singleton {c : Char} (hc : c.isDigit = true) :
    isWhole [c] = true := by
  by_cases h0 : c = '0'
  · subst h0
    rfl
  · rw [isWhole_of_head h0, isDigits_iff]
    simp [hc]

theorem isDigits_of_isWhole {cs : List Char} (h : isWhole cs = true) :
    isDigits cs = true := by
  unfold isWhole at h
  split at h
  · rfl
  · cases h
  · exact h

/-! ### The parts of a numeral -/

/-- A point with digits behind it, or nothing. -/
def IsFraction (cs : List Char) : Prop := cs = [] ∨ ∃ ds, cs = '.' :: ds ∧
      isDigits ds = true

/-- A mark, perhaps a sign, and digits; or nothing. -/
def IsExponent (cs : List Char) : Prop :=
  cs = [] ∨ ∃ m e, cs = m :: e ∧ exponentMark m = true ∧
    isDigits (dropSign e) = true

theorem splitPoint_append {w f : List Char} (hw : ∀ c ∈ w, c.isDigit = true)
    (hf : IsFraction f) :
    splitPoint (w ++ f) = (w, f.tail?) := by
  have hplain : ∀ c ∈ w, decide (c ≠ '.') = true := by
    intro c hc
    have hdigit := hw c hc
    rw [decide_eq_true_eq]
    rintro rfl
    cases hdigit
  rw [splitPoint, List.takeWhile_append_of_pos hplain,
    List.dropWhile_append_of_pos hplain]
  rcases hf with rfl | ⟨ds, rfl, -⟩ <;> simp

theorem splitExponent_append {m e : List Char}
    (hm : ∀ c ∈ m, exponentMark c = false) (he : IsExponent e) :
    splitExponent (m ++ e) = (m, e.tail?) := by
  have hplain : ∀ c ∈ m, (!exponentMark c) = true := by
    intro c hc
    rw [hm c hc]
    rfl
  rw [splitExponent, List.takeWhile_append_of_pos hplain,
    List.dropWhile_append_of_pos hplain]
  rcases he with rfl | ⟨mark, ds, rfl, hmark, -⟩ <;> simp_all

/-- The parts that `splitPoint` finds make up the text again. -/
theorem exists_fraction_of_splitPoint {cs w : List Char}
    {f : Option (List Char)} (h : splitPoint cs = (w, f))
    (hf : f.all isDigits = true) :
    ∃ fraction, cs = w ++ fraction ∧ IsFraction fraction := by
  have hcut : cs = cs.takeWhile (· ≠ '.') ++ cs.dropWhile (· ≠ '.') :=
    List.takeWhile_append_dropWhile.symm
  rw [splitPoint] at h
  split at h
  case h_1 hrest =>
    cases h
    rw [hrest] at hcut
    exact ⟨[], hcut, .inl rfl⟩
  case h_2 c ds hrest =>
    cases h
    -- what stopped the reading is the point
    have hc := List.head?_dropWhile_not (· ≠ '.') cs
    rw [hrest] at hc
    obtain rfl : c = '.' := by simpa using hc
    rw [hrest] at hcut
    exact ⟨'.' :: ds, hcut, .inr ⟨ds, rfl, hf⟩⟩

/-- The parts that `splitExponent` finds make up the text again. -/
theorem exists_exponent_of_splitExponent {cs m : List Char}
    {e : Option (List Char)} (h : splitExponent cs = (m, e))
    (he : (e.all fun e => isDigits (dropSign e)) = true) :
    ∃ exponent, cs = m ++ exponent ∧ IsExponent exponent := by
  have hcut :
      cs = cs.takeWhile (!exponentMark ·) ++ cs.dropWhile (!exponentMark ·) :=
    List.takeWhile_append_dropWhile.symm
  rw [splitExponent] at h
  split at h
  case h_1 hrest =>
    cases h
    rw [hrest] at hcut
    exact ⟨[], hcut, .inl rfl⟩
  case h_2 c ds hrest =>
    cases h
    have hc := List.head?_dropWhile_not (!exponentMark ·) cs
    rw [hrest] at hcut hc
    exact ⟨c :: ds, hcut, .inr ⟨c, ds, rfl, by simpa using hc, he⟩⟩

/-! ### Numerals -/

theorem exponentMark_of_isDigit {c : Char} (h : c.isDigit = true) :
    exponentMark c = false := by
  rw [exponentMark, Bool.or_eq_false_iff]
  constructor <;> rw [decide_eq_false_iff_not] <;> rintro rfl <;> cases h

theorem splitMinus_cons {c : Char} (hc : c ≠ '-') (cs : List Char) :
    splitMinus (c :: cs) = (false, c :: cs) := by
  unfold splitMinus
  split <;> simp_all

/-- What is spelled without a sign starts with a digit. -/
theorem exists_digit_of_isWhole {w : List Char} (h : isWhole w = true) :
    ∃ c cs, w = c :: cs ∧ c.isDigit = true := by
  obtain ⟨hne, hall⟩ := isDigits_iff.mp (isDigits_of_isWhole h)
  obtain ⟨c, cs, rfl⟩ := List.exists_cons_of_ne_nil hne
  exact ⟨c, cs, rfl, hall c (by simp)⟩

theorem isNumeral_unsigned {w f e : List Char} (hw : isWhole w = true)
    (hf : IsFraction f) (he : IsExponent e) :
    (let (mantissa, e) := splitExponent (w ++ f ++ e)
    let (whole, fraction) := splitPoint mantissa
    isWhole whole && fraction.all isDigits && e.all fun e =>
      isDigits (dropSign e)) = true := by
  have hdigits := (isDigits_iff.mp (isDigits_of_isWhole hw)).2
  -- the first mark of an exponent is the one in `e`, and the first point the
  -- one in `f`
  have hmark : ∀ c ∈ w ++ f, exponentMark c = false := by
    intro c hc
    rcases List.mem_append.mp hc with hc | hc
    · exact exponentMark_of_isDigit (hdigits c hc)
    · rcases hf with rfl | ⟨ds, rfl, hds⟩
      · cases hc
      · rcases List.mem_cons.mp hc with rfl | hc
        · rfl
        · exact exponentMark_of_isDigit ((isDigits_iff.mp hds).2 c hc)
  rw [splitExponent_append hmark he]
  dsimp only
  rw [splitPoint_append hdigits hf]
  rcases hf with rfl | ⟨ds, rfl, hds⟩ <;>
    rcases he with rfl | ⟨m, e, rfl, -, he⟩ <;> simp [*]

/-- A numeral is made of a sign, a whole part, a fraction and an exponent. -/
theorem isNumeral_iff {cs : List Char} :
    isNumeral cs = true ↔ ∃ s w f e, cs = s ++ (w ++ f ++ e) ∧
      (s = [] ∨ s = ['-']) ∧
      isWhole w = true ∧ IsFraction f ∧ IsExponent e := by
  constructor
  · intro h
    obtain ⟨s, hs, hcs⟩ : ∃ s, (s = [] ∨ s = ['-']) ∧
        cs = s ++ (splitMinus cs).2 := by
      unfold splitMinus
      split
      · exact ⟨['-'], .inr rfl, rfl⟩
      · exact ⟨[], .inl rfl, rfl⟩
    -- the parts that were split off make up the text again
    rcases hm : splitExponent (splitMinus cs).2 with ⟨mantissa, e⟩
    rcases hw : splitPoint mantissa with ⟨w, f⟩
    simp only [isNumeral, hm, hw, Bool.and_eq_true] at h
    obtain ⟨fraction, rfl, hf⟩ := exists_fraction_of_splitPoint hw h.1.2
    obtain ⟨exponent, hrest, he⟩ := exists_exponent_of_splitExponent hm h.2
    exact ⟨s, w, fraction, exponent, hrest ▸ hcs, hs, h.1.1, hf, he⟩
  · rintro ⟨s, w, f, e, rfl, hs, hw, hf, he⟩
    -- a minus is split off where there is one, and a digit is none
    have hsign : (splitMinus (s ++ (w ++ f ++ e))).2 = w ++ f ++ e := by
      rcases hs with rfl | rfl
      · obtain ⟨c, cs, rfl, hc⟩ := exists_digit_of_isWhole hw
        have hminus : c ≠ '-' := by
          rintro rfl
          cases hc
        simp only [List.nil_append, List.cons_append, splitMinus_cons hminus]
      · rfl
    rw [isNumeral, hsign]
    exact isNumeral_unsigned hw hf he

theorem numeralChar_of_isDigit {c : Char} (h : c.isDigit = true) :
    numeralChar c = true := by
  simp [numeralChar, h]

theorem IsFraction.numeralChar {f : List Char} (hf : IsFraction f) :
    ∀ c ∈ f, numeralChar c = true := by
  intro c hc
  rcases hf with rfl | ⟨ds, rfl, hds⟩
  · cases hc
  · rcases List.mem_cons.mp hc with rfl | hc
    · rfl
    · exact numeralChar_of_isDigit ((isDigits_iff.mp hds).2 c hc)

theorem mem_dropSign {c : Char} {e : List Char} (hc : c ∈ e) :
    c = '-' ∨ c = '+' ∨ c ∈ dropSign e := by
  unfold dropSign
  split
  · rcases List.mem_cons.mp hc with rfl | hc
    · exact .inl rfl
    · exact .inr (.inr hc)
  · rcases List.mem_cons.mp hc with rfl | hc
    · exact .inr (.inl rfl)
    · exact .inr (.inr hc)
  · exact .inr (.inr hc)

theorem IsExponent.numeralChar {e : List Char} (he : IsExponent e) :
    ∀ c ∈ e, numeralChar c = true := by
  intro c hc
  rcases he with rfl | ⟨m, ds, rfl, hm, hds⟩
  · cases hc
  · rcases List.mem_cons.mp hc with rfl | hc
    · rw [exponentMark, Bool.or_eq_true] at hm
      rcases hm with hm | hm <;> rw [of_decide_eq_true hm] <;> rfl
    · rcases mem_dropSign hc with rfl | rfl | hc
      · rfl
      · rfl
      · exact numeralChar_of_isDigit ((isDigits_iff.mp hds).2 c hc)

/-- A numeral starts with a digit or a minus sign, and only characters of
numerals stand in it. -/
theorem exists_cons_of_isNumeral {cs : List Char} (h : isNumeral cs = true) :
    (∃ c rest, cs = c :: rest ∧ (c.isDigit || c = '-') = true) ∧
      ∀ c ∈ cs, numeralChar c = true := by
  obtain ⟨s, w, f, e, rfl, hs, hw, hf, he⟩ := isNumeral_iff.mp h
  constructor
  · obtain ⟨d, ds, rfl, hd⟩ := exists_digit_of_isWhole hw
    rcases hs with rfl | rfl
    · exact ⟨d, ds ++ f ++ e, rfl, by simp [hd]⟩
    · exact ⟨'-', d :: ds ++ f ++ e, rfl, rfl⟩
  · intro c hc
    simp only [List.mem_append] at hc
    rcases hc with hc | (hc | hc) | hc
    · rcases hs with rfl | rfl
      · cases hc
      · rw [List.mem_singleton.mp hc]
        rfl
    · exact numeralChar_of_isDigit
        ((isDigits_iff.mp (isDigits_of_isWhole hw)).2 c hc)
    · exact hf.numeralChar c hc
    · exact he.numeralChar c hc

/-! ### Natural numbers -/

theorem isDigits_digitText (n : Nat) : isDigits (digitText n) = true :=
  isDigits_iff.mpr ⟨Nat.toDigits_ne_nil, fun _ hc =>
    Nat.isDigit_of_mem_toDigits (by decide) (by decide) hc⟩

/-- No zero stands before the digits of a positive number. -/
theorem exists_digitText_eq_cons {n : Nat} (hn : 0 < n) :
    ∃ c cs, digitText n = c :: cs ∧ c ≠ '0' := by
  -- induction on the number, a last digit at a time
  induction n using Nat.strongRecOn with
  | ind n ih =>
    by_cases hlt : n < 10
    · refine ⟨n.digitChar, [], Nat.toDigits_of_lt_base hlt, ?_⟩
      interval_cases n <;> decide
    · have hle : 10 ≤ n := Nat.le_of_not_lt hlt
      obtain ⟨c, cs, hcs, hc⟩ := ih (n / 10) (Nat.div_lt_self hn (by decide))
        (Nat.div_pos hle (by decide))
      refine ⟨c, cs ++ [(n % 10).digitChar], ?_, hc⟩
      rw [digitText, Nat.toDigits_of_base_le (by decide) hle, ← digitText, hcs]
      rfl

theorem isWhole_digitText (n : Nat) : isWhole (digitText n) = true := by
  rcases Nat.eq_zero_or_pos n with rfl | hn
  · rfl
  · obtain ⟨c, cs, hcs, hc⟩ := exists_digitText_eq_cons hn
    have hdigits := isDigits_digitText n
    rw [hcs] at hdigits ⊢
    rw [isWhole_of_head hc, hdigits]

theorem isNumeral_digitText (n : Nat) : isNumeral (digitText n) = true :=
  isNumeral_iff.mpr ⟨[], digitText n, [],
    [], by simp, .inl rfl, isWhole_digitText n, .inl rfl, .inl rfl⟩

theorem digitsValue_digitText (n : Nat) : Json.digitsValue (digitText n) = n :=
  Nat.ofDigitChars_ten_toDigits

theorem Json.count?_natural {n : Nat} (hn : n < wordBound) :
    (Json.natural n).count? = some n := by
  simp [Json.natural, Json.count?, isDigits_digitText,
    digitsValue_digitText, hn]

/-! ### Decimals -/

/-- A whole part, a fraction and an exponent, of which the last two are not both
left out. -/
def IsMarked (cs : List Char) : Prop :=
  ∃ w f e, cs = w ++ f ++ e ∧ isWhole w = true ∧ IsFraction f ∧ IsExponent e ∧
    (f ≠ [] ∨ e ≠ [])

/-- What is marked is a numeral, with a sign or without, and not digits
alone. -/
theorem IsMarked.isNumeral {cs : List Char} (h : IsMarked cs) {s : List Char}
    (hs : s = [] ∨ s = ['-']) : isNumeral (s ++ cs) = true ∧
      isDigits (s ++ cs) = false := by
  obtain ⟨w, f, e, rfl, hw, hf, he, hmark⟩ := h
  refine ⟨isNumeral_iff.mpr ⟨s, w, f, e, rfl, hs, hw, hf, he⟩, ?_⟩
  -- neither the point nor the mark of an exponent is a digit
  rcases hmark with hne | hne
  · obtain rfl | ⟨ds, rfl, -⟩ := hf
    · exact absurd rfl hne
    · exact isDigits_eq_false_of_mem (c := '.') (by simp) rfl
  · obtain rfl | ⟨m, es, rfl, hm, -⟩ := he
    · exact absurd rfl hne
    · refine isDigits_eq_false_of_mem (c := m) (by simp) ?_
      rw [Bool.eq_false_iff]
      intro hdigit
      rw [exponentMark_of_isDigit hdigit] at hm
      cases hm

theorem isExponent_exponentText (e : Int) :
    IsExponent (Decimal.exponentText e) := by
  refine .inr ⟨'e', _, rfl, rfl, ?_⟩
  split <;> exact isDigits_digitText _

/-- One digit before the point, the others behind it, and an exponent. -/
theorem isMarked_scientific {c : Char} {cs : List Char}
    (h : ∀ d ∈ c :: cs, d.isDigit = true) (lead : Int) :
    IsMarked ([c] ++ (if (c :: cs).length ≤ 1 then [] else '.' :: cs) ++
      Decimal.exponentText lead) := by
  refine ⟨[c], _, Decimal.exponentText lead, rfl,
    isWhole_singleton (h c List.mem_cons_self), ?_,
    isExponent_exponentText lead, .inr (by simp [Decimal.exponentText])⟩
  split
  · exact .inl rfl
  · next hlong =>
    refine .inr
      ⟨cs, rfl,
        isDigits_iff.mpr ⟨?_, fun d hd => h d (List.mem_cons_of_mem c hd)⟩⟩
    rintro rfl
    exact hlong (Nat.le_refl 1)

/-- All digits behind the point, after as many zeros as are needed. -/
theorem isMarked_small {ds : List Char} (hds : isDigits ds = true)
    (zeros : Nat) :
    IsMarked ('0' :: '.' :: (List.replicate zeros '0' ++ ds)) := by
  obtain ⟨hne, hall⟩ := isDigits_iff.mp hds
  refine ⟨['0'], '.' :: (List.replicate zeros '0' ++ ds), [], by simp, rfl,
    .inr ⟨_, rfl, isDigits_iff.mpr ⟨by simp [hne], ?_⟩⟩, .inl rfl,
    .inl (by simp)⟩
  intro d hd
  rcases List.mem_append.mp hd with hd | hd
  · rw [List.eq_of_mem_replicate hd]
    rfl
  · exact hall d hd

/-- The point after the first `k + 1` digits.  A zero may stand in front only if
the point follows it. -/
theorem isMarked_withPoint {c : Char} {cs : List Char}
    (h : ∀ d ∈ c :: cs, d.isDigit = true) {k : Nat}
    (hzero : c = '0' → cs = [] ∧ k = 0) :
    IsMarked (Decimal.withPoint (c :: cs) (k + 1)) := by
  let whole : List Char :=
    c :: (cs.take k ++ List.replicate (k + 1 - (c :: cs).length) '0')
  let rest : List Char := (c :: cs).drop (k + 1)
  have hwhole : isWhole whole = true := by
    by_cases h0 : c = '0'
    · obtain ⟨rfl, rfl⟩ := hzero h0
      subst h0
      rfl
    · rw [isWhole_of_head h0, isDigits_iff]
      refine ⟨by simp, fun d hd => ?_⟩
      rcases List.mem_cons.mp hd with rfl | hd
      · exact h d List.mem_cons_self
      · rcases List.mem_append.mp hd with hd | hd
        · exact h d (List.mem_cons_of_mem c (List.mem_of_mem_take hd))
        · rw [List.eq_of_mem_replicate hd]
          rfl
  have hrest : isDigits (if rest.isEmpty then ['0'] else rest) = true := by
    split
    · rfl
    · next hne =>
      exact isDigits_iff.mpr
        ⟨by simpa using hne, fun d hd => h d (List.mem_of_mem_drop hd)⟩
  exact ⟨whole, '.' :: (if rest.isEmpty then ['0'] else rest), [],
    by simp [Decimal.withPoint, whole, rest], hwhole, .inr ⟨_, rfl, hrest⟩,
    .inl rfl, .inl (by simp)⟩

/-- In every layout a magnitude has a point or an exponent. -/
theorem isMarked_magnitudeText {ds : List Char} (lead : Int)
    (hds : isDigits ds = true)
    (hzero : ds.head? = some '0' → ds = ['0'] ∧ lead = 0) :
    IsMarked (Decimal.magnitudeText ds lead) := by
  obtain ⟨hne, hall⟩ := isDigits_iff.mp hds
  obtain ⟨c, cs, rfl⟩ := List.exists_cons_of_ne_nil hne
  rw [Decimal.magnitudeText]
  split
  · exact isMarked_scientific hall lead
  · split
    · exact isMarked_small hds _
    · refine isMarked_withPoint hall fun hc => ?_
      obtain ⟨hone, rfl⟩ := hzero (by simp [hc])
      exact ⟨(List.cons.inj hone).2, rfl⟩

/-- The text of a decimal is a numeral that is not digits alone. -/
theorem isNumeral_plainText (d : Decimal) :
    isNumeral d.plainText = true ∧ isDigits d.plainText = false := by
  let lead : Int :=
    if d.digits = 0 then 0 else d.exponent + (digitText d.digits).length - 1
  have hzero : (digitText d.digits).head? = some '0' →
      digitText d.digits = ['0'] ∧ lead = 0 := by
    intro hhead
    rcases Nat.eq_zero_or_pos d.digits with h0 | hpos
    · exact ⟨by rw [h0]; rfl, if_pos h0⟩
    · obtain ⟨c, cs, hcs, hc⟩ := exists_digitText_eq_cons hpos
      rw [hcs] at hhead
      exact absurd (by simpa using hhead) hc
  refine (isMarked_magnitudeText lead (isDigits_digitText d.digits)
    hzero).isNumeral
    (s := if d.negative then ['-'] else []) ?_
  split
  · exact .inr rfl
  · exact .inl rfl

/-- An angle is never spelled like a count. -/
theorem Json.count?_decimal (d : Option Decimal) :
    (Json.decimal d).count? = none := by
  cases d with
  | none => rfl
  | some d => simp [Json.decimal, Json.count?, (isNumeral_plainText d).2]

end Gimbal
