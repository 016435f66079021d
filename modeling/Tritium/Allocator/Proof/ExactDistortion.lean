import Tritium.Allocator.ExactDistortion

/-!
# The accumulator is exact

Every operation on the limbs is the integer operation on the number of units they stand for, and
the sort key of reductions is their exact order: rounding is monotone, so unequal rounded
differences are ordered as the exact ones, and equal ones are settled by the limbs.
-/

namespace Tritium.Allocator

namespace ExactDistortion

variable {value : F64} {exact sum : ExactDistortion} (bits : UInt64) (self rhs : ExactDistortion)

/-- The number of units of `2 ^ -1074` accumulated. -/
def toNat (self : ExactDistortion) : Nat := Limbs.value self.limbs

def capacity : Nat := Limbs.radix ^ exactDistortionLimbs

theorem toNat_lt (self : ExactDistortion) : self.toNat < capacity := by
  have h := Limbs.value_lt self.limbs
  rwa [self.length_eq] at h

theorem toNat_injective : Function.Injective toNat := by
  intro left right hvalue
  have hlimbs := Limbs.eq_of_value_eq (left.length_eq.trans right.length_eq.symm) hvalue
  cases left
  cases right
  simpa using hlimbs

@[simp]
theorem zero_toNat : zero.toNat = 0 := Limbs.value_replicate_zero _

theorem checkedAddAssign_toNat :
    (self.checkedAddAssign rhs).1.toNat + capacity * (!(self.checkedAddAssign rhs).2).toNat =
      self.toNat + rhs.toNat := by
  have h := Limbs.addCarry_value false (self.length_eq.trans rhs.length_eq.symm)
  rw [self.length_eq] at h
  simpa [checkedAddAssign, toNat, capacity] using h

theorem checkedAdd_eq_some_iff {self rhs : ExactDistortion} :
    self.checkedAdd rhs = some sum ↔ sum.toNat = self.toNat + rhs.toNat := by
  have hvalue := checkedAddAssign_toNat self rhs
  have hlt := toNat_lt sum
  rw [checkedAdd]
  cases hfits : (self.checkedAddAssign rhs).2 with
  | true =>
    simp only [hfits, Bool.not_true, Bool.toNat_false, mul_zero, add_zero] at hvalue
    simp only [↓reduceIte, Option.some.injEq]
    constructor
    · intro heq
      rw [← heq, hvalue]
    · intro heq
      exact toNat_injective (hvalue.trans heq.symm)
  | false =>
    simp only [hfits, Bool.not_false, Bool.toNat_true, mul_one] at hvalue
    simp only [Bool.false_eq_true, ↓reduceIte, reduceCtorEq, false_iff]
    omega

theorem exists_checkedAdd {self rhs : ExactDistortion} (hlt : self.toNat + rhs.toNat < capacity) :
    ∃ sum, self.checkedAdd rhs = some sum := by
  have hvalue := checkedAddAssign_toNat self rhs
  refine ⟨(self.checkedAddAssign rhs).1, checkedAdd_eq_some_iff.mpr ?_⟩
  cases hfits : (self.checkedAddAssign rhs).2 with
  | true => simpa [hfits] using hvalue
  | false =>
    simp only [hfits, Bool.not_false, Bool.toNat_true, mul_one] at hvalue
    omega

theorem cmp_eq (self other : ExactDistortion) : self.cmp other = compare self.toNat other.toNat :=
  Limbs.compareLex_reverse_eq (self.length_eq.trans other.length_eq.symm)

theorem checkedSub_eq_some_iff {self rhs difference : ExactDistortion} :
    self.checkedSub rhs = some difference ↔ difference.toNat + rhs.toNat = self.toNat := by
  have hcmp : self.cmp rhs = .lt ↔ self.toNat < rhs.toNat := by
    rw [cmp_eq, compare_lt_iff_lt]
  rw [checkedSub]
  by_cases hless : self.toNat < rhs.toNat
  · rw [if_pos (hcmp.mpr hless)]
    simp only [reduceCtorEq, false_iff]
    omega
  · rw [if_neg (fun h => hless (hcmp.mp h)), Option.some.injEq]
    have hvalue := Limbs.subBorrow_value false (self.length_eq.trans rhs.length_eq.symm)
    have hbound := Limbs.value_lt (Limbs.subBorrow self.limbs rhs.limbs false).1
    rw [Limbs.subBorrow_length, self.length_eq] at hbound
    rw [self.length_eq] at hvalue
    change _ + rhs.toNat + 0 = self.toNat + _ at hvalue
    -- a borrow out of the last limb would need the minuend to be the smaller one
    have hnoBorrow : (Limbs.subBorrow self.limbs rhs.limbs false).2 = false := by
      by_contra hborrow
      rw [Bool.not_eq_false] at hborrow
      rw [hborrow, Bool.toNat_true] at hvalue
      omega
    rw [hnoBorrow, Bool.toNat_false] at hvalue
    constructor
    · rintro rfl
      exact hvalue
    · intro heq
      apply toNat_injective
      change Limbs.value (Limbs.subBorrow self.limbs rhs.limbs false).1 = _
      omega

theorem exists_checkedSub (hle : rhs.toNat ≤ self.toNat) :
    ∃ difference, self.checkedSub rhs = some difference := by
  have hcmp : self.cmp rhs ≠ .lt := by
    rw [cmp_eq, Ne, compare_lt_iff_lt]
    omega
  exact ⟨_, by rw [checkedSub, if_neg hcmp]⟩

theorem checkedAddWord_toNat (self : ExactDistortion) (limb : Nat) (word : UInt64)
    (hlimb : limb < exactDistortionLimbs)
    (hlt : self.toNat + word.toNat * Limbs.radix ^ limb < capacity) :
    (self.checkedAddWord limb word).2 = true ∧ (self.checkedAddWord limb word).1.toNat =
        self.toNat + word.toNat * Limbs.radix ^ limb := by
  rw [checkedAddWord]
  by_cases hzero : word = 0
  · simp [hzero]
  · have hlength := self.length_eq
    have hvalue := Limbs.addWord_value self.limbs limb word (by omega) (by omega)
    have hinside : ¬ self.limbs.length ≤ limb := by omega
    rw [hlength] at hvalue
    change _ + capacity * _ = self.toNat + _ at hvalue
    simp only [hzero, ↓reduceIte, hinside]
    cases hfits : (Limbs.addWord self.limbs limb word).2 with
    | true =>
      rw [hfits] at hvalue
      exact ⟨rfl, hvalue⟩
    | false =>
      rw [hfits, Bool.not_false, Bool.toNat_true] at hvalue
      omega

/-- A word shifted across a limb boundary splits into a low and a high part. -/
theorem shift_split (value : UInt64) {offset : Nat} (hpos : 0 < offset) (hoffset : offset < 64) :
    (value <<< UInt64.ofNat offset).toNat
        + Limbs.radix * (value >>> UInt64.ofNat (64 - offset)).toNat =
      value.toNat * 2 ^ offset := by
  have hleft : (UInt64.ofNat offset).toNat % 64 = offset := by
    rw [UInt64.toNat_ofNat_of_lt' (by simp [UInt64.size]; omega), Nat.mod_eq_of_lt hoffset]
  have hright : (UInt64.ofNat (64 - offset)).toNat % 64 = 64 - offset := by
    rw [UInt64.toNat_ofNat_of_lt' (by simp [UInt64.size]; omega), Nat.mod_eq_of_lt (by omega)]
  rw [UInt64.toNat_shiftLeft, UInt64.toNat_shiftRight, hleft, hright, Nat.shiftLeft_eq,
    Nat.shiftRight_eq_div_pow]
  have hpow : 2 ^ 64 = 2 ^ (64 - offset) * 2 ^ offset := by
    rw [← pow_add]
    congr 1
    omega
  have hdiv : value.toNat / 2 ^ (64 - offset) = value.toNat * 2 ^ offset / 2 ^ 64 := by
    rw [hpow, Nat.mul_div_mul_right _ _ (Nat.two_pow_pos offset)]
  rw [hdiv]
  exact Nat.mod_add_div _ _

theorem checkedAddShifted_zero_toNat (value : UInt64) (shift : Nat)
    (hshift : shift < 64 * (exactDistortionLimbs - 1))
    (hlt : value.toNat * 2 ^ shift < capacity) :
    (zero.checkedAddShifted value shift).2 = true ∧
      (zero.checkedAddShifted value shift).1.toNat = value.toNat * 2 ^ shift := by
  rw [checkedAddShifted]
  by_cases hzero : value = 0
  · simp [hzero]
  · have hlimb : shift / 64 < exactDistortionLimbs := by omega
    have hinside : ¬ zero.limbs.length ≤ shift / 64 := by
      rw [zero.length_eq]
      omega
    have hpow : 2 ^ shift = Limbs.radix ^ (shift / 64) * 2 ^ (shift % 64) := by
      rw [Limbs.radix, ← pow_mul, ← pow_add]
      congr 1
      omega
    simp only [hzero, ↓reduceIte, hinside]
    by_cases hoffset : shift % 64 = 0
    · have hword : (value <<< UInt64.ofNat (shift % 64)) = value := by
        rw [hoffset]
        simp
      rw [hword]
      rw [hpow, hoffset] at hlt
      obtain ⟨hfits, hvalue⟩ := checkedAddWord_toNat zero (shift / 64) value hlimb (by simpa using hlt)
      rw [hfits, hpow, hoffset]
      simpa using hvalue
    · have hsplit := shift_split value (Nat.pos_of_ne_zero hoffset)
        (Nat.mod_lt shift (by decide))
      have htotal : (value <<< UInt64.ofNat (shift % 64)).toNat * Limbs.radix ^ (shift / 64)
          + (value >>> UInt64.ofNat (64 - shift % 64)).toNat * Limbs.radix ^ (shift / 64 + 1) =
          value.toNat * 2 ^ shift := by
        rw [hpow]
        linear_combination Limbs.radix ^ (shift / 64) * hsplit
      obtain ⟨hfits, hvalue⟩ := checkedAddWord_toNat zero (shift / 64)
        (value <<< UInt64.ofNat (shift % 64)) hlimb (by
          rw [zero_toNat]
          omega)
      rw [zero_toNat, zero_add] at hvalue
      obtain ⟨hfits', hvalue'⟩ := checkedAddWord_toNat
        (zero.checkedAddWord (shift / 64) (value <<< UInt64.ofNat (shift % 64))).1
        (shift / 64 + 1) (value >>> UInt64.ofNat (64 - shift % 64)) (by omega) (by
          omega)
      rw [hfits]
      simp only [Bool.not_true, Bool.false_eq_true, ↓reduceIte, hoffset]
      refine ⟨hfits', ?_⟩
      rw [hvalue', hvalue, htotal]

theorem toNat_shiftRight_52 (hbits : bits.toNat < 2 ^ 63) :
    ((bits >>> 52) &&& 0x7ff).toNat = bits.toNat / 2 ^ 52 := by
  change (bits.toNat >>> 52) &&& (2 ^ 11 - 1) = _
  rw [Nat.and_two_pow_sub_one_eq_mod]
  omega

theorem toNat_fraction :
    (bits &&& (((1 : UInt64) <<< 52) - 1)).toNat = bits.toNat % 2 ^ 52 := by
  change bits.toNat &&& (2 ^ 52 - 1) = _
  rw [Nat.and_two_pow_sub_one_eq_mod]

theorem toNat_significand :
    (((1 : UInt64) <<< 52) ||| (bits &&& (((1 : UInt64) <<< 52) - 1))).toNat =
      2 ^ 52 + bits.toNat % 2 ^ 52 := by
  rw [UInt64.toNat_or, toNat_fraction]
  have h := Nat.two_pow_add_eq_or_of_lt (Nat.mod_lt bits.toNat (Nat.two_pow_pos 52)) 1
  simpa using h.symm

/-- The shift never reaches the last limb, and the value stays below `2 ^ 2098`. -/
theorem significand_bound {significand shift : Nat} (hsignificand : significand < 2 ^ 53)
    (hshift : shift ≤ 2045) : significand * 2 ^ shift < capacity := by
  calc
    significand * 2 ^ shift < 2 ^ 53 * 2 ^ shift :=
      Nat.mul_lt_mul_of_pos_right hsignificand (Nat.two_pow_pos shift)
    _ = 2 ^ (53 + shift) := (pow_add 2 53 shift).symm
    _ ≤ 2 ^ (64 * exactDistortionLimbs) := by
      apply Nat.pow_le_pow_right (by decide)
      have hlimbs : exactDistortionLimbs = 34 := by decide
      omega
    _ = capacity := by rw [capacity, Limbs.radix, ← pow_mul]

theorem fromF64_of_isNonneg (hvalue : value.IsNonneg) :
    ∃ exact, fromF64 value = some exact ∧ exact.toNat = value.units := by
  have hlimbs : exactDistortionLimbs = 34 := by decide
  rw [fromF64, hvalue.1, F64.lt_zero_eq_false hvalue]
  simp only [Bool.not_true, Bool.or_self, Bool.false_eq_true, ↓reduceIte]
  by_cases hzero : F64.eq value F64.zero = true
  · refine ⟨zero, by rw [if_pos hzero], ?_⟩
    rw [zero_toNat, (F64.eq_zero_eq_true_iff hvalue).mp hzero]
  · have hne : value.units ≠ 0 := fun h => hzero ((F64.eq_zero_eq_true_iff hvalue).mpr h)
    have hbits := F64.toNat_toBits_eq_magnitude (F64.signBit_eq_false hvalue hne)
    have hmagnitude : value.magnitude < F64.infinityMagnitude := by
      simpa [F64.isFinite] using hvalue.1
    have hinfinity : F64.infinityMagnitude = 0x7ff * 2 ^ 52 := rfl
    have hsign : ¬ (value.toBits >>> 63 ≠ 0) := by
      rw [not_not, ← UInt64.toNat_inj]
      change value.toBits.toNat >>> 63 = 0
      omega
    have hexponent := toNat_shiftRight_52 value.toBits (by omega)
    rw [if_neg hzero, if_neg hsign]
    by_cases hraw : (value.toBits >>> 52) &&& 0x7ff = 0
    · have hraw' : value.magnitude / 2 ^ 52 = 0 := by
        rw [← hbits, ← hexponent, hraw]
        rfl
      simp only [if_pos hraw]
      obtain ⟨hfits, hsum⟩ := checkedAddShifted_zero_toNat
        (value.toBits &&& (((1 : UInt64) <<< 52) - 1)) 0 (by omega) (by
          rw [toNat_fraction]
          exact significand_bound (by omega) (by omega))
      refine ⟨_, by rw [hfits, if_pos rfl], ?_⟩
      rw [hsum, toNat_fraction, hbits, F64.units, F64.unitsOfMagnitude, if_pos hraw', pow_zero,
        mul_one]
    · have hraw' : value.magnitude / 2 ^ 52 ≠ 0 := by
        rw [← hbits, ← hexponent]
        exact fun h => hraw (UInt64.toNat_inj.mp h)
      simp only [if_neg hraw]
      obtain ⟨hfits, hsum⟩ := checkedAddShifted_zero_toNat
        (((1 : UInt64) <<< 52) ||| (value.toBits &&& (((1 : UInt64) <<< 52) - 1)))
        (((value.toBits >>> 52) &&& 0x7ff).toNat - 1) (by omega) (by
          rw [toNat_significand]
          exact significand_bound (by omega) (by omega))
      refine ⟨_, by rw [hfits, if_pos rfl], ?_⟩
      rw [hsum, toNat_significand, hexponent, hbits, F64.units, F64.unitsOfMagnitude, if_neg hraw']

theorem isNonneg_of_fromF64 (h : fromF64 value = some exact) : value.IsNonneg := by
  rw [fromF64] at h
  split at h
  · exact absurd h (by simp)
  · rename_i hvalid
    simp only [Bool.or_eq_true, Bool.not_eq_true', not_or, Bool.not_eq_false,
      Bool.not_eq_true] at hvalid
    exact F64.isNonneg_of_lt_zero_eq_false hvalid.1 hvalid.2

theorem fromF64_eq_some_iff :
    fromF64 value = some exact ↔ value.IsNonneg ∧ exact.toNat = value.units := by
  constructor
  · intro h
    have hvalue := isNonneg_of_fromF64 h
    obtain ⟨exact', hexact', hunits⟩ := fromF64_of_isNonneg hvalue
    rw [h, Option.some.injEq] at hexact'
    exact ⟨hvalue, hexact' ▸ hunits⟩
  · rintro ⟨hvalue, hunits⟩
    obtain ⟨exact', hexact', hunits'⟩ := fromF64_of_isNonneg hvalue
    rw [hexact', toNat_injective (hunits'.trans hunits.symm)]

theorem checkedAddF64_eq_some_iff {self : ExactDistortion} :
    self.checkedAddF64 value = some sum ↔
      value.IsNonneg ∧ sum.toNat = self.toNat + value.units := by
  rw [checkedAddF64, Option.bind_eq_some_iff]
  constructor
  · rintro ⟨exact, hexact, hsum⟩
    obtain ⟨hvalue, hunits⟩ := fromF64_eq_some_iff.mp hexact
    exact ⟨hvalue, hunits ▸ checkedAdd_eq_some_iff.mp hsum⟩
  · rintro ⟨hvalue, hsum⟩
    obtain ⟨exact, hexact, hunits⟩ := fromF64_of_isNonneg hvalue
    exact ⟨exact, hexact, checkedAdd_eq_some_iff.mpr (hunits ▸ hsum)⟩

end ExactDistortion

namespace ExactReduction

theorem isNonneg_of_signBit {bits : UInt64} (hfinite : (F64.mk bits).isFinite = true)
    (hsign : (F64.mk bits).signBit = false) : (F64.mk bits).IsNonneg := by
  refine ⟨hfinite, ?_⟩
  rw [F64.le, F64.not_isNaN_of_isFinite hfinite, F64.zero_not_isNaN, F64.zero_orderKey,
    F64.orderKey, hsign]
  simp

/-- The exact number of units removed. -/
def toNat (self : ExactReduction) : Nat :=
  (F64.mk self.fromBits).units - (F64.mk self.toBits).units

variable (self : ExactReduction)

/-- The operands of a reduction expand and subtract, so `exact` never falls back. -/
theorem exact_toNat : self.exact.toNat = self.toNat := by
  have hoperands := self.operands
  obtain ⟨minuend, hminuend, _⟩ := ExactDistortion.fromF64_of_isNonneg
    (isNonneg_of_signBit hoperands.from_isFinite hoperands.from_signBit)
  obtain ⟨subtrahend, hsubtrahend, _⟩ := ExactDistortion.fromF64_of_isNonneg
    (isNonneg_of_signBit hoperands.to_isFinite hoperands.to_signBit)
  have hle := hoperands.units_le
  rw [exact, hminuend, hsubtrahend]
  simp only [Option.bind_some]
  cases hsub : minuend.checkedSub subtrahend with
  | some difference =>
    have hvalue := ExactDistortion.checkedSub_eq_some_iff.mp hsub
    rw [Option.getD_some, toNat]
    omega
  | none =>
    rw [ExactDistortion.checkedSub] at hsub
    split at hsub
    · rename_i hless
      rw [ExactDistortion.cmp_eq, compare_lt_iff_lt] at hless
      omega
    · simp at hsub

theorem cmp_eq (left right : ExactReduction) : left.cmp right = compare left.toNat right.toNat := by
  rw [cmp, ExactDistortion.cmp_eq, exact_toNat, exact_toNat]

theorem roundedBits_toNat :
    self.roundedBits.toNat = F64.roundUnits self.toNat := by
  have hoperands := self.operands
  have hsub := F64.sub_toBits hoperands.from_isFinite hoperands.to_isFinite
    hoperands.from_signBit hoperands.to_signBit hoperands.units_le
  rw [roundedBits, canonicalNonnegativeBits]
  split
  · rename_i hzero
    -- a difference equal to zero has magnitude zero, and its sign is clear
    simp only [F64.eq, Bool.and_eq_true, decide_eq_true_eq, F64.zero_orderKey] at hzero
    have hkey := hzero.2
    have hle := F64.roundUnits_sub_le ⟨self.fromBits⟩ ⟨self.toBits⟩
    have hlt := F64.magnitude_lt ⟨self.fromBits⟩
    have hmod : (F64.sub ⟨self.fromBits⟩ ⟨self.toBits⟩).magnitude = 0 := by
      unfold F64.orderKey at hkey
      split at hkey <;> omega
    rw [F64.magnitude, hsub, Nat.mod_eq_of_lt (by omega)] at hmod
    exact hmod.symm
  · exact hsub

theorem new_of_units_le {fromValue toValue : F64} (hfrom : fromValue.IsNonneg)
    (hto : toValue.IsNonneg) (hle : toValue.units ≤ fromValue.units) :
    ∃ reduction, new fromValue toValue = some reduction ∧
      reduction.toNat = fromValue.units - toValue.units := by
  have horder : F64.lt fromValue toValue = false := by
    rw [← Bool.not_eq_true, F64.lt_eq_true_iff hfrom hto]
    omega
  have hvalid : (!fromValue.isFinite || !toValue.isFinite || F64.lt fromValue F64.zero ||
      F64.lt toValue F64.zero || F64.lt fromValue toValue) = false := by
    rw [hfrom.1, hto.1, F64.lt_zero_eq_false hfrom, F64.lt_zero_eq_false hto, horder]
    rfl
  refine ⟨_, dif_pos hvalid, ?_⟩
  rw [toNat, (canonicalNonnegativeBits_spec hfrom).2.2, (canonicalNonnegativeBits_spec hto).2.2]

/-- Canonical operands agree as bits exactly when nothing is removed. -/
theorem isZero_eq_true_iff : self.isZero = true ↔ self.toNat = 0 := by
  have hoperands := self.operands
  have hle := hoperands.units_le
  have hfrom := F64.toNat_toBits_eq_magnitude hoperands.from_signBit
  have hto := F64.toNat_toBits_eq_magnitude hoperands.to_signBit
  rw [isZero, beq_iff_eq, toNat]
  constructor
  · intro heq
    rw [heq, Nat.sub_self]
  · intro hzero
    have hunits : (F64.mk self.fromBits).units = (F64.mk self.toBits).units := by omega
    have hmagnitude := F64.unitsOfMagnitude_strictMono.injective hunits
    exact UInt64.toNat_inj.mp (hfrom.trans (hmagnitude.trans hto.symm))

end ExactReduction

/-- **The sort key is the exact order.** -/
theorem compareReductionDescending_eq (left right : ExactReduction) :
    compareReductionDescending left right = compare right.toNat left.toNat := by
  rw [compareReductionDescending, ExactReduction.cmp_eq, Limbs.compare_limb,
    ExactReduction.roundedBits_toNat, ExactReduction.roundedBits_toNat]
  rcases Nat.lt_trichotomy (F64.roundUnits right.toNat) (F64.roundUnits left.toNat) with
    hlt | heq | hgt
  · have hexact : right.toNat < left.toNat := by
      by_contra hge
      exact absurd (F64.roundUnits_mono (not_lt.mp hge)) (by omega)
    rw [compare_lt_iff_lt.mpr hlt, compare_lt_iff_lt.mpr hexact]
    rfl
  · rw [compare_eq_iff_eq.mpr heq]
    rfl
  · have hexact : left.toNat < right.toNat := by
      by_contra hge
      exact absurd (F64.roundUnits_mono (not_lt.mp hge)) (by omega)
    rw [compare_gt_iff_gt.mpr hgt, compare_gt_iff_gt.mpr hexact]
    rfl

end Tritium.Allocator
