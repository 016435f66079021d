import Tritium.Allocator.Types
import Tritium.Lib.Limbs

/-!
# Exact sums of binary64 distortions

A finite non-negative binary64 is a number of units of `2 ^ -1074` below `2 ^ 2098`, and a sum of
fewer than `2 ^ 64` of them stays below `2 ^ 2162`. The accumulator is that integer in 34 limbs.
-/

namespace Tritium.Allocator

def exactF64ValueBits : Nat := 2098

def exactDistortionBits : Nat := exactF64ValueBits + 64

def exactDistortionLimbs : Nat := (exactDistortionBits + 63) / 64

structure ExactDistortion where
  limbs : List UInt64
  length_eq : limbs.length = exactDistortionLimbs
deriving DecidableEq

namespace ExactDistortion

def zero : ExactDistortion :=
  ⟨List.replicate exactDistortionLimbs 0, List.length_replicate⟩

instance : Inhabited ExactDistortion := ⟨zero⟩

/-- Adds in place; the flag says that no carry left the last limb. -/
def checkedAddAssign (self rhs : ExactDistortion) : ExactDistortion × Bool :=
  (⟨(Limbs.addCarry self.limbs rhs.limbs false).1, (Limbs.addCarry_length ..).trans self.length_eq⟩,
    !(Limbs.addCarry self.limbs rhs.limbs false).2)

def checkedAddWord (self : ExactDistortion) (limb : Nat) (word : UInt64) : ExactDistortion × Bool :=
  if word = 0 then
    (self, true)
  else if self.limbs.length ≤ limb then
    (self, false)
  else
    (⟨(Limbs.addWord self.limbs limb word).1, (Limbs.addWord_length ..).trans self.length_eq⟩,
      (Limbs.addWord self.limbs limb word).2)

def checkedAddShifted (self : ExactDistortion) (value : UInt64) (shift : Nat) :
    ExactDistortion × Bool :=
  if value = 0 then
    (self, true)
  else
    let limb := shift / 64
    let offset := shift % 64
    if self.limbs.length ≤ limb then
      (self, false)
    else
      let (self, fits) := self.checkedAddWord limb (value <<< UInt64.ofNat offset)
      if !fits then
        (self, false)
      else if offset = 0 then
        (self, true)
      else
        self.checkedAddWord (limb + 1) (value >>> UInt64.ofNat (64 - offset))

def fromF64 (value : F64) : Option ExactDistortion :=
  if !value.isFinite || F64.lt value F64.zero then
    none
  else if F64.eq value F64.zero then
    some zero
  else
    let bits := value.toBits
    if bits >>> 63 ≠ 0 then
      none
    else
      let rawExponent := (bits >>> 52) &&& 0x7ff
      let fraction := bits &&& (((1 : UInt64) <<< 52) - 1)
      let (significand, shift) := if rawExponent = 0 then (fraction, 0)
        else (((1 : UInt64) <<< 52) ||| fraction, rawExponent.toNat - 1)
      let (exact, fits) := zero.checkedAddShifted significand shift
      if fits then some exact else none

def checkedAdd (self rhs : ExactDistortion) : Option ExactDistortion :=
  if (self.checkedAddAssign rhs).2 then some (self.checkedAddAssign rhs).1 else none

def checkedAddF64 (self : ExactDistortion) (value : F64) : Option ExactDistortion :=
  (fromF64 value).bind fun exact => self.checkedAdd exact

/-- The most significant limbs are compared first. -/
def cmp (self other : ExactDistortion) : Ordering :=
  List.compareLex compare self.limbs.reverse other.limbs.reverse

def checkedSub (self rhs : ExactDistortion) : Option ExactDistortion :=
  if self.cmp rhs = .lt then
    none
  else
    some ⟨(Limbs.subBorrow self.limbs rhs.limbs false).1,
      (Limbs.subBorrow_length ..).trans self.length_eq⟩

def highestSetBit (self : ExactDistortion) : Option Nat :=
  (self.limbs.zipIdx.reverse.find? fun entry => entry.1 != 0).map fun entry =>
    entry.2 * 64 + Nat.log2 entry.1.toNat

def shiftedLowU64 (self : ExactDistortion) (shift : Nat) : UInt64 :=
  let limb := shift / 64
  let offset := shift % 64
  let low := self.limbs.getD limb 0 >>> UInt64.ofNat offset
  if offset = 0 then low
  else low ||| (self.limbs.getD (limb + 1) 0 <<< UInt64.ofNat (64 - offset))

def bitIsSet (self : ExactDistortion) (bit : Nat) : Bool :=
  (self.limbs[bit / 64]?).any fun limb => (limb &&& (1 <<< UInt64.ofNat (bit % 64))) != 0

def anyBitBelow (self : ExactDistortion) (exclusive : Nat) : Bool :=
  let fullLimbs := exclusive / 64
  if (self.limbs.take fullLimbs).any fun limb => limb != 0 then
    true
  else
    let remaining := exclusive % 64
    decide (0 < remaining) &&
      (self.limbs[fullLimbs]?).any fun limb =>
        (limb &&& ((1 <<< UInt64.ofNat remaining) - 1)) != 0

def checkedAddU64 (left right : UInt64) : Option UInt64 :=
  if left.toNat + right.toNat < 2 ^ 64 then some (left + right) else none

/-- The sum as the correctly rounded binary64 value, or `none` past the largest finite one. -/
def toF64 (self : ExactDistortion) : Option F64 :=
  match self.highestSetBit with
  | none => some F64.zero
  | some highest =>
    if highest < 52 then
      some ⟨self.limbs.headD 0⟩
    else do
      let shift := highest - 52
      let significand := self.shiftedLowU64 shift
      let roundsUp := decide (0 < shift) && self.bitIsSet (shift - 1) &&
        (self.anyBitBelow (shift - 1) || (significand &&& 1) != 0)
      let (significand, highest) ←
        if roundsUp then do
          let significand ← checkedAddU64 significand 1
          if significand = (1 : UInt64) <<< 53 then some (significand >>> 1, highest + 1)
          else some (significand, highest)
        else some (significand, highest)
      let rawExponent := highest - 51
      if 0x7ff ≤ rawExponent then
        none
      else
        some ⟨UInt64.ofNat rawExponent <<< 52 ||| (significand &&& (((1 : UInt64) <<< 52) - 1))⟩

end ExactDistortion

def exactTotalDistortionFrom (total : ExactDistortion) :
    List GroupCandidates → List Nat → Outcome PhysicalAllocError (Option ExactDistortion)
  | group :: groups, planes :: planeCounts => do
    let distortion ← distortionAt group planes
    match total.checkedAddF64 distortion with
    | none => return none
    | some total => exactTotalDistortionFrom total groups planeCounts
  | _, _ => .ok (some total)

/-- The exact sum of the selected groups' cumulative distortions. -/
def exactTotalDistortion (groups : List GroupCandidates) (planeCounts : List Nat) :
    Outcome PhysicalAllocError (Option ExactDistortion) :=
  exactTotalDistortionFrom ExactDistortion.zero groups planeCounts

def canonicalNonnegativeBits (value : F64) : UInt64 :=
  if F64.eq value F64.zero then 0 else value.toBits

/-- Finite operands without a sign, the subtrahend no larger. -/
structure ReductionOperands (fromBits toBits : UInt64) : Prop where
  from_isFinite : (F64.mk fromBits).isFinite = true
  to_isFinite : (F64.mk toBits).isFinite = true
  from_signBit : (F64.mk fromBits).signBit = false
  to_signBit : (F64.mk toBits).signBit = false
  units_le : (F64.mk toBits).units ≤ (F64.mk fromBits).units

/-- The exact difference of two distortions, kept as its operands. -/
structure ExactReduction where
  fromBits : UInt64
  toBits : UInt64
  operands : ReductionOperands fromBits toBits
deriving DecidableEq

theorem canonicalNonnegativeBits_spec {value : F64} (hvalue : value.IsNonneg) :
    (F64.mk (canonicalNonnegativeBits value)).isFinite = true ∧
      (F64.mk (canonicalNonnegativeBits value)).signBit = false ∧
      (F64.mk (canonicalNonnegativeBits value)).units = value.units := by
  by_cases hzero : F64.eq value F64.zero = true
  · have hunits := (F64.eq_zero_eq_true_iff hvalue).mp hzero
    simp only [canonicalNonnegativeBits, hzero, ↓reduceIte]
    rw [hunits]
    decide
  · have hunits : value.units ≠ 0 := fun h => hzero ((F64.eq_zero_eq_true_iff hvalue).mpr h)
    simp only [canonicalNonnegativeBits, hzero, Bool.false_eq_true, ↓reduceIte]
    exact ⟨hvalue.1, F64.signBit_eq_false hvalue hunits, trivial⟩

namespace ExactReduction

theorem new_operands {fromValue toValue : F64}
    (hvalid : (!fromValue.isFinite || !toValue.isFinite || F64.lt fromValue F64.zero ||
      F64.lt toValue F64.zero || F64.lt fromValue toValue) = false) :
    ReductionOperands (canonicalNonnegativeBits fromValue) (canonicalNonnegativeBits toValue) := by
  simp only [Bool.or_eq_false_iff, Bool.not_eq_false'] at hvalid
  obtain ⟨⟨⟨⟨hfrom, hto⟩, hfromSign⟩, htoSign⟩, horder⟩ := hvalid
  have hfromNonneg := F64.isNonneg_of_lt_zero_eq_false hfrom hfromSign
  have htoNonneg := F64.isNonneg_of_lt_zero_eq_false hto htoSign
  obtain ⟨hfromFinite, hfromBit, _⟩ := canonicalNonnegativeBits_spec hfromNonneg
  obtain ⟨htoFinite, htoBit, _⟩ := canonicalNonnegativeBits_spec htoNonneg
  refine ⟨hfromFinite, htoFinite, hfromBit, htoBit, ?_⟩
  by_contra hlt
  have := (F64.lt_eq_true_iff hfromNonneg htoNonneg).mpr (by omega)
  rw [this] at horder
  exact Bool.noConfusion horder

def new (fromValue toValue : F64) : Option ExactReduction :=
  if hvalid : (!fromValue.isFinite || !toValue.isFinite || F64.lt fromValue F64.zero ||
      F64.lt toValue F64.zero || F64.lt fromValue toValue) = false then
    some ⟨canonicalNonnegativeBits fromValue, canonicalNonnegativeBits toValue, new_operands hvalid⟩
  else
    none

def isZero (self : ExactReduction) : Bool := self.fromBits == self.toBits

/-- Both operands expand and the difference exists, as `exact_eq` shows. -/
def exact (self : ExactReduction) : ExactDistortion :=
  ((ExactDistortion.fromF64 ⟨self.fromBits⟩).bind fun minuend =>
    (ExactDistortion.fromF64 ⟨self.toBits⟩).bind fun subtrahend =>
      minuend.checkedSub subtrahend).getD ExactDistortion.zero

def cmp (self other : ExactReduction) : Ordering := self.exact.cmp other.exact

def roundedBits (self : ExactReduction) : UInt64 :=
  canonicalNonnegativeBits (F64.sub ⟨self.fromBits⟩ ⟨self.toBits⟩)

end ExactReduction

/-- Sorts by the rounded difference and settles equal roundings exactly. -/
def compareReductionDescending (left right : ExactReduction) : Ordering :=
  (compare right.roundedBits left.roundedBits).then (right.cmp left)

end Tritium.Allocator
