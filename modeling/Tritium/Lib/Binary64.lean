import Mathlib.Data.Nat.Log
import Mathlib.Tactic.Ring
import Mathlib.Tactic.Linarith

/-!
# IEEE 754 binary64 by bit pattern

A finite binary64 value is an integer multiple of `2 ^ -1074`, so its magnitude is a natural number
of those units. The order of finite values, and the correctly rounded difference, are defined on
that integer. Rounding is to nearest, ties to even, and is monotone.
-/

namespace Tritium

structure F64 where
  toBits : UInt64
deriving DecidableEq, Repr

namespace F64

variable {x : F64} {n : Nat}

/-- The exponent and fraction fields, the sign dropped. -/
def magnitude (x : F64) : Nat := x.toBits.toNat % 2 ^ 63

def signBit (x : F64) : Bool := decide (2 ^ 63 ≤ x.toBits.toNat)

/-- The magnitude of an infinity; finite values lie below it and NaNs above. -/
def infinityMagnitude : Nat := 0x7ff * 2 ^ 52

def isFinite (x : F64) : Bool := decide (x.magnitude < infinityMagnitude)

def isNaN (x : F64) : Bool := decide (infinityMagnitude < x.magnitude)

/-- A magnitude in units of `2 ^ -1074`: subnormals carry their fraction as it stands, normals an
implicit leading one. -/
def unitsOfMagnitude (m : Nat) : Nat :=
  if m / 2 ^ 52 = 0 then m % 2 ^ 52 else (2 ^ 52 + m % 2 ^ 52) * 2 ^ (m / 2 ^ 52 - 1)

/-- The absolute value of a finite number, in units of `2 ^ -1074`. -/
def units (x : F64) : Nat := unitsOfMagnitude x.magnitude

def signedUnits (x : F64) : Int := if x.signBit then -(x.units : Int) else x.units

/-- Sign and magnitude as one integer; both zeros map to `0`. -/
def orderKey (x : F64) : Int := if x.signBit then -(x.magnitude : Int) else x.magnitude

def lt (x y : F64) : Bool := !x.isNaN && !y.isNaN && decide (x.orderKey < y.orderKey)

def le (x y : F64) : Bool := !x.isNaN && !y.isNaN && decide (x.orderKey ≤ y.orderKey)

/-- Numeric equality, under which the two zeros are equal and a NaN is not equal to itself. -/
def eq (x y : F64) : Bool := !x.isNaN && !y.isNaN && decide (x.orderKey = y.orderKey)

def zero : F64 := ⟨0⟩

def nan : F64 := ⟨0x7ff8000000000000⟩

def ofMagnitude (negative : Bool) (m : Nat) : F64 :=
  ⟨UInt64.ofNat (m + if negative then 2 ^ 63 else 0)⟩

/-- The exponent shift of a number of units: zero below the second normal binade. -/
def roundShift (n : Nat) : Nat := Nat.log2 n - 52

/-- Whether rounding to nearest, ties to the even significand, moves away from zero. -/
def RoundsUp (n : Nat) : Prop :=
  2 ^ roundShift n < 2 * (n % 2 ^ roundShift n) ∨
    2 * (n % 2 ^ roundShift n) = 2 ^ roundShift n ∧ n / 2 ^ roundShift n % 2 = 1

instance : DecidablePred RoundsUp := fun _ => inferInstanceAs (Decidable (_ ∨ _))

/-- The magnitude nearest to `n` units. A significand that rounds up to `2 ^ 53` carries into the
exponent field by itself. -/
def roundUnits (n : Nat) : Nat :=
  roundShift n * 2 ^ 52
    + if RoundsUp n then n / 2 ^ roundShift n + 1 else n / 2 ^ roundShift n

def sub (x y : F64) : F64 :=
  if x.isNaN || y.isNaN then
    nan
  else if !x.isFinite then
    if !y.isFinite && x.signBit == y.signBit then nan else x
  else if !y.isFinite then
    ofMagnitude (!y.signBit) y.magnitude
  else
    let difference := x.signedUnits - y.signedUnits
    if difference = 0 then
      ofMagnitude (x.signBit && !y.signBit) 0
    else
      ofMagnitude (decide (difference < 0))
        (min (roundUnits difference.natAbs) infinityMagnitude)

theorem magnitude_lt (x : F64) : x.magnitude < 2 ^ 63 :=
  Nat.mod_lt _ (by decide)

theorem unitsOfMagnitude_lt_succ (m : Nat) : unitsOfMagnitude m < unitsOfMagnitude (m + 1) := by
  unfold unitsOfMagnitude
  have hmod : m % 2 ^ 52 < 2 ^ 52 := by omega
  by_cases hcarry : (m + 1) % 2 ^ 52 = 0
  · have hexponent : (m + 1) / 2 ^ 52 = m / 2 ^ 52 + 1 := by omega
    rw [hexponent, hcarry]
    by_cases hzero : m / 2 ^ 52 = 0
    · rw [hzero]
      simpa using hmod
    · obtain ⟨exponent, hexp⟩ : ∃ exponent, m / 2 ^ 52 = exponent + 1 :=
        ⟨m / 2 ^ 52 - 1, by omega⟩
      rw [hexp, Nat.add_sub_cancel, Nat.add_sub_cancel, pow_succ 2 exponent,
        mul_comm (2 ^ exponent) 2, ← mul_assoc]
      exact Nat.mul_lt_mul_of_pos_right (by omega) (Nat.two_pow_pos exponent)
  · have hexponent : (m + 1) / 2 ^ 52 = m / 2 ^ 52 := by omega
    have hfraction : (m + 1) % 2 ^ 52 = m % 2 ^ 52 + 1 := by omega
    rw [hexponent, hfraction]
    split
    · omega
    · simp

theorem unitsOfMagnitude_strictMono : StrictMono unitsOfMagnitude :=
  strictMono_nat_of_lt_succ unitsOfMagnitude_lt_succ

/-- Finite values have fewer than this many bits in units of `2 ^ -1074`. -/
def valueBits : Nat := 2098

theorem units_lt_of_isFinite (hfinite : x.isFinite = true) : x.units < 2 ^ valueBits := by
  have hlt := unitsOfMagnitude_strictMono (of_decide_eq_true hfinite)
  have hexponent : infinityMagnitude / 2 ^ 52 = 2047 := by decide
  have hfraction : infinityMagnitude % 2 ^ 52 = 0 := by decide
  have hinfinity : unitsOfMagnitude infinityMagnitude = 2 ^ valueBits := by
    rw [unitsOfMagnitude, hfraction, add_zero, ← pow_add]
    rfl
  rwa [hinfinity] at hlt

/-- Finite and not negative, a negative zero included. -/
def IsNonneg (x : F64) : Prop := x.isFinite = true ∧ le zero x = true

instance : DecidablePred IsNonneg := fun x =>
  inferInstanceAs (Decidable (x.isFinite = true ∧ le zero x = true))

theorem not_isNaN_of_isFinite (hfinite : x.isFinite = true) : x.isNaN = false := by
  simp only [isFinite, isNaN, decide_eq_true_eq, decide_eq_false_iff_not] at *
  omega

theorem zero_orderKey : zero.orderKey = 0 := by decide

theorem zero_not_isNaN : zero.isNaN = false := by decide

theorem orderKey_eq_magnitude (hx : x.IsNonneg) : x.orderKey = x.magnitude := by
  obtain ⟨-, hle⟩ := hx
  simp only [le, Bool.and_eq_true, decide_eq_true_eq, zero_orderKey] at hle
  have hkey := hle.2
  unfold orderKey at hkey ⊢
  split at hkey <;> rename_i hsign
  · omega
  · rw [if_neg hsign]

theorem lt_eq_true_iff {y : F64} (hx : x.IsNonneg) (hy : y.IsNonneg) :
    lt x y = true ↔ x.units < y.units := by
  rw [lt, not_isNaN_of_isFinite hx.1, not_isNaN_of_isFinite hy.1, orderKey_eq_magnitude hx,
    orderKey_eq_magnitude hy]
  simp only [Bool.not_false, Bool.true_and, decide_eq_true_eq, Nat.cast_lt]
  exact unitsOfMagnitude_strictMono.lt_iff_lt.symm

theorem units_eq_zero_iff : x.units = 0 ↔ x.magnitude = 0 := by
  have hzero : unitsOfMagnitude 0 = 0 := by decide
  rw [← hzero]
  exact unitsOfMagnitude_strictMono.injective.eq_iff

theorem eq_zero_eq_true_iff (hx : x.IsNonneg) : eq x zero = true ↔ x.units = 0 := by
  rw [eq, not_isNaN_of_isFinite hx.1, orderKey_eq_magnitude hx, zero_orderKey, zero_not_isNaN,
    units_eq_zero_iff]
  simp

theorem lt_zero_eq_false (hx : x.IsNonneg) : lt x zero = false := by
  rw [lt, orderKey_eq_magnitude hx, zero_orderKey]
  simp

theorem isNonneg_of_lt_zero_eq_false (hfinite : x.isFinite = true) (hsign : lt x zero = false) :
    x.IsNonneg := by
  refine ⟨hfinite, ?_⟩
  simp only [lt, le, not_isNaN_of_isFinite hfinite, zero_not_isNaN, Bool.not_false,
    Bool.true_and, decide_eq_false_iff_not, decide_eq_true_eq] at hsign ⊢
  omega

/-- Only a zero can be non-negative and carry a sign. -/
theorem signBit_eq_false (hx : x.IsNonneg) (hne : x.units ≠ 0) : x.signBit = false := by
  have hkey := orderKey_eq_magnitude hx
  by_contra hsign
  rw [Bool.not_eq_false] at hsign
  rw [orderKey, if_pos hsign] at hkey
  exact hne (units_eq_zero_iff.mpr (by omega))

theorem toNat_toBits_eq_magnitude (hsign : x.signBit = false) : x.toBits.toNat = x.magnitude := by
  simp only [signBit, decide_eq_false_iff_not] at hsign
  rw [magnitude, Nat.mod_eq_of_lt (by omega)]

theorem roundShift_mono {m : Nat} (hle : n ≤ m) : roundShift n ≤ roundShift m := by
  have hlog := Nat.log_mono_right (b := 2) hle
  simp only [roundShift, Nat.log2_eq_log_two]
  omega

theorem significand_lt (n : Nat) : n / 2 ^ roundShift n < 2 ^ 53 := by
  rw [Nat.div_lt_iff_lt_mul (Nat.two_pow_pos _), ← pow_add]
  calc
    n < 2 ^ (Nat.log2 n + 1) := Nat.lt_log2_self
    _ ≤ 2 ^ (53 + roundShift n) := by
      apply Nat.pow_le_pow_right (by decide)
      unfold roundShift
      omega

theorem le_significand (hshift : 0 < roundShift n) : 2 ^ 52 ≤ n / 2 ^ roundShift n := by
  have hlog : Nat.log2 n = 52 + roundShift n := by
    unfold roundShift at hshift ⊢
    omega
  have hne : n ≠ 0 := by
    intro hzero
    simp [hzero, roundShift] at hshift
  rw [Nat.le_div_iff_mul_le (Nat.two_pow_pos _), ← pow_add, ← hlog]
  exact Nat.log2_self_le hne

theorem roundUnits_of_roundsUp (hup : RoundsUp n) :
    roundUnits n = roundShift n * 2 ^ 52 + (n / 2 ^ roundShift n + 1) := by
  rw [roundUnits, if_pos hup]

theorem roundUnits_of_not_roundsUp (hup : ¬ RoundsUp n) :
    roundUnits n = roundShift n * 2 ^ 52 + n / 2 ^ roundShift n := by
  rw [roundUnits, if_neg hup]

theorem le_roundUnits (n : Nat) : roundShift n * 2 ^ 52 + n / 2 ^ roundShift n ≤ roundUnits n := by
  by_cases hup : RoundsUp n
  · rw [roundUnits_of_roundsUp hup]
    omega
  · rw [roundUnits_of_not_roundsUp hup]

theorem roundUnits_le (n : Nat) :
    roundUnits n ≤ roundShift n * 2 ^ 52 + (n / 2 ^ roundShift n + 1) := by
  by_cases hup : RoundsUp n
  · rw [roundUnits_of_roundsUp hup]
  · rw [roundUnits_of_not_roundsUp hup]
    omega

/-- **Correct rounding is monotone.** -/
theorem roundUnits_mono : Monotone roundUnits := by
  intro n m hle
  rcases (roundShift_mono hle).lt_or_eq with hshift | hshift
  · have hupper := roundUnits_le n
    have hlower := le_roundUnits m
    have hbelow := significand_lt n
    have habove := le_significand (n := m) (by omega)
    omega
  · have hdiv : n / 2 ^ roundShift n ≤ m / 2 ^ roundShift m := by
      rw [hshift]
      exact Nat.div_le_div_right hle
    rcases hdiv.lt_or_eq with _ | heq
    · have hupper := roundUnits_le n
      have hlower := le_roundUnits m
      omega
    · by_cases hup : RoundsUp n
      · have hmod : n % 2 ^ roundShift n ≤ m % 2 ^ roundShift m := by
          have hn := Nat.div_add_mod n (2 ^ roundShift n)
          have hm := Nat.div_add_mod m (2 ^ roundShift m)
          rw [← heq, ← hshift] at hm
          rw [← hshift]
          omega
        have hup' : RoundsUp m := by
          unfold RoundsUp at hup ⊢
          rw [← heq, ← hshift]
          rw [← hshift] at hmod
          omega
        rw [roundUnits_of_roundsUp hup, roundUnits_of_roundsUp hup', heq, hshift]
      · rw [roundUnits_of_not_roundsUp hup, heq, hshift]
        exact le_roundUnits m

theorem roundUnits_unitsOfMagnitude (m : Nat) : roundUnits (unitsOfMagnitude m) = m := by
  have hexact : ∀ {n shift : Nat}, roundShift n = shift → n % 2 ^ shift = 0 →
      roundUnits n = shift * 2 ^ 52 + n / 2 ^ shift := by
    intro n shift hshift hmod
    have hdown : ¬ RoundsUp n := by
      unfold RoundsUp
      rw [hshift]
      omega
    rw [roundUnits_of_not_roundsUp hdown, hshift]
  have hfraction : m % 2 ^ 52 < 2 ^ 52 := by omega
  unfold unitsOfMagnitude
  split
  · have hshift : roundShift (m % 2 ^ 52) = 0 := by
      by_cases hzero : m % 2 ^ 52 = 0
      · rw [hzero]
        rfl
      · have hlog := (Nat.log2_lt hzero).mpr hfraction
        unfold roundShift
        omega
    rw [hexact hshift (by simp [Nat.mod_one])]
    omega
  · have hshift : roundShift ((2 ^ 52 + m % 2 ^ 52) * 2 ^ (m / 2 ^ 52 - 1)) = m / 2 ^ 52 - 1 := by
      have hpos : 0 < 2 ^ (m / 2 ^ 52 - 1) := Nat.two_pow_pos _
      have hlog : Nat.log2 ((2 ^ 52 + m % 2 ^ 52) * 2 ^ (m / 2 ^ 52 - 1)) =
          52 + (m / 2 ^ 52 - 1) := by
        rw [Nat.log2_eq_iff (Nat.mul_ne_zero (by omega) hpos.ne'), add_right_comm, pow_add, pow_add]
        exact ⟨Nat.mul_le_mul_right _ (by omega), Nat.mul_lt_mul_of_pos_right (by omega) hpos⟩
      rw [roundShift, hlog, Nat.add_sub_cancel_left]
    rw [hexact hshift (Nat.mul_mod_left _ _), Nat.mul_div_cancel _ (Nat.two_pow_pos _)]
    omega

theorem toNat_ofMagnitude_false {m : Nat} (hm : m < 2 ^ 63) :
    (ofMagnitude false m).toBits.toNat = m := by
  exact UInt64.toNat_ofNat_of_lt' (lt_trans hm (by decide))

theorem signedUnits_of_not_signBit (hsign : x.signBit = false) : x.signedUnits = x.units := by
  simp [signedUnits, hsign]

theorem roundUnits_sub_le (x y : F64) : roundUnits (x.units - y.units) ≤ x.magnitude := by
  calc
    roundUnits (x.units - y.units) ≤ roundUnits x.units := roundUnits_mono (Nat.sub_le _ _)
    _ = x.magnitude := roundUnits_unitsOfMagnitude x.magnitude

/-- Subtracting non-negative values rounds the exact difference once. -/
theorem sub_toBits {y : F64} (hx : x.isFinite = true) (hy : y.isFinite = true)
    (hxsign : x.signBit = false) (hysign : y.signBit = false) (hle : y.units ≤ x.units) :
    (sub x y).toBits.toNat = roundUnits (x.units - y.units) := by
  have hround := roundUnits_sub_le x y
  have hfinite : x.magnitude < infinityMagnitude := by simpa [isFinite] using hx
  have hbound : infinityMagnitude < 2 ^ 63 := by decide
  rw [sub, not_isNaN_of_isFinite hx, not_isNaN_of_isFinite hy, hx, hy,
    signedUnits_of_not_signBit hxsign, signedUnits_of_not_signBit hysign, hxsign]
  simp only [Bool.or_self, Bool.false_eq_true, ↓reduceIte, Bool.not_true, Bool.false_and]
  by_cases hzero : x.units - y.units = 0
  · rw [if_pos (by omega), hzero]
    decide
  · have hnonneg : ¬ ((x.units : Int) - y.units < 0) := by omega
    have habs : ((x.units : Int) - y.units).natAbs = x.units - y.units := by omega
    rw [if_neg (by omega), habs, decide_eq_false hnonneg, toNat_ofMagnitude_false (by omega)]
    omega

end F64

end Tritium
