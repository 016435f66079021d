import Mathlib.Data.Nat.Digits.Defs
import Mathlib.Tactic.Ring
import Mathlib.Tactic.LinearCombination

/-!
# Little-endian limb arithmetic

Natural numbers as lists of 64-bit limbs, the least significant first. Addition ripples a carry,
subtraction a borrow, and both are exact once the final carry is counted at the weight of the first
limb past the end.
-/

namespace Tritium.Limbs

open List

variable {left right : List UInt64} (limbs : List UInt64) (lefts rights : List UInt64)
  {lefts rights : List UInt64}

def radix : Nat := 2 ^ 64

def value : List UInt64 → Nat
  | [] => 0
  | limb :: rest => limb.toNat + radix * value rest

@[simp]
theorem value_nil : value [] = 0 := rfl

@[simp]
theorem value_cons (limb : UInt64) (rest : List UInt64) :
    value (limb :: rest) = limb.toNat + radix * value rest := rfl

theorem toNat_lt_radix (limb : UInt64) : limb.toNat < radix := limb.toNat_lt

theorem value_eq_ofDigits :
    value limbs = Nat.ofDigits radix (limbs.map UInt64.toNat) := by
  induction limbs with
  | nil => rfl
  | cons limb rest ih => rw [value_cons, ih, map_cons, Nat.ofDigits_cons]

theorem digit_lt_radix : ∀ digit ∈ limbs.map UInt64.toNat, digit < radix :=
  forall_mem_map.mpr fun limb _ => toNat_lt_radix limb

theorem value_lt : value limbs < radix ^ limbs.length := by
  rw [value_eq_ofDigits, ← length_map UInt64.toNat]
  exact Nat.ofDigits_lt_base_pow_length (by decide) (digit_lt_radix limbs)

@[simp]
theorem value_replicate_zero (count : Nat) : value (replicate count 0) = 0 := by
  induction count with
  | zero => rfl
  | succ count ih => simp [replicate_succ, ih]

theorem eq_of_value_eq (hlength : left.length = right.length)
    (hvalue : value left = value right) : left = right := by
  rw [value_eq_ofDigits, value_eq_ofDigits] at hvalue
  have hdigits := Nat.ofDigits_inj_of_len_eq (by decide) (by rwa [length_map, length_map])
    (digit_lt_radix left) (digit_lt_radix right) hvalue
  exact (map_inj_right fun _ _ => UInt64.toNat_inj.mp).mp hdigits

/-- `overflowing_add`: the wrapped sum, and whether it wrapped. -/
def overflowingAdd (left right : UInt64) : UInt64 × Bool :=
  (left + right, decide (radix ≤ left.toNat + right.toNat))

theorem overflowingAdd_value (left right : UInt64) :
    (overflowingAdd left right).1.toNat + radix * (overflowingAdd left right).2.toNat =
      left.toNat + right.toNat := by
  have hleft := left.toNat_lt
  have hright := right.toNat_lt
  simp only [overflowingAdd, UInt64.toNat_add, radix]
  by_cases hcarry : 2 ^ 64 ≤ left.toNat + right.toNat
  · simp only [hcarry, decide_true, Bool.toNat_true]
    omega
  · simp only [hcarry, decide_false, Bool.toNat_false]
    omega

/-- Adds two limb lists of one length with a carry in, returning the sum and the carry out. -/
def addCarry : List UInt64 → List UInt64 → Bool → List UInt64 × Bool
  | left :: lefts, right :: rights, carry =>
    let (sum, firstCarry) := overflowingAdd left right
    let (sum, secondCarry) := overflowingAdd sum (if carry then 1 else 0)
    let (rest, last) := addCarry lefts rights (firstCarry || secondCarry)
    (sum :: rest, last)
  | lefts, _, carry => (lefts, carry)

theorem addCarry_length (carry : Bool) :
    (addCarry lefts rights carry).1.length = lefts.length := by
  induction lefts generalizing rights carry with
  | nil => cases rights <;> rfl
  | cons left lefts ih =>
    cases rights with
    | nil => rfl
    | cons right rights => simp [addCarry, ih]

/-- One limb of the ripple: the two partial carries never both fire. -/
theorem overflowingAdd_carry_value (left right : UInt64) (carry : Bool) :
    let first := overflowingAdd left right
    let second := overflowingAdd first.1 (if carry then 1 else 0)
    second.1.toNat + radix * (first.2 || second.2).toNat =
      left.toNat + right.toNat + carry.toNat := by
  intro first second
  have hfirst := overflowingAdd_value left right
  have hsecond := overflowingAdd_value first.1 (if carry then 1 else 0)
  have hleft := toNat_lt_radix left
  have hright := toNat_lt_radix right
  have hone : (if carry then (1 : UInt64) else 0).toNat = carry.toNat := by
    cases carry <;> rfl
  change first.1.toNat + radix * first.2.toNat = _ at hfirst
  change second.1.toNat + radix * second.2.toNat = _ at hsecond
  have hcarry : carry.toNat ≤ 1 := Bool.toNat_le carry
  cases hf : first.2 <;> cases hs : second.2 <;>
    simp only [hf, hs, Bool.toNat_true, Bool.toNat_false, Bool.or_true, Bool.or_false,
      Bool.or_self] at hfirst hsecond ⊢ <;> omega

theorem addCarry_value (carry : Bool) (hlength : lefts.length = rights.length) :
    value (addCarry lefts rights carry).1
        + radix ^ lefts.length * (addCarry lefts rights carry).2.toNat =
      value lefts + value rights + carry.toNat := by
  induction lefts generalizing rights carry with
  | nil =>
    have hnil : rights = [] := length_eq_zero_iff.mp hlength.symm
    simp [hnil, addCarry]
  | cons left lefts ih =>
    cases rights with
    | nil => simp at hlength
    | cons right rights =>
      have hstep := overflowingAdd_carry_value left right carry
      simp only [addCarry, value_cons, length_cons]
      have hrest := ih ((overflowingAdd left right).2
        || (overflowingAdd (overflowingAdd left right).1 (if carry then 1 else 0)).2)
        (by simpa using hlength)
      linear_combination hstep + radix * hrest

/-- `overflowing_sub`: the wrapped difference, and whether it wrapped. -/
def overflowingSub (left right : UInt64) : UInt64 × Bool :=
  (left - right, decide (left.toNat < right.toNat))

theorem overflowingSub_value (left right : UInt64) :
    (overflowingSub left right).1.toNat + right.toNat =
      left.toNat + radix * (overflowingSub left right).2.toNat := by
  have hleft := left.toNat_lt
  have hright := right.toNat_lt
  simp only [overflowingSub, UInt64.toNat_sub, radix]
  by_cases hborrow : left.toNat < right.toNat
  · simp only [hborrow, decide_true, Bool.toNat_true]
    omega
  · simp only [hborrow, decide_false, Bool.toNat_false]
    omega

/-- Subtracts limb lists of one length with a borrow in, returning the difference and the borrow
out. -/
def subBorrow : List UInt64 → List UInt64 → Bool → List UInt64 × Bool
  | left :: lefts, right :: rights, borrow =>
    let (difference, firstBorrow) := overflowingSub left right
    let (difference, secondBorrow) := overflowingSub difference (if borrow then 1 else 0)
    let (rest, last) := subBorrow lefts rights (firstBorrow || secondBorrow)
    (difference :: rest, last)
  | lefts, _, borrow => (lefts, borrow)

theorem subBorrow_length (borrow : Bool) :
    (subBorrow lefts rights borrow).1.length = lefts.length := by
  induction lefts generalizing rights borrow with
  | nil => cases rights <;> rfl
  | cons left lefts ih =>
    cases rights with
    | nil => rfl
    | cons right rights => simp [subBorrow, ih]

theorem overflowingSub_borrow_value (left right : UInt64) (borrow : Bool) :
    let first := overflowingSub left right
    let second := overflowingSub first.1 (if borrow then 1 else 0)
    second.1.toNat + right.toNat + borrow.toNat =
      left.toNat + radix * (first.2 || second.2).toNat := by
  intro first second
  have hfirst := overflowingSub_value left right
  have hsecond := overflowingSub_value first.1 (if borrow then 1 else 0)
  have hright := toNat_lt_radix right
  have hdifference := toNat_lt_radix second.1
  have hone : (if borrow then (1 : UInt64) else 0).toNat = borrow.toNat := by
    cases borrow <;> rfl
  rw [hone] at hsecond
  change first.1.toNat + right.toNat = left.toNat + radix * first.2.toNat at hfirst
  change second.1.toNat + borrow.toNat = first.1.toNat + radix * second.2.toNat at hsecond
  have hborrow : borrow.toNat ≤ 1 := Bool.toNat_le borrow
  cases hf : first.2 <;> cases hs : second.2 <;>
    simp only [hf, hs, Bool.toNat_true, Bool.toNat_false, Bool.or_true, Bool.or_false,
      Bool.or_self] at hfirst hsecond ⊢ <;> omega

theorem subBorrow_value (borrow : Bool) (hlength : lefts.length = rights.length) :
    value (subBorrow lefts rights borrow).1 + value rights + borrow.toNat =
      value lefts + radix ^ lefts.length * (subBorrow lefts rights borrow).2.toNat := by
  induction lefts generalizing rights borrow with
  | nil =>
    have hnil : rights = [] := length_eq_zero_iff.mp hlength.symm
    simp [hnil, subBorrow]
  | cons left lefts ih =>
    cases rights with
    | nil => simp at hlength
    | cons right rights =>
      have hstep := overflowingSub_borrow_value left right borrow
      simp only [subBorrow, value_cons, length_cons]
      have hrest := ih ((overflowingSub left right).2
        || (overflowingSub (overflowingSub left right).1 (if borrow then 1 else 0)).2)
        (by simpa using hlength)
      linear_combination hstep + radix * hrest

/-! ### Adding one word

The word lands on one limb and its carry ripples upwards; running off the end is reported. -/

def addWord : List UInt64 → Nat → UInt64 → List UInt64 × Bool
  | [], _, _ => ([], false)
  | limb :: rest, 0, word =>
    let (sum, carry) := overflowingAdd limb word
    if carry then
      let (rest, fits) := addWord rest 0 1
      (sum :: rest, fits)
    else
      (sum :: rest, true)
  | limb :: rest, position + 1, word =>
    let (rest, fits) := addWord rest position word
    (limb :: rest, fits)

theorem addWord_length (position : Nat) (word : UInt64) :
    (addWord limbs position word).1.length = limbs.length := by
  induction limbs generalizing position word with
  | nil => rfl
  | cons limb rest ih =>
    cases position with
    | zero =>
      simp only [addWord]
      split <;> simp [ih]
    | succ position => simp [addWord, ih]

theorem addWord_value (position : Nat) (word : UInt64) (hposition : position ≤ limbs.length)
    (hend : position = limbs.length → word = 1) :
    value (addWord limbs position word).1
        + radix ^ limbs.length * (!(addWord limbs position word).2).toNat =
      value limbs + word.toNat * radix ^ position := by
  induction limbs generalizing position word with
  | nil =>
    have hzero : position = 0 := by simpa using hposition
    subst hzero
    simp [addWord, hend rfl]
  | cons limb rest ih =>
    cases position with
    | zero =>
      have hstep := overflowingAdd_value limb word
      cases hcarry : (overflowingAdd limb word).2 with
      | true =>
        have hrest := ih 0 1 (Nat.zero_le _) (fun _ => rfl)
        simp only [UInt64.toNat_one, pow_zero, Nat.mul_one] at hrest
        simp only [hcarry, Bool.toNat_true, Nat.mul_one] at hstep
        simp only [addWord, hcarry, ↓reduceIte, value_cons, length_cons, pow_zero,
          Nat.mul_one, pow_succ]
        linear_combination hstep + radix * hrest
      | false =>
        simp only [hcarry, Bool.toNat_false, mul_zero, add_zero] at hstep
        simp only [addWord, hcarry, Bool.false_eq_true, ↓reduceIte, value_cons, pow_zero,
          Nat.mul_one, Bool.not_true, Bool.toNat_false, mul_zero, add_zero]
        linear_combination hstep
    | succ position =>
      have hrest := ih position word (by simpa using hposition)
        (fun heq => hend (by simp [heq]))
      simp only [addWord, value_cons, length_cons, pow_succ]
      linear_combination radix * hrest

theorem compare_limb (left right : UInt64) :
    compare left right = compare left.toNat right.toNat := by
  simp only [compare, compareOfLessAndEq, UInt64.lt_iff_toNat_lt, ← UInt64.toNat_inj]

theorem compareLex_append_singleton (x y : UInt64)
    (hlength : left.length = right.length) :
    List.compareLex compare (left ++ [x]) (right ++ [y]) =
      (List.compareLex compare left right).then (compare x y) := by
  induction left generalizing right with
  | nil =>
    have hnil : right = [] := length_eq_zero_iff.mp hlength.symm
    subst hnil
    cases h : compare x y <;> simp [List.compareLex, h]
  | cons limb rest ih =>
    cases right with
    | nil => simp at hlength
    | cons limb' rest' =>
      simp only [List.cons_append, List.compareLex_cons_cons]
      rw [ih (by simpa using hlength), Ordering.then_assoc]

/-- The most significant limb decides first, so comparing from the top compares the numbers. -/
theorem compareLex_reverse_eq (hlength : left.length = right.length) :
    List.compareLex compare left.reverse right.reverse = compare (value left) (value right) := by
  induction left generalizing right with
  | nil =>
    have hnil : right = [] := length_eq_zero_iff.mp hlength.symm
    simp [hnil]
  | cons limb rest ih =>
    cases right with
    | nil => simp at hlength
    | cons limb' rest' =>
      have hrest : rest.length = rest'.length := by simpa using hlength
      rw [reverse_cons, reverse_cons,
        compareLex_append_singleton limb limb' (by simpa using hrest), ih hrest]
      have hlimb := toNat_lt_radix limb
      have hlimb' := toNat_lt_radix limb'
      rcases Nat.lt_trichotomy (value rest) (value rest') with hlt | heq | hgt
      · have hscaled : radix * (value rest + 1) ≤ radix * value rest' :=
          Nat.mul_le_mul_left radix hlt
        rw [compare_lt_iff_lt.mpr hlt, Ordering.lt_then, eq_comm, compare_lt_iff_lt,
          value_cons, value_cons]
        rw [mul_add] at hscaled
        omega
      · rw [heq, compare_eq_iff_eq.mpr rfl, Ordering.eq_then, value_cons, value_cons, heq,
          compare_limb]
        simp only [compare, compareOfLessAndEq, Nat.add_lt_add_iff_right, Nat.add_right_cancel_iff]
      · have hscaled : radix * (value rest' + 1) ≤ radix * value rest :=
          Nat.mul_le_mul_left radix hgt
        rw [compare_gt_iff_gt.mpr hgt, Ordering.gt_then, eq_comm, compare_gt_iff_gt,
          value_cons, value_cons]
        rw [mul_add] at hscaled
        omega

end Tritium.Limbs
