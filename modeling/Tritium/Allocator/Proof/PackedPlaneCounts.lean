import Tritium.Allocator.PackedUniform
import Mathlib.Algebra.BigOperators.Group.Finset.Basic

/-!
# Two-bit plane maps

A map is read as the counts it holds. Writing one place leaves the other three of its byte alone,
and the sum over the map does not overflow while a `u32` can number the groups.
-/

namespace Tritium.Allocator

namespace PackedPlaneCounts

def placeShift (index : ℕ) : UInt8 := UInt8.ofNat (index % 4 * 2)

theorem shift_eq (index : ℕ) : ((UInt64.ofNat index % 4) * 2).toUInt8 = placeShift index := by
  apply UInt8.toNat_inj.mp
  have hfour : (4 : UInt64).toNat = 4 := rfl
  simp [placeShift, hfour]

theorem readByte_setByte (byte : UInt8) {first second count : ℕ} (hfirst : first < 4)
    (hsecond : second < 4) (hpos : 1 ≤ count) (hle : count ≤ 3) :
    ((setByte byte (UInt8.ofNat (first * 2)) (UInt8.ofNat count) >>>
        UInt8.ofNat (second * 2)) &&& 3) + 1 = if second = first then UInt8.ofNat count
      else ((byte >>> UInt8.ofNat (second * 2)) &&& 3) + 1 := by
  have hall : ∀ bits : BitVec 8, ∀ first < 4, ∀ second < 4, ∀ count < 4, 1 ≤ count →
      ((setByte (UInt8.ofBitVec bits) (UInt8.ofNat (first * 2)) (UInt8.ofNat count) >>>
          UInt8.ofNat (second * 2)) &&& 3) + 1 = if second = first then UInt8.ofNat count
        else ((UInt8.ofBitVec bits >>> UInt8.ofNat (second * 2)) &&& 3) + 1 := by
    decide +kernel
  exact hall byte.toBitVec first hfirst second hsecond count (by omega) hpos

variable {self : PackedPlaneCounts} {index : ℕ}

section

variable (hindex : index < self.len.toNat)

include hindex

theorem exists_byte : ∃ byte, self.bytes[(UInt64.ofNat index / 4).toNat]? = some byte := by
  have hlen := self.len.toNat_lt
  have hfour : (4 : UInt64).toNat = 4 := rfl
  have hlength := self.length_eq
  rw [UInt64.toNat_div, UInt64.toNat_ofNat', hfour]
  exact ⟨_, List.getElem?_eq_getElem (by omega)⟩

theorem get_eq {byte : UInt8} (hbyte : self.bytes[(UInt64.ofNat index / 4).toNat]? = some byte) :
    self.get (UInt64.ofNat index) = some (((byte >>> placeShift index) &&& 3) + 1) := by
  have hlt : index < 2 ^ 64 := hindex.trans self.len.toNat_lt
  have hnot : ¬self.len ≤ UInt64.ofNat index := by
    rw [UInt64.le_iff_toNat_le, UInt64.toNat_ofNat']
    omega
  rw [get, if_neg hnot, hbyte, shift_eq]
  rfl

theorem set_eq {planes : ℕ} (hpos : 1 ≤ planes) (hle : planes ≤ 3) :
    ∃ written, self.set (UInt64.ofNat index) (UInt8.ofNat planes) = .ok written ∧
      written.len = self.len ∧ ∀ other < self.len.toNat, written.get (UInt64.ofNat other) =
        if other = index then some (UInt8.ofNat planes) else self.get (UInt64.ofNat other) := by
  have hlt : index < 2 ^ 64 := hindex.trans self.len.toNat_lt
  have hfour : (4 : UInt64).toNat = 4 := rfl
  have hplace : ∀ other < 2 ^ 64, (UInt64.ofNat other / 4).toNat = other / 4 := by
    intro other hother
    rw [UInt64.toNat_div, UInt64.toNat_ofNat', Nat.mod_eq_of_lt hother, hfour]
  obtain ⟨byte, hbyte⟩ := exists_byte hindex
  obtain ⟨written, hwritten, hbytes, hlen⟩ : ∃ written,
      self.set (UInt64.ofNat index) (UInt8.ofNat planes) = .ok written ∧
      written.bytes = self.bytes.set (UInt64.ofNat index / 4).toNat
        (setByte byte (placeShift index) (UInt8.ofNat planes)) ∧ written.len = self.len := by
    simp only [set, hbyte, shift_eq, ok.injEq, exists_eq_left', and_self]
  refine ⟨written, hwritten, hlen, fun other hother => ?_⟩
  have hlt' : other < 2 ^ 64 := hother.trans self.len.toNat_lt
  have hother' : other < written.len.toNat := hlen ▸ hother
  obtain ⟨before, hbefore⟩ := exists_byte hother
  rw [get_eq hother hbefore]
  by_cases hsame : other / 4 = index / 4
  · have hplaces : (UInt64.ofNat other / 4).toNat = (UInt64.ofNat index / 4).toNat := by
      rw [hplace other hlt', hplace index hlt, hsame]
    obtain rfl : before = byte := Option.some.inj (hbefore.symm.trans (hplaces ▸ hbyte))
    have hread := readByte_setByte before (Nat.mod_lt index (show 0 < 4 by omega))
      (Nat.mod_lt other (show 0 < 4 by omega)) hpos hle
    have hiff : other % 4 = index % 4 ↔ other = index := by omega
    rw [get_eq hother' (by
      rw [hbytes, hplaces, List.getElem?_set_self (List.getElem?_eq_some_iff.mp hbyte).1])]
    simp only [hiff] at hread
    rw [placeShift, placeShift, hread]
    split_ifs <;> rfl
  · have hplaces : (UInt64.ofNat index / 4).toNat ≠ (UInt64.ofNat other / 4).toNat := by
      rw [hplace other hlt', hplace index hlt]
      exact Ne.symm hsame
    rw [get_eq hother' (by rw [hbytes, List.getElem?_set_ne hplaces, hbefore]), if_neg]
    rintro rfl
    exact hsame rfl

end

def decode (self : PackedPlaneCounts) : List ℕ :=
  (List.range self.len.toNat).map fun index =>
    ((self.get (UInt64.ofNat index)).map UInt8.toNat).getD 0

/-- The map holds these counts, each of them one, two or three planes. -/
structure Holds (len : UInt64) (packed : PackedPlaneCounts) (counts : ℕ → ℕ) : Prop where
  len_eq : packed.len = len
  bounds : ∀ index < len.toNat, 1 ≤ counts index ∧ counts index ≤ saltV2Planes
  get_eq : ∀ index < len.toNat, packed.get (UInt64.ofNat index) = some (UInt8.ofNat (counts index))

namespace Holds

variable {len : UInt64} {counts : ℕ → ℕ}

section

variable (hholds : Holds len self counts)

include hholds

theorem toNat_eq (hindex : index < len.toNat) :
    (UInt8.ofNat (counts index)).toNat = counts index := by
  have hbounds := hholds.bounds index hindex
  have hplanes : saltV2Planes = 3 := rfl
  rw [UInt8.toNat_ofNat', Nat.mod_eq_of_lt (by omega)]

theorem decode_eq : self.decode = (List.range len.toNat).map counts := by
  rw [decode, hholds.len_eq]
  refine List.map_congr_left fun index hindex => ?_
  have hlt := List.mem_range.mp hindex
  rw [hholds.get_eq index hlt]
  exact hholds.toNat_eq hlt

theorem set (hindex : index < len.toNat) {planes : ℕ} (hpos : 1 ≤ planes)
    (hle : planes ≤ saltV2Planes) :
    ∃ written, self.set (UInt64.ofNat index) (UInt8.ofNat planes) = .ok written ∧
      Holds len written (Function.update counts index planes) := by
  have hlen := hholds.len_eq
  obtain ⟨written, hwritten, hwrittenLen, hget⟩ := set_eq (hlen ▸ hindex) hpos hle
  refine ⟨written, hwritten, hwrittenLen.trans hlen, ?_, ?_⟩
  · intro other hother
    rcases eq_or_ne other index with rfl | hne
    · rw [Function.update_self]
      exact ⟨hpos, hle⟩
    · rw [Function.update_of_ne hne]
      exact hholds.bounds other hother
  · intro other hother
    rw [hget other (hlen ▸ hother)]
    rcases eq_or_ne other index with rfl | hne
    · simp
    · rw [if_neg hne, Function.update_of_ne hne, hholds.get_eq other hother]

theorem presentPlanes_eq (hlen : len.toNat < 2 ^ 32) :
    ∃ total, self.presentPlanes = .ok total ∧
      total.toNat = ∑ index ∈ Finset.range len.toNat, counts index := by
  have hall : ∀ count ≤ len.toNat, ∃ total : UInt64, (List.range count).foldlM
      (fun total index => do
        let count ← (expect (self.get (UInt64.ofNat index)) :
          Outcome PhysicalAllocError UInt8)
        return total + count.toUInt64) 0 = .ok total ∧
      total.toNat = ∑ index ∈ Finset.range count, counts index ∧ total.toNat ≤ 3 * count := by
    intro count hcount
    induction count with
    | zero => exact ⟨0, rfl, rfl, le_rfl⟩
    | succ count ih =>
      obtain ⟨total, hfold, hsum, _⟩ := ih (by omega)
      have hbounds := hholds.bounds count (by omega)
      have hplanes : saltV2Planes = 3 := rfl
      have hadd : (total + (UInt8.ofNat (counts count)).toUInt64).toNat =
          total.toNat + counts count := by
        rw [UInt64.toNat_add, UInt8.toNat_toUInt64, hholds.toNat_eq (by omega),
          Nat.mod_eq_of_lt (by omega)]
      refine ⟨total + (UInt8.ofNat (counts count)).toUInt64, ?_, ?_, ?_⟩
      · rw [List.range_succ, List.foldlM_append, hfold, ok_bind, List.foldlM_cons,
          hholds.get_eq count (by omega)]
        rfl
      · rw [hadd, hsum, Finset.sum_range_succ]
      · omega
  obtain ⟨total, hfold, hsum, _⟩ := hall len.toNat le_rfl
  refine ⟨total, ?_, hsum⟩
  rw [presentPlanes, hholds.len_eq]
  exact hfold

end

end Holds

end PackedPlaneCounts

end Tritium.Allocator
