import Tritium.Allocator.Proof.Curves

/-!
# Plane vectors as levels

Candidate groups are curves, a plane vector is its floors raised by levels, and the distortion it
leaves is what the floors leave minus the value of the levels.
-/

namespace Tritium.Allocator

open List
open Knapsack

theorem sum_zipWith_range {α : Type} (f : α → ℕ → ℕ) (g : ℕ → ℕ) (items : List α) :
    (zipWith f items ((range items.length).map g)).sum =
      ∑ i ∈ Finset.range items.length, (items[i]?).elim 0 fun item => f item (g i) := by
  induction items using reverseRecOn with
  | nil => rfl
  | append_singleton items item ih =>
    rw [length_append, length_singleton, range_succ, map_append,
      zipWith_append (by simp), sum_append, ih, Finset.sum_range_succ]
    congr 1
    · refine Finset.sum_congr rfl fun i hi => ?_
      rw [getElem?_append_left (Finset.mem_range.mp hi)]
    · simp

/-- Floors for every group, none above a ceiling. -/
structure FloorsBelow (groups : List GroupCandidates) (floors : List ℕ) (ceiling : ℕ) : Prop where
  length_eq : floors.length = groups.length
  bounds : ∀ floor ∈ floors, 1 ≤ floor ∧ floor ≤ ceiling
  ceiling_pos : 1 ≤ ceiling
  ceiling_le : ceiling ≤ saltV2Planes

theorem IsFloorVector.below {groups : List GroupCandidates} {floors : List ℕ}
    (hfloors : IsFloorVector groups floors) : FloorsBelow groups floors saltV2Planes :=
  ⟨hfloors.length_eq, hfloors.bounds, by decide, le_rfl⟩

section Levels

variable {groups : List GroupCandidates} {floors : List ℕ}
  {ceiling : ℕ} (hgroups : ∀ group ∈ groups, ValidGroup group)
  (hfloors : FloorsBelow groups floors ceiling) {levels : ℕ → ℕ}

def groupCurves : Curves where
  count := groups.length
  floor i := floors.getD i 1
  ceiling _ := ceiling
  distortion i planes := (groups[i]?).elim 0 fun group => groupDistortion group planes
  floor_pos i := by
    rcases lt_or_ge i floors.length with hi | hi
    · rw [getD_eq_getElem _ _ hi]
      exact (hfloors.bounds _ (getElem_mem hi)).1
    · rw [getD_eq_default _ _ hi]
  floor_le i := by
    rcases lt_or_ge i floors.length with hi | hi
    · rw [getD_eq_getElem _ _ hi]
      exact (hfloors.bounds _ (getElem_mem hi)).2
    · rw [getD_eq_default _ _ hi]
      exact hfloors.ceiling_pos
  ceiling_le _ := hfloors.ceiling_le
  antitone i low high hpos hlow hhigh := by
    rcases hget : groups[i]? with _ | group
    · exact le_rfl
    · exact (hgroups group (mem_of_getElem? hget)).groupDistortion_antitone hpos hlow hhigh
  distortion_lt i planes := by
    rcases hget : groups[i]? with _ | group
    · simp
    · exact (hgroups group (mem_of_getElem? hget)).groupDistortion_lt planes

def raisedFloors (groups : List GroupCandidates) (floors : List ℕ) (levels : ℕ → ℕ) : List ℕ :=
  (range groups.length).map fun i => floors.getD i 1 + levels i

include hfloors in
theorem raisedFloors_zero : raisedFloors groups floors (fun _ => 0) = floors := by
  refine ext_getElem (by simp [raisedFloors, hfloors.length_eq]) fun i hi hi' => ?_
  simp [raisedFloors, getElem?_eq_getElem hi']

abbrev WithinTop (levels : ℕ → ℕ) : Prop :=
  ∀ i, levels i ≤ (groupCurves hgroups hfloors).problem.top i

theorem floor_add_le (hlevels : WithinTop hgroups hfloors levels) {i : ℕ} (hi : i < groups.length) :
    floors.getD i 1 + levels i ≤ ceiling := by
  have hle := hlevels i
  have hfloor : floors.getD i 1 ≤ ceiling := (groupCurves hgroups hfloors).floor_le i
  rw [Curves.top_of_lt (show i < (groupCurves hgroups hfloors).count from hi)] at hle
  change levels i ≤ ceiling - floors.getD i 1 at hle
  omega

theorem raisedFloors_bounds (hlevels : WithinTop hgroups hfloors levels) :
    Forall₂ (fun floor planes => floor ≤ planes ∧ planes ≤ ceiling) floors
      (raisedFloors groups floors levels) := by
  refine forall₂_iff_get.mpr ⟨by simp [raisedFloors, hfloors.length_eq], fun i hi hi' => ?_⟩
  have hle := floor_add_le hgroups hfloors hlevels (hfloors.length_eq ▸ hi)
  simpa [raisedFloors, getElem?_eq_getElem hi] using hle

/-- Every vector between the floors and the ceiling is the floors raised by levels. -/
theorem exists_raisedFloors {planeCounts : List ℕ}
    (hbounds : Forall₂ (fun floor planes => floor ≤ planes ∧ planes ≤ ceiling) floors planeCounts) :
    ∃ levels, WithinTop hgroups hfloors levels ∧
      planeCounts = raisedFloors groups floors levels := by
  have hlength := hbounds.length_eq
  have hentry : ∀ i (hi : i < floors.length), floors[i] ≤ planeCounts[i] ∧
      planeCounts[i] ≤ ceiling := fun i hi =>
    (forall₂_iff_get.mp hbounds).2 i hi (hlength ▸ hi)
  refine ⟨fun i => planeCounts.getD i 1 - floors.getD i 1, fun i => ?_, ?_⟩
  · rcases lt_or_ge i floors.length with hi | hi
    · rw [Curves.top_of_lt (show i < (groupCurves hgroups hfloors).count from
        hi.trans_eq hfloors.length_eq)]
      change planeCounts.getD i 1 - floors.getD i 1 ≤ ceiling - floors.getD i 1
      rw [getD_eq_getElem _ _ (hlength ▸ hi)]
      exact Nat.sub_le_sub_right (hentry i hi).2 _
    · dsimp only
      rw [getD_eq_default _ _ (hlength ▸ hi), getD_eq_default _ _ hi]
      exact Nat.zero_le _
  · refine ext_getElem (by simp [raisedFloors, ← hlength, hfloors.length_eq]) fun i hi _ => ?_
    have hi' : i < floors.length := hlength ▸ hi
    have hle := (hentry i hi').1
    simp only [raisedFloors, getElem_map, getElem_range, getD_eq_getElem _ _ hi,
      getD_eq_getElem _ _ hi']
    omega

theorem raisedFloors_le_raisedFloors (groups : List GroupCandidates) (floors : List ℕ)
    {other : ℕ → ℕ} (hle : toLex other ≤ toLex levels) :
    raisedFloors groups floors other ≤ raisedFloors groups floors levels := by
  rcases hle.eq_or_lt with heq | ⟨i, hsame, hless⟩
  · rw [toLex_inj.mp heq]
  · rcases lt_or_ge i groups.length with hi | hi
    · have hlength : ∀ s, i < (raisedFloors groups floors s).length := fun s => by
        simpa [raisedFloors] using hi
      refine le_of_lt (List.lt_iff_exists.mpr (Or.inr
        ⟨i, hlength other, hlength levels, fun j hj => ?_, ?_⟩))
      · simpa [raisedFloors] using hsame j hj
      · simpa [raisedFloors] using hless
    · have heq : raisedFloors groups floors other = raisedFloors groups floors levels := by
        refine map_congr_left fun j hj => ?_
        rw [show other j = levels j from hsame j ((mem_range.mp hj).trans_le hi)]
      rw [heq]

theorem totalDistortion_floors : totalDistortion groups floors =
    ∑ i ∈ Finset.range groups.length, (groupCurves hgroups hfloors).distortion i
      ((groupCurves hgroups hfloors).floor i) := by
  have hfloor := congrArg (totalDistortion groups) (raisedFloors_zero hfloors)
  rw [← hfloor, totalDistortion, raisedFloors, sum_zipWith_range]
  rfl

theorem totalDistortion_raisedFloors (hlevels : WithinTop hgroups hfloors levels) :
    totalDistortion groups (raisedFloors groups floors levels) +
        (groupCurves hgroups hfloors).problem.value levels = totalDistortion groups floors := by
  rw [totalDistortion_floors hgroups hfloors, totalDistortion, raisedFloors, sum_zipWith_range]
  change _ + ∑ i ∈ Finset.range groups.length, _ = _
  rw [← Finset.sum_add_distrib]
  refine Finset.sum_congr rfl fun i _ => ?_
  rw [add_comm]
  exact Curves.gain_add_distortion (hlevels i)

end Levels

end Tritium.Allocator
