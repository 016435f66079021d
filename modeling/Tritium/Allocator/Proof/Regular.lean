import Tritium.Allocator.Proof.Levels
import Mathlib.Algebra.BigOperators.Ring.Finset

/-!
# The regular allocator is optimal

With one cost for every increment both ledgers are affine in the total level, so the greatest levels
of the groups' curves are the wanted plane vector.
-/

namespace Tritium.Allocator

open List
open Knapsack

variable {group : GroupCandidates} {cost : PhysicalBytes} {levels : ℕ → ℕ} {available : ℕ}
  {limit : ProfileBudget}

section Regular

variable {groups : List GroupCandidates} {floors : List ℕ}
  (hgroups : ∀ group ∈ groups, ValidGroup group)
  (hfloors : FloorsBelow groups floors saltV2Planes) {commonCost : Option PhysicalBytes}
  (profile : SaltV2Profile)

theorem groupBytes_add {domain : PhysicalBytes → UInt64} {floor : ℕ}
    (hcost : ∀ candidate ∈ group.candidates.drop floor,
      candidate.byteDelta.effective = cost) {level : ℕ}
    (hlevel : floor + level ≤ group.candidates.length) :
    groupBytes domain group (floor + level) =
      groupBytes domain group floor + level * (domain cost).toNat := by
  have hconst : ((group.candidates.drop floor).take level).map
      (fun candidate => (domain candidate.byteDelta.effective).toNat) =
      replicate level (domain cost).toNat := by
    refine eq_replicate_iff.mpr ⟨by simp; omega, fun bytes hbytes => ?_⟩
    obtain ⟨candidate, hcandidate, rfl⟩ := mem_map.mp hbytes
    rw [hcost candidate (mem_of_mem_take hcandidate)]
  rw [groupBytes, take_add, map_append, sum_append, hconst, sum_replicate]
  rfl

theorem totalBytes_raisedFloors (hcost : UniformDelta groups floors cost)
    (domain : PhysicalBytes → UInt64) (metadata : ByteDelta)
    (hlevels : WithinTop hgroups hfloors levels) :
    totalBytes domain groups metadata (raisedFloors groups floors levels) =
      totalBytes domain groups metadata floors +
        (groupCurves hgroups hfloors).problem.weight levels * (domain cost).toNat := by
  have hfloor := congrArg (totalBytes domain groups metadata) (raisedFloors_zero hfloors)
  rw [← hfloor, totalBytes, totalBytes, raisedFloors, raisedFloors, sum_zipWith_range,
    sum_zipWith_range, add_assoc]
  change _ + _ = _ + (_ + (∑ i ∈ Finset.range groups.length, _) * _)
  rw [Finset.sum_mul, ← Finset.sum_add_distrib]
  congr 1
  refine Finset.sum_congr rfl fun i hi => ?_
  have hlt := Finset.mem_range.mp hi
  have hlt' : i < floors.length := hfloors.length_eq ▸ hlt
  have hle := floor_add_le hgroups hfloors hlevels hlt
  rw [getElem?_eq_getElem hlt, getD_eq_getElem _ _ hlt'] at *
  refine groupBytes_add (hcost (groups[i], floors[i]) ?_) ?_
  · rw [← getElem_zip (h := by simp; omega)]
    exact getElem_mem _
  · rw [(hgroups _ (getElem_mem hlt)).length_eq]
    exact hle

theorem exactReduction_eq {fromValue toValue : F64} (hfrom : fromValue.IsNonneg)
    (hto : toValue.IsNonneg) (hle : toValue.units ≤ fromValue.units) (profile : SaltV2Profile) :
    ∃ reduction, exactReduction fromValue toValue profile = .ok reduction ∧
      reduction.toNat = fromValue.units - toValue.units := by
  obtain ⟨reduction, hnew, htoNat⟩ := ExactReduction.new_of_units_le hfrom hto hle
  refine ⟨reduction, ?_, htoNat⟩
  rw [exactReduction, hnew, okOr_some]

theorem ValidGroup.exactReduction_eq (hgroup : ValidGroup group)
    {low high : ℕ} (hlow : 1 ≤ low) (hle : low ≤ high) (hhigh : high ≤ saltV2Planes)
    (profile : SaltV2Profile) :
    ∃ fromValue toValue reduction, distortionAt group low = .ok fromValue ∧
      distortionAt group high = .ok toValue ∧
      exactReduction fromValue toValue profile = .ok reduction ∧
      reduction.toNat = groupDistortion group low - groupDistortion group high := by
  obtain ⟨fromValue, hfrom, hfromNonneg, hfromUnits⟩ := hgroup.distortionAt_eq hlow
    (hle.trans hhigh)
  obtain ⟨toValue, hto, htoNonneg, htoUnits⟩ := hgroup.distortionAt_eq (hlow.trans hle) hhigh
  have hantitone := hgroup.groupDistortion_antitone hlow hle hhigh
  obtain ⟨reduction, hreduction, htoNat⟩ := Allocator.exactReduction_eq hfromNonneg htoNonneg
    (by omega) profile
  exact ⟨fromValue, toValue, reduction, hfrom, hto, hreduction, by rw [htoNat, hfromUnits, htoUnits]⟩

theorem filter_unlessZero (i : ℕ) (targets : List ℕ) (reduction : ℕ → ExactReduction) :
    (targets.filter fun planes => !(RankedUpgrade.reduction
        (UnitUpgrade.mk i planes (reduction planes))).isZero).map
        (fun planes => UnitUpgrade.mk i planes (reduction planes)) =
      targets.flatMap fun planes => unitUpgradeUnlessZero i planes (reduction planes) := by
  induction targets with
  | nil => rfl
  | cons planes targets ih =>
    rw [flatMap_cons, ← ih, unitUpgradeUnlessZero]
    by_cases hzero : (reduction planes).isZero = true
    · rw [filter_cons_of_neg (by simpa [RankedUpgrade.reduction] using hzero), if_pos hzero]
      rfl
    · rw [filter_cons_of_pos (by simpa [RankedUpgrade.reduction] using hzero), if_neg hzero]
      rfl

theorem offers_unlessZero {c : Curves} {i : ℕ} (hceiling : c.ceiling i = saltV2Planes)
    (hbundled : ¬c.Bundled i) (reduction : ℕ → ExactReduction)
    (hreduction : ∀ planes, c.floor i < planes → planes ≤ saltV2Planes →
      (reduction planes).toNat = c.distortion i (planes - 1) - c.distortion i planes) :
    c.Offers {i} ((targetsAbove (c.floor i)).flatMap fun planes =>
      unitUpgradeUnlessZero i planes (reduction planes)) ([] : List BundledUpgrade) := by
  rw [← hceiling] at hreduction
  rw [← filter_unlessZero, targetsAbove, ← hceiling]
  exact Curves.Offers.ofTargets hbundled (fun planes hfloor hceiling =>
    ⟨rfl, rfl, hreduction planes hfloor hceiling⟩) rfl

theorem groupUpgrades_eq {i : ℕ} {floor : ℕ} (hgroup : groups[i]? = some group)
    (hfloor : floors[i]? = some floor) :
    ∃ units bundles, groupUpgrades profile i group floor = .ok (units, bundles) ∧
      (groupCurves hgroups hfloors).Offers {i} units bundles := by
  have hvalid := hgroups group (mem_of_getElem? hgroup)
  have hplanes : saltV2Planes = 3 := rfl
  have hbounds := hfloors.bounds floor (mem_of_getElem? hfloor)
  set c := groupCurves hgroups hfloors
  have hcurve : ∀ planes, groupDistortion group planes = c.distortion i planes := fun planes => by
    change _ = (groups[i]?).elim 0 _
    rw [hgroup]
    rfl
  have hcurveFloor : c.floor i = floor := by
    change floors.getD i 1 = floor
    rw [getD_eq_getElem?_getD, hfloor]
    rfl
  have hceiling : c.ceiling i = saltV2Planes := rfl
  have hunbundled : floor ≠ 1 → ¬c.Bundled i := fun hne hbundled =>
    hne (hcurveFloor.symm.trans hbundled.1)
  obtain ⟨d₁, d₂, first, hd₁, hd₂, hfirst, hfirstNat⟩ := hvalid.exactReduction_eq
    (show 1 ≤ 1 by omega) (show 1 ≤ 2 by omega) (show 2 ≤ 3 by omega) profile
  obtain ⟨d₂', d₃, second, hd₂', hd₃, hsecond, hsecondNat⟩ := hvalid.exactReduction_eq
    (show 1 ≤ 2 by omega) (show 2 ≤ 3 by omega) (show 3 ≤ 3 by omega) profile
  obtain ⟨d₁', d₃', both, hd₁', hd₃', hboth, hbothNat⟩ := hvalid.exactReduction_eq
    (show 1 ≤ 1 by omega) (show 1 ≤ 3 by omega) (show 3 ≤ 3 by omega) profile
  obtain rfl : d₂ = d₂' := ok.inj (hd₂.symm.trans hd₂')
  obtain rfl : d₁ = d₁' := ok.inj (hd₁.symm.trans hd₁')
  obtain rfl : d₃ = d₃' := ok.inj (hd₃.symm.trans hd₃')
  rw [hcurve, hcurve] at hfirstNat hsecondNat hbothNat
  have hcases : floor = 1 ∨ floor = 2 ∨ floor = 3 := by omega
  rcases hcases with rfl | rfl | rfl
  · have hcmp : second.cmp first = .gt ↔ c.Bundled i := by
      have hlow := c.antitone i 1 2 le_rfl (by omega) (by omega)
      rw [ExactReduction.cmp_eq, compare_gt_iff_gt, Curves.Bundled]
      omega
    simp only [groupUpgrades, hd₁, hd₂, hd₃, hfirst, hsecond, hboth, ok_bind]
    by_cases hbundled : c.Bundled i
    · rw [if_pos (hcmp.mpr hbundled)]
      exact ⟨[], [⟨i, both, first⟩], rfl, Curves.Offers.ofBundle rfl hbundled hbothNat hfirstNat⟩
    · rw [if_neg (hcmp.not.mpr hbundled)]
      refine ⟨_, [], rfl, ?_⟩
      have hoffers := offers_unlessZero hceiling hbundled
        (fun planes => if planes = 2 then first else second) fun planes hlow hhigh => by
          obtain rfl | rfl : planes = 2 ∨ planes = 3 := by omega
          · exact hfirstNat
          · exact hsecondNat
      rw [hcurveFloor] at hoffers
      simpa [targetsAbove, range', saltV2Planes] using hoffers
  · simp only [groupUpgrades, hd₂, hd₃, hsecond, ok_bind]
    refine ⟨_, [], rfl, ?_⟩
    have hoffers := offers_unlessZero hceiling (hunbundled (by decide)) (fun _ => second)
      fun planes hlow hhigh => by
        obtain rfl : planes = 3 := by omega
        exact hsecondNat
    rw [hcurveFloor] at hoffers
    simpa [targetsAbove, saltV2Planes] using hoffers
  · refine ⟨[], [], rfl, ?_⟩
    have hoffers := offers_unlessZero hceiling (hunbundled (by decide)) (fun _ => second)
      fun planes hlow hhigh => by omega
    rw [hcurveFloor] at hoffers
    simpa [targetsAbove, saltV2Planes] using hoffers

theorem collectUpgrades_eq (rest : List GroupCandidates) (first : ℕ)
    (hrest : groups.drop first = rest) :
    ∃ units bundles, collectUpgrades profile first rest (floors.drop first) = .ok (units, bundles) ∧
      (groupCurves hgroups hfloors).Offers (Set.Ico first groups.length) units bundles := by
  induction rest generalizing first with
  | nil =>
    refine ⟨[], [], rfl, ?_⟩
    rw [Set.Ico_eq_empty (not_lt.mpr (drop_eq_nil_iff.mp hrest))]
    exact Curves.Offers.empty
  | cons group rest ih =>
    have hfirst : first < groups.length := by
      by_contra hnot
      rw [drop_of_length_le (by omega)] at hrest
      cases hrest
    have hfirst' : first < floors.length := hfloors.length_eq ▸ hfirst
    rw [drop_eq_getElem_cons hfirst, cons.injEq] at hrest
    obtain ⟨rfl, htail⟩ := hrest
    obtain ⟨units, bundles, hupgrades, hoffers⟩ := groupUpgrades_eq hgroups hfloors profile
      (getElem?_eq_getElem hfirst) (getElem?_eq_getElem hfirst')
    obtain ⟨moreUnits, moreBundles, hmore, hmoreOffers⟩ := ih (first + 1) htail
    refine ⟨units ++ moreUnits, bundles ++ moreBundles, ?_, ?_⟩
    · rw [drop_eq_getElem_cons hfirst', collectUpgrades, hupgrades]
      rw [hmore]
      rfl
    · have hunion : ({first} : Set ℕ) ∪ Set.Ico (first + 1) groups.length =
          Set.Ico first groups.length := by
        ext i
        simp only [Set.mem_union, Set.mem_singleton_iff, Set.mem_Ico]
        omega
      rw [← hunion]
      refine hoffers.append hmoreOffers ?_
      simp

theorem scanGroupCosts_eq (profile : SaltV2Profile) {targets : List ℕ}
    (hcost : ∀ planes ∈ targets, ∃ candidate, group.candidates[planes - 1]? = some candidate ∧
      candidate.byteDelta.effective = cost) (hcommon : commonCost = none ∨ commonCost = some cost)
    (havailable : available + targets.length < 2 ^ 64) :
    scanGroupCosts profile group targets commonCost available =
      .ok (some (if targets = [] then commonCost else some cost, available + targets.length)) := by
  induction targets generalizing commonCost available with
  | nil => rfl
  | cons planes targets ih =>
    obtain ⟨candidate, hget, heffective⟩ := hcost planes mem_cons_self
    rw [length_cons] at havailable
    have hexpected : (commonCost.any fun expected => decide (expected ≠ cost)) = false := by
      rcases hcommon with rfl | rfl <;> simp
    rw [scanGroupCosts, Outcome.index, hget, expect_some, ok_bind]
    simp only [heffective, hexpected, Bool.false_eq_true, if_false]
    rw [checkedAddUsize, if_pos (by omega), okOr_bind,
      ih (fun planes hplanes => hcost planes (mem_cons_of_mem _ hplanes)) (Or.inr rfl) (by omega)]
    simp only [ite_self, reduceCtorEq, if_false, length_cons]
    rw [add_assoc, add_comm 1]

theorem scanCosts_eq (profile : SaltV2Profile) (hvalid : ∀ group ∈ groups, ValidGroup group)
    (hbounds : Forall₂ (fun (_ : GroupCandidates) floor => 1 ≤ floor ∧ floor ≤ saltV2Planes)
      groups floors) (hcost : UniformDelta groups floors cost)
    (hcommon : commonCost = none ∨ commonCost = some cost)
    (havailable : available + (floors.map (saltV2Planes - ·)).sum < 2 ^ 64) :
    scanCosts profile groups floors commonCost available =
      .ok (some (if (floors.map (saltV2Planes - ·)).sum = 0 then commonCost else some cost,
        available + (floors.map (saltV2Planes - ·)).sum)) := by
  induction hbounds generalizing commonCost available with
  | nil => rfl
  | @cons group floor groups floors hfloor _ ih =>
    rw [map_cons, sum_cons] at havailable
    have hlength : (targetsAbove floor).length = saltV2Planes - floor := length_range'
    have htargets : ∀ planes ∈ targetsAbove floor, ∃ candidate,
        group.candidates[planes - 1]? = some candidate ∧ candidate.byteDelta.effective = cost := by
      intro planes hplanes
      have hrange := mem_range'_1.mp hplanes
      have hlt : planes - 1 < group.candidates.length := by
        rw [(hvalid group mem_cons_self).length_eq]
        omega
      refine ⟨_, getElem?_eq_getElem hlt, hcost (group, floor) mem_cons_self _ ?_⟩
      change _ ∈ group.candidates.drop floor
      rw [mem_drop_iff_getElem]
      exact ⟨planes - 1 - floor, by omega, by congr 1; omega⟩
    rw [scanCosts, scanGroupCosts_eq profile htargets hcommon (by omega), ok_bind]
    dsimp only
    rw [ih (fun group hgroup => hvalid group (mem_cons_of_mem _ hgroup))
      (fun entry hentry => hcost entry (mem_cons_of_mem _ hentry))
      (by split_ifs; exacts [hcommon, Or.inr rfl]) (by omega), add_assoc]
    split_ifs <;> simp_all

/-- A level count fits the capacity exactly when its bytes fit the ledger. -/
theorem le_equalCostCapacity_iff {maximum base cost : UInt64} (hbase : base ≤ maximum)
    {upgrades : ℕ} (havailable : upgrades ≤ available) :
    upgrades ≤ equalCostCapacity (maximum - base) cost available ↔
      base.toNat + upgrades * cost.toNat ≤ maximum.toNat := by
  have hle := UInt64.le_iff_toNat_le.mp hbase
  rw [equalCostCapacity]
  by_cases hzero : cost = 0
  · rw [if_pos hzero, hzero, UInt64.toNat_zero]
    omega
  · have hpos : 0 < cost.toNat := Nat.pos_of_ne_zero fun h => hzero (UInt64.toNat_inj.mp h)
    rw [if_neg hzero, le_min_iff, UInt64.toNat_div, UInt64.toNat_sub_of_le _ _ hbase,
      Nat.le_div_iff_mul_le hpos]
    omega

theorem weight_le_available (hlevels : WithinTop hgroups hfloors levels) :
    (groupCurves hgroups hfloors).problem.weight levels ≤ (floors.map (saltV2Planes - ·)).sum := by
  have hsum : (floors.map (saltV2Planes - ·)).sum =
      ∑ i ∈ Finset.range groups.length, (saltV2Planes - floors.getD i 1) := by
    conv_lhs => rw [← raisedFloors_zero hfloors, raisedFloors, map_map]
    rfl
  rw [hsum]
  refine Finset.sum_le_sum fun i hi => ?_
  have hle := hlevels i
  rwa [Curves.top_of_lt (Finset.mem_range.mp hi)] at hle

/-- With one nonzero cost, the greatest levels are the wanted plane vector. -/
theorem isOptimal_of_isGreatest
    (hcost : UniformDelta groups floors cost) (hne : cost ≠ PhysicalBytes.zero) {capacity : ℕ}
    (hcapacity : ∀ levels, WithinTop hgroups hfloors levels →
      ((groupCurves hgroups hfloors).problem.weight levels ≤ capacity ↔
        Feasible groups floors limit (raisedFloors groups floors levels)))
    (hgreatest : (groupCurves hgroups hfloors).problem.IsGreatest capacity levels) :
    IsOptimal groups floors limit (raisedFloors groups floors levels) := by
  refine ⟨(hcapacity levels hgreatest.feasible.le_top).mp hgreatest.feasible.weight_le, ?_⟩
  intro other hother
  obtain ⟨otherLevels, hwithin, rfl⟩ := exists_raisedFloors hgroups hfloors hother.bounds
  have hkey := hgreatest.key_le otherLevels ⟨hwithin, (hcapacity otherLevels hwithin).mpr hother⟩
  have hlevels := hgreatest.feasible.le_top
  have hvalue := totalDistortion_raisedFloors hgroups hfloors hlevels
  have hotherValue := totalDistortion_raisedFloors hgroups hfloors hwithin
  rw [preferred_iff, totalBytes_raisedFloors hgroups hfloors hcost _ _ hlevels,
    totalBytes_raisedFloors hgroups hfloors hcost _ _ hwithin,
    totalBytes_raisedFloors hgroups hfloors hcost _ _ hlevels,
    totalBytes_raisedFloors hgroups hfloors hcost _ _ hwithin]
  rcases Problem.key_le_iff.mp hkey with hlt | ⟨_, hlt | ⟨hweightEq, hlex⟩⟩
  · omega
  · refine Or.inr ⟨by omega, ?_⟩
    rcases Nat.eq_zero_or_pos cost.serialized.toNat with hzero | hpos
    · have hresident : 0 < cost.resident.toNat := by
        refine Nat.pos_of_ne_zero fun hresident => hne ?_
        have hserialized : cost.serialized = 0 := UInt64.toNat_inj.mp hzero
        have hresident : cost.resident = 0 := UInt64.toNat_inj.mp hresident
        exact congrArg₂ PhysicalBytes.mk hserialized hresident
      refine Or.inr ⟨by rw [hzero, Nat.mul_zero, Nat.mul_zero], Or.inl ?_⟩
      exact Nat.add_lt_add_left (Nat.mul_lt_mul_of_pos_right hlt hresident) _
    · exact Or.inl (Nat.add_lt_add_left (Nat.mul_lt_mul_of_pos_right hlt hpos) _)
  · rw [hweightEq]
    exact Or.inr ⟨by omega, Or.inr ⟨rfl, Or.inr ⟨rfl, raisedFloors_le_raisedFloors groups floors hlex⟩⟩⟩

theorem FloorsBelow.forall₂ (hfloors : FloorsBelow groups floors saltV2Planes) :
    Forall₂ (fun (_ : GroupCandidates) floor => 1 ≤ floor ∧ floor ≤ saltV2Planes) groups
      floors :=
  forall₂_iff_get.mpr ⟨hfloors.length_eq.symm, fun _ _ _ =>
    hfloors.bounds _ (get_mem _ _)⟩

theorem available_lt (hfloors : FloorsBelow groups floors saltV2Planes)
    (hcount : groups.length < 2 ^ 60) : (floors.map (saltV2Planes - ·)).sum < 2 ^ 64 := by
  have hle := sum_le_card_nsmul (floors.map (saltV2Planes - ·)) 3 (by
    intro planes hplanes
    obtain ⟨floor, _, rfl⟩ := mem_map.mp hplanes
    exact Nat.sub_le _ _)
  rw [length_map, hfloors.length_eq, smul_eq_mul] at hle
  omega

theorem feasible_raisedFloors_iff (hcost : UniformDelta groups floors cost)
    (hlevels : WithinTop hgroups hfloors levels) :
    Feasible groups floors limit (raisedFloors groups floors levels) ↔
      totalBytes PhysicalBytes.serialized groups limit.metadata floors +
          (groupCurves hgroups hfloors).problem.weight levels * cost.serialized.toNat ≤
        limit.maximum.serialized.toNat ∧
      totalBytes PhysicalBytes.resident groups limit.metadata floors +
          (groupCurves hgroups hfloors).problem.weight levels * cost.resident.toNat ≤
        limit.maximum.resident.toNat := by
  rw [← totalBytes_raisedFloors hgroups hfloors hcost _ _ hlevels,
    ← totalBytes_raisedFloors hgroups hfloors hcost _ _ hlevels]
  exact ⟨fun hfeasible => ⟨hfeasible.serialized_le, hfeasible.resident_le⟩,
    fun ⟨hserialized, hresident⟩ =>
      ⟨raisedFloors_bounds hgroups hfloors hlevels, hserialized, hresident⟩⟩

include hgroups hfloors in
theorem minimumBytesForPrefix_floors
    (hfit : Feasible groups floors limit floors) (profile : SaltV2Profile) :
    ∃ base : PhysicalBytes, minimumBytesForPrefix groups floors limit.metadata profile = .ok base ∧
      base.serialized.toNat = totalBytes PhysicalBytes.serialized groups limit.metadata floors ∧
      base.resident.toNat = totalBytes PhysicalBytes.resident groups limit.metadata floors := by
  have hplanes : Forall₂ (fun (group : GroupCandidates) planes =>
      planes ≤ group.candidates.length) groups floors :=
    forall₂_iff_get.mpr ⟨hfloors.length_eq.symm, fun i hi _ => by
      rw [(hgroups _ (get_mem _ _)).length_eq]
      exact (hfloors.bounds _ (get_mem _ _)).2⟩
  exact minimumBytesForPrefix_eq hplanes (hfit.serialized_le.trans_lt (UInt64.toNat_lt _))
    (hfit.resident_le.trans_lt (UInt64.toNat_lt _)) profile

/-- The plane map of the allocator is a vector with one entry for every group. -/
def HoldsCounts (groups : List GroupCandidates) (planeCounts : List ℕ) (counts : ℕ → ℕ) : Prop :=
  planeCounts = (range groups.length).map counts

omit hgroups hfloors in
theorem HoldsCounts.setIndex (planeCounts : List ℕ) (counts : ℕ → ℕ) (i planes : ℕ)
    (hholds : HoldsCounts groups planeCounts counts) (hi : i < groups.length) :
    ∃ written, (setIndex planeCounts i planes : Outcome PhysicalAllocError _) =
      .ok written ∧ HoldsCounts groups written (Function.update counts i planes) := by
  rw [HoldsCounts] at hholds
  subst hholds
  refine ⟨_, setIndex_of_lt (by simpa using hi), ?_⟩
  refine ext_getElem (by simp) fun j hj _ => ?_
  rw [getElem_set, getElem_map, getElem_map, getElem_range]
  rcases eq_or_ne i j with rfl | hne
  · simp
  · rw [if_neg hne, Function.update_of_ne hne.symm]

/-- **The equal-cost solver.** With one nonzero cost, the answer raises the floors by the greatest
levels whose bytes fit. -/
theorem regularPlaneCounts_isGreatest
    (hcost : UniformDelta groups floors cost) (hne : cost ≠ PhysicalBytes.zero)
    (hcount : groups.length < 2 ^ 60) (hfit : Feasible groups floors limit floors)
    (profile : SaltV2Profile) :
    ∃ levels capacity, regularPlaneCounts groups floors limit profile =
        .ok (some (raisedFloors groups floors levels)) ∧
      (∀ levels, WithinTop hgroups hfloors levels →
        ((groupCurves hgroups hfloors).problem.weight levels ≤ capacity ↔
          Feasible groups floors limit (raisedFloors groups floors levels))) ∧
      (groupCurves hgroups hfloors).problem.IsGreatest capacity levels := by
  have havailable := available_lt hfloors hcount
  obtain ⟨base, hbase, hserialized, hresident⟩ := minimumBytesForPrefix_floors hgroups hfloors hfit
    profile
  have hserializedLe : base.serialized ≤ limit.maximum.serialized := by
    rw [UInt64.le_iff_toNat_le, hserialized]
    exact hfit.serialized_le
  have hresidentLe : base.resident ≤ limit.maximum.resident := by
    rw [UInt64.le_iff_toNat_le, hresident]
    exact hfit.resident_le
  let capacity := min
    (equalCostCapacity (limit.maximum.serialized - base.serialized) cost.serialized
      (floors.map (saltV2Planes - ·)).sum)
    (equalCostCapacity (limit.maximum.resident - base.resident) cost.resident
      (floors.map (saltV2Planes - ·)).sum)
  have hcapacity : ∀ levels, WithinTop hgroups hfloors levels →
      ((groupCurves hgroups hfloors).problem.weight levels ≤ capacity ↔
        Feasible groups floors limit (raisedFloors groups floors levels)) := by
    intro levels hlevels
    have hweight := weight_le_available hgroups hfloors hlevels
    rw [feasible_raisedFloors_iff hgroups hfloors hcost hlevels, le_min_iff,
      le_equalCostCapacity_iff hserializedLe hweight, le_equalCostCapacity_iff hresidentLe hweight,
      hserialized, hresident]
  have hzeroGreatest : capacity = 0 →
      (groupCurves hgroups hfloors).problem.IsGreatest capacity fun _ => 0 := fun hzero => by
    rw [hzero]
    exact Problem.isGreatest_zero _
  rw [regularPlaneCounts, scanCosts_eq profile hgroups hfloors.forall₂ hcost (Or.inl rfl)
    (by omega), ok_bind, zero_add]
  by_cases hnone : (floors.map (saltV2Planes - ·)).sum = 0
  · have hzero : capacity = 0 := by
      simp [capacity, equalCostCapacity, hnone]
    refine ⟨fun _ => 0, capacity, ?_, hcapacity, hzeroGreatest hzero⟩
    rw [if_pos hnone, raisedFloors_zero hfloors]
    rfl
  · rw [if_neg hnone]
    dsimp only
    rw [hbase, ok_bind]
    by_cases hzero : capacity = 0
    · refine ⟨fun _ => 0, capacity, ?_, hcapacity, hzeroGreatest hzero⟩
      rw [if_pos hzero, raisedFloors_zero hfloors]
      rfl
    · rw [if_neg hzero, if_neg hne]
      obtain ⟨units, bundles, hcollect, hoffers⟩ := collectUpgrades_eq hgroups hfloors profile
        groups 0 rfl
      have hmembers : Set.Ico 0 groups.length = Set.Iio (groupCurves hgroups hfloors).count := by
        ext i
        simp [groupCurves]
      rw [hmembers] at hoffers
      obtain ⟨indexes, hindexes, hunits, hbundles, hranks⟩ := hoffers.sorted.buildIndexes_eq hcount
        profile
      obtain ⟨choice, hchoice, hcounted, hgreatest⟩ := bestRegularChoice_isGreatest hranks profile
        capacity
      obtain ⟨planeCounts, hmaterialize, hholds⟩ := hoffers.sorted.applyChoice_eq
        (fun planeCounts counts i planes hholds hi _ _ => HoldsCounts.setIndex planeCounts counts i
          planes hholds hi) hunits hbundles hcounted.valid (raisedFloors_zero hfloors).symm
      refine ⟨_, capacity, ?_, hcapacity, hgreatest⟩
      rw [drop_zero] at hcollect
      rw [hcollect, ok_bind]
      rw [hindexes, ok_bind, hchoice, ok_bind, materializeRegularChoice, hmaterialize, hholds]
      rfl

/-! ### Increments that cost nothing -/

theorem Curves.value_le_value_top {c : Curves} (hlevels : ∀ i, levels i ≤ c.problem.top i) :
    c.problem.value levels ≤ c.problem.value c.problem.top := by
  refine Finset.sum_le_sum fun i hi => ?_
  have hlow := Curves.gain_add_distortion (hlevels i)
  have hhigh := Curves.gain_add_distortion (le_refl (c.problem.top i))
  have htop := Curves.top_of_lt (Finset.mem_range.mp hi)
  have hpos := c.floor_pos i
  have hfloor := c.floor_le i
  have hceiling := c.ceiling_le i
  have hle := c.antitone i _ _ (by omega) (Nat.add_le_add_left (hlevels i) (c.floor i)) (by omega)
  omega

theorem raisedFloors_top :
    raisedFloors groups floors (groupCurves hgroups hfloors).problem.top =
      replicate groups.length saltV2Planes := by
  refine eq_replicate_iff.mpr ⟨by simp [raisedFloors], fun planes hplanes => ?_⟩
  obtain ⟨i, hi, rfl⟩ := mem_map.mp hplanes
  have hfloor : floors.getD i 1 ≤ saltV2Planes := (groupCurves hgroups hfloors).floor_le i
  rw [Curves.top_of_lt (show i < (groupCurves hgroups hfloors).count from mem_range.mp hi)]
  change floors.getD i 1 + (saltV2Planes - floors.getD i 1) = saltV2Planes
  omega

variable (hcost : UniformDelta groups floors PhysicalBytes.zero)
  (hfit : Feasible groups floors limit floors)

include hgroups hfloors hcost hfit

/-- When increments are free, three planes everywhere are the wanted vector. -/
theorem isOptimal_replicate :
    IsOptimal groups floors limit (replicate groups.length saltV2Planes) := by
  have htop : WithinTop hgroups hfloors (groupCurves hgroups hfloors).problem.top := fun _ => le_rfl
  have hbytes : ∀ domain : PhysicalBytes → UInt64, domain PhysicalBytes.zero = 0 →
      ∀ levels, WithinTop hgroups hfloors levels →
        totalBytes domain groups limit.metadata (raisedFloors groups floors levels) =
          totalBytes domain groups limit.metadata floors := fun domain hdomain levels hlevels => by
    rw [totalBytes_raisedFloors hgroups hfloors hcost _ _ hlevels, hdomain]
    rfl
  have hserialized := hbytes PhysicalBytes.serialized rfl
  have hresident := hbytes PhysicalBytes.resident rfl
  rw [← raisedFloors_top hgroups hfloors]
  refine ⟨⟨raisedFloors_bounds hgroups hfloors htop, ?_, ?_⟩, fun other hother => ?_⟩
  · rw [hserialized _ htop]
    exact hfit.serialized_le
  · rw [hresident _ htop]
    exact hfit.resident_le
  · obtain ⟨levels, hlevels, rfl⟩ := exists_raisedFloors hgroups hfloors hother.bounds
    have hvalue := Curves.value_le_value_top hlevels
    have htopDistortion := totalDistortion_raisedFloors hgroups hfloors htop
    have hdistortion := totalDistortion_raisedFloors hgroups hfloors hlevels
    have hlex := raisedFloors_le_raisedFloors groups floors
      (Pi.toLex_monotone (show levels ≤ _ from hlevels))
    rw [preferred_iff, hserialized _ htop, hserialized _ hlevels, hresident _ htop,
      hresident _ hlevels]
    rcases lt_or_ge (totalDistortion groups
      (raisedFloors groups floors (groupCurves hgroups hfloors).problem.top))
      (totalDistortion groups (raisedFloors groups floors levels)) with hlt | _
    · exact Or.inl hlt
    · exact Or.inr ⟨by omega, Or.inr ⟨rfl, Or.inr ⟨rfl, hlex⟩⟩⟩

theorem regularPlaneCounts_free (hcount : groups.length < 2 ^ 60) (profile : SaltV2Profile) :
    regularPlaneCounts groups floors limit profile =
      .ok (some (replicate groups.length saltV2Planes)) := by
  have havailable := available_lt hfloors hcount
  obtain ⟨base, hbase, _⟩ := minimumBytesForPrefix_floors hgroups hfloors hfit profile
  rw [regularPlaneCounts, scanCosts_eq profile hgroups hfloors.forall₂ hcost (Or.inl rfl)
    (by omega), ok_bind, zero_add]
  by_cases hnone : (floors.map (saltV2Planes - ·)).sum = 0
  · have hall : floors = replicate groups.length saltV2Planes := by
      refine eq_replicate_iff.mpr ⟨hfloors.length_eq, fun floor hfloor => ?_⟩
      have hzero := sum_eq_zero_iff.mp hnone _ (mem_map_of_mem hfloor)
      have hbounds := hfloors.bounds floor hfloor
      omega
    rw [if_pos hnone, ← hall]
    rfl
  · rw [if_neg hnone]
    dsimp only
    rw [hbase]
    have hcapacity : ∀ remaining, equalCostCapacity remaining 0
        (floors.map (saltV2Planes - ·)).sum = (floors.map (saltV2Planes - ·)).sum :=
      fun _ => if_pos rfl
    simp only [PhysicalBytes.zero, hcapacity, min_self, if_neg hnone, if_true]
    rfl

end Regular

/-- **Optimality of the regular allocator.** Whenever all increments above the floors cost the same,
the answer is the least distortion, then the fewest serialized and resident bytes, and the greatest
plane vector, of all the feasible ones. A slice of groups spans at most `isizeMax` bytes. -/
theorem regularPlaneCounts_isOptimal {groups : List GroupCandidates} {floors : List ℕ}
    {limit : ProfileBudget} (profile : SaltV2Profile) (hvalid : validateGroups groups = .ok ())
    (hslice : groups.length * groupCandidatesBytes ≤ isizeMax)
    (hfloors : IsFloorVector groups floors) (hequal : EqualDeltas groups floors)
    (hfit : Feasible groups floors limit floors) :
    ∃ planeCounts, regularPlaneCounts groups floors limit profile = .ok (some planeCounts) ∧
      IsOptimal groups floors limit planeCounts := by
  have hgroups := (validateGroups_spec hvalid).2
  have hcount : groups.length < 2 ^ 60 := by
    rw [groupCandidatesBytes, isizeMax] at hslice
    omega
  obtain ⟨cost, hcost⟩ := hequal
  by_cases hzero : cost = PhysicalBytes.zero
  · subst hzero
    exact ⟨_, regularPlaneCounts_free hgroups hfloors.below hcost hfit hcount profile,
      isOptimal_replicate hgroups hfloors.below hcost hfit⟩
  · obtain ⟨levels, capacity, hreturned, hcapacity, hgreatest⟩ :=
      regularPlaneCounts_isGreatest hgroups hfloors.below hcost hzero hcount hfit profile
    exact ⟨_, hreturned,
      isOptimal_of_isGreatest hgroups hfloors.below hcost hzero hcapacity hgreatest⟩

def equalGroups : List GroupCandidates :=
  [⟨[⟨1, ⟨⟨2, 3⟩, none⟩, ⟨0x4010000000000000⟩⟩, ⟨2, ⟨⟨1, 1⟩, none⟩, ⟨0x4008000000000000⟩⟩,
      ⟨3, ⟨⟨1, 1⟩, none⟩, ⟨0⟩⟩]⟩,
    ⟨[⟨1, ⟨⟨2, 3⟩, none⟩, ⟨0x4010000000000000⟩⟩, ⟨2, ⟨⟨1, 1⟩, none⟩, ⟨0x4000000000000000⟩⟩,
      ⟨3, ⟨⟨1, 1⟩, none⟩, ⟨0x3ff0000000000000⟩⟩]⟩]

def equalBudget : ProfileBudget := ⟨⟨8, 20⟩, ⟨⟨1, 1⟩, none⟩⟩

/-- Distortions 4, 3, 0 against 4, 2, 1: of three increments, two go to the bundle. -/
theorem regularPlaneCounts_isOptimal_equalGroups :
    regularPlaneCounts equalGroups [1, 1] equalBudget .compactV1 = .ok (some [3, 2]) ∧
      IsOptimal equalGroups [1, 1] equalBudget [3, 2] := by
  have hreturned : regularPlaneCounts equalGroups [1, 1] equalBudget .compactV1 =
      .ok (some [3, 2]) := by decide +kernel
  have hbounds : Forall₂ (fun floor planes => floor ≤ planes ∧ planes ≤ saltV2Planes)
      [1, 1] [1, 1] := .cons (by decide) (.cons (by decide) .nil)
  have hfit : Feasible equalGroups [1, 1] equalBudget [1, 1] :=
    ⟨hbounds, by decide +kernel, by decide +kernel⟩
  obtain ⟨planeCounts, heq, hoptimal⟩ := regularPlaneCounts_isOptimal .compactV1
    (by decide +kernel) (by decide) ⟨rfl, by decide⟩ ⟨⟨1, 1⟩, by unfold UniformDelta; decide⟩ hfit
  rw [hreturned, ok.injEq, Option.some.injEq] at heq
  exact ⟨hreturned, heq ▸ hoptimal⟩

end Tritium.Allocator
