import Tritium.Allocator.Proof.PackedPlaneCounts
import Tritium.Allocator.Proof.Regular

/-!
# The packed planner answers as the regular allocator does

A packed map is read as the vector of its counts. Pushing curves collects the upgrades of the same
curves the regular allocator would see, so the solver is asked the same question; what is left to
show is that the two-bit map stores the answer, and that the sums beside it are those of the answer.
-/

namespace Tritium.Allocator

open List
open Knapsack

variable {count i : ℕ} {curve : UniformPrefixCurve} {planner : PackedUniformProfilePlanner}
  {additional : UInt64} {profile : SaltV2Profile} {cost : PhysicalBytes}
  {groups : List GroupCandidates} {bundles : List CompactBundledUpgrade}
  {units : List CompactUnitUpgrade} {limit : ProfileBudget} {levels : ℕ → ℕ} {floors : List ℕ}

/-! ### Curves as candidate groups -/

/-- Candidates with given distortions, all at one byte delta. -/
def candidatesFrom (delta : ByteDelta) : ℕ → List F64 → List PlaneCandidate
  | _, [] => []
  | planes, distortion :: rest =>
    ⟨planes, delta, distortion⟩ :: candidatesFrom delta (planes + 1) rest

theorem candidatesFrom_distortions (delta : ByteDelta) (planes : ℕ) (distortions : List F64) :
    (candidatesFrom delta planes distortions).map PlaneCandidate.distortion = distortions := by
  induction distortions generalizing planes with
  | nil => rfl
  | cons distortion rest ih => rw [candidatesFrom, map_cons, ih]

theorem checkDistortions_eq (delta : ByteDelta) (group planes : ℕ) (previous : Option F64)
    (distortions : List F64) :
    checkDistortions group planes previous distortions =
      validateCandidates group planes previous (candidatesFrom delta planes distortions) := by
  induction distortions generalizing planes previous with
  | nil => rfl
  | cons distortion rest ih =>
    have hrange : (!distortion.isFinite || F64.lt distortion F64.zero) =
        !(distortion.isFinite && F64.le F64.zero distortion) := by
      cases hfinite : distortion.isFinite with
      | false => rfl
      | true =>
        have hnan := F64.not_isNaN_of_isFinite hfinite
        simp [F64.lt, F64.le, hnan, F64.zero_not_isNaN, ← decide_not]
    rw [checkDistortions, candidatesFrom, validateCandidates, hrange, ih]
    simp

/-- The candidate group with the distortions of a curve; its bytes play no part here. -/
def UniformPrefixCurve.group (curve : UniformPrefixCurve) : GroupCandidates :=
  ⟨candidatesFrom ⟨PhysicalBytes.zero, none⟩ 1 curve.distortions⟩

theorem UniformPrefixCurve.validGroup (curve : UniformPrefixCurve) : ValidGroup curve.group := by
  have haccepted := curve.accepted
  rw [checkDistortions_eq ⟨PhysicalBytes.zero, none⟩] at haccepted
  obtain ⟨hnonneg, _, hantitone⟩ := validateCandidates_spec haccepted (by simp)
  refine ⟨?_, hnonneg, hantitone⟩
  rw [UniformPrefixCurve.group, ← length_map (f := PlaneCandidate.distortion),
    candidatesFrom_distortions, curve.length_eq]
  rfl

theorem validateCurveAt_eq (curve : UniformPrefixCurve) (group : ℕ) :
    validateCurveAt curve group = .ok () := by
  have hcheck : ∀ (distortions : List F64) (planes : ℕ) (previous : Option F64),
      checkDistortions 0 planes previous distortions = .ok () →
      checkDistortions group planes previous distortions = .ok () := by
    intro distortions
    induction distortions with
    | nil => exact fun _ _ _ => rfl
    | cons distortion rest ih =>
      intro planes previous haccepted
      rw [checkDistortions] at haccepted ⊢
      split_ifs at haccepted ⊢
      exact ih _ _ haccepted
  exact hcheck _ _ _ curve.accepted

theorem UniformPrefixCurve.exists_distortion (curve : UniformPrefixCurve) {planes : ℕ}
    (hpos : 1 ≤ planes) (hle : planes ≤ saltV2Planes) :
    ∃ distortion : F64, (∀ E, (Outcome.index curve.distortions (planes - 1) : Outcome E F64) =
        .ok distortion) ∧ distortion.IsNonneg ∧
      distortion.units = groupDistortion curve.group planes := by
  obtain ⟨candidate, hmem, hget⟩ := curve.validGroup.exists_getElem? hpos hle
  have hindex : curve.distortions[planes - 1]? = some candidate.distortion := by
    rw [← candidatesFrom_distortions ⟨PhysicalBytes.zero, none⟩ 1 curve.distortions, getElem?_map]
    exact congrArg (Option.map PlaneCandidate.distortion) hget
  refine ⟨candidate.distortion, fun E => ?_, curve.validGroup.isNonneg candidate hmem, ?_⟩
  · rw [Outcome.index, hindex, expect_some]
  · rw [groupDistortion, hget]
    rfl

theorem foldl_pushUnit (group : UInt32) (reduction : ℕ → ExactReduction) (targets : List ℕ)
    (upgrades : List CompactUnitUpgrade) :
    targets.foldl (fun upgrades planes =>
        pushUnit upgrades group (UInt8.ofNat planes) (reduction planes)) upgrades =
      upgrades ++ (targets.filter fun planes => !(RankedUpgrade.reduction (CompactUnitUpgrade.mk
        (reduction planes) group (UInt8.ofNat planes))).isZero).map
        fun planes => CompactUnitUpgrade.mk (reduction planes) group (UInt8.ofNat planes) := by
  induction targets generalizing upgrades with
  | nil => exact (append_nil upgrades).symm
  | cons planes targets ih =>
    rw [foldl_cons, ih, pushUnit]
    by_cases hzero : (reduction planes).isZero = true
    · rw [if_pos hzero, filter_cons_of_neg (by simpa [RankedUpgrade.reduction] using hzero)]
    · rw [if_neg hzero, filter_cons_of_pos (by simpa [RankedUpgrade.reduction] using hzero),
        append_assoc]
      rfl

theorem Curves.Offers.push {c : Curves} {moreUnits : List CompactUnitUpgrade}
    {moreBundles : List CompactBundledUpgrade} (hoffers : c.Offers (Set.Iio count) units bundles)
    (hnext : c.Offers {count} moreUnits moreBundles) :
    c.Offers (Set.Iio (count + 1)) (units ++ moreUnits) (bundles ++ moreBundles) := by
  have hmembers : Set.Iio (count + 1) = Set.Iio count ∪ {count} := by
    ext i
    simp only [Set.mem_Iio, Set.mem_union, Set.mem_singleton_iff]
    omega
  rw [hmembers]
  exact hoffers.append hnext (by simp)

/-- Pushing the planes above a floor offers what the curve has there. -/
theorem Curves.Offers.pushUnits {c : Curves} (hcount : count < 2 ^ 32)
    (hoffers : c.Offers (Set.Iio count) units bundles) (hbundled : ¬c.Bundled count)
    (reduction : ℕ → ExactReduction) (hreduction : ∀ planes, c.floor count < planes →
      planes ≤ c.ceiling count →
      (reduction planes).toNat = c.distortion count (planes - 1) - c.distortion count planes) :
    c.Offers (Set.Iio (count + 1))
      ((range' (c.floor count + 1) (c.ceiling count - c.floor count)).foldl (fun upgrades planes =>
          pushUnit upgrades (UInt32.ofNat count) (UInt8.ofNat planes) (reduction planes)) units)
      bundles := by
  rw [foldl_pushUnit, ← append_nil bundles]
  refine hoffers.push (Curves.Offers.ofTargets hbundled (fun planes hfloor hceiling => ?_) rfl)
  have hle : planes ≤ 3 := hceiling.trans (c.ceiling_le count)
  refine ⟨?_, ?_, hreduction planes hfloor hceiling⟩
  · exact Nat.mod_eq_of_lt hcount
  · exact Nat.mod_eq_of_lt (show planes < 256 by omega)

section Planner

variable {curves : List UniformPrefixCurve} {floors : PackedPlaneCounts} {ceiling : UInt8}

theorem curveGroups_valid (curves : List UniformPrefixCurve) :
    ∀ group ∈ curves.map UniformPrefixCurve.group, ValidGroup group := by
  intro group hgroup
  obtain ⟨curve, _, rfl⟩ := mem_map.mp hgroup
  exact curve.validGroup

variable (hfloors : FloorsBelow (curves.map UniformPrefixCurve.group) floors.decode ceiling.toNat)

/-- The curves a planner is fed, between its floors and its ceiling. -/
def plannedCurves : Curves := groupCurves (curveGroups_valid curves) hfloors

theorem plannedCurves_count : (plannedCurves hfloors).count = curves.length := length_map ..

include hfloors in
theorem floors_len : floors.len.toNat = curves.length := by
  have hlength := hfloors.length_eq
  simpa [PackedPlaneCounts.decode] using hlength

theorem plannedCurves_floor (hi : i < curves.length) :
    ∃ floor : UInt8, floors.get (UInt64.ofNat i) = some floor ∧
      floor.toNat = (plannedCurves hfloors).floor i := by
  have hlen : i < floors.len.toNat := (floors_len hfloors).symm ▸ hi
  obtain ⟨byte, hbyte⟩ := PackedPlaneCounts.exists_byte hlen
  have hget := PackedPlaneCounts.get_eq hlen hbyte
  refine ⟨_, hget, ?_⟩
  change _ = floors.decode.getD i 1
  rw [getD_eq_getElem _ _ (by simpa [PackedPlaneCounts.decode] using hlen)]
  simp [PackedPlaneCounts.decode, hget]

theorem plannedCurves_distortion (hcurve : curves[i]? = some curve) (planes : ℕ) :
    (plannedCurves hfloors).distortion i planes = groupDistortion curve.group planes := by
  change (curves.map UniformPrefixCurve.group)[i]?.elim 0 _ = _
  rw [getElem?_map, hcurve]
  rfl

theorem exactReduction_curve
    (hcurve : curves[i]? = some curve) {low high : ℕ} (hlow : 1 ≤ low) (hle : low ≤ high)
    (hhigh : high ≤ saltV2Planes) (profile : SaltV2Profile) {fromValue toValue : F64}
    (hfrom : fromValue.IsNonneg ∧ fromValue.units = groupDistortion curve.group low)
    (hto : toValue.IsNonneg ∧ toValue.units = groupDistortion curve.group high) :
    ∃ reduction, exactReduction fromValue toValue profile = .ok reduction ∧
      reduction.toNat = (plannedCurves hfloors).distortion i low -
        (plannedCurves hfloors).distortion i high := by
  have hantitone := curve.validGroup.groupDistortion_antitone hlow hle hhigh
  obtain ⟨reduction, hreduction, htoNat⟩ := exactReduction_eq hfrom.1 hto.1 (by omega) profile
  refine ⟨reduction, hreduction, ?_⟩
  rw [htoNat, hfrom.2, hto.2, plannedCurves_distortion hfloors hcurve,
    plannedCurves_distortion hfloors hcurve]

theorem pushUpgrades_eq (hceiling : planner.ceiling = ceiling) (hcount : count < 2 ^ 32)
    (hoffers : (plannedCurves hfloors).Offers (Set.Iio count) planner.unitUpgrades
      planner.bundledUpgrades) (hcurve : curves[count]? = some curve)
    {floor : UInt8} (hfloor : floor.toNat = (plannedCurves hfloors).floor count) :
    ∃ units bundles, planner.pushUpgrades curve floor (UInt32.ofNat count) = .ok (units, bundles) ∧
      (plannedCurves hfloors).Offers (Set.Iio (count + 1)) units bundles := by
  obtain ⟨d₁, hindex₁, hd₁⟩ := curve.exists_distortion (le_refl 1) (show 1 ≤ 3 by omega)
  obtain ⟨d₂, hindex₂, hd₂⟩ := curve.exists_distortion (show 1 ≤ 2 by omega) (show 2 ≤ 3 by omega)
  obtain ⟨d₃, hindex₃, hd₃⟩ := curve.exists_distortion (show 1 ≤ 3 by omega) (le_refl 3)
  obtain ⟨first, hfirst, hfirstNat⟩ := exactReduction_curve hfloors hcurve (le_refl 1)
    (show 1 ≤ 2 by omega) (show 2 ≤ 3 by omega) planner.profile hd₁ hd₂
  obtain ⟨second, hsecond, hsecondNat⟩ := exactReduction_curve hfloors hcurve
    (show 1 ≤ 2 by omega) (show 2 ≤ 3 by omega) (le_refl 3) planner.profile hd₂ hd₃
  obtain ⟨both, hboth, hbothNat⟩ := exactReduction_curve hfloors hcurve (le_refl 1)
    (show 1 ≤ 3 by omega) (le_refl 3) planner.profile hd₁ hd₃
  set c := plannedCurves hfloors
  have hpos := c.floor_pos count
  have htop : c.ceiling count = ceiling.toNat := rfl
  have hceilingLe : ceiling.toNat ≤ 3 := hfloors.ceiling_le
  have hunits := hoffers.pushUnits hcount
  simp only [PackedUniformProfilePlanner.pushUpgrades, hindex₁, hindex₂, hindex₃, ok_bind,
    hceiling, hfirst, hsecond, hboth]
  have hone : floor = 1 ↔ c.floor count = 1 := by
    rw [← hfloor, ← UInt8.toNat_inj]
    rfl
  have htwo : ceiling = 2 ↔ c.ceiling count = 2 := by
    rw [← UInt8.toNat_inj]
    rfl
  have hreach : ceiling ≤ floor ↔ c.ceiling count ≤ c.floor count := by
    rw [UInt8.le_iff_toNat_le, hfloor, htop]
  by_cases hcapped : floor = 1 ∧ ceiling = 2
  · have hfloorOne := hone.mp hcapped.1
    have hceilingTwo := htwo.mp hcapped.2
    have hoffered := hunits (fun hbundled => by have hthree := hbundled.2.1; omega)
      (fun _ => first) (fun planes hlow hhigh => by
        obtain rfl : planes = 2 := by omega
        exact hfirstNat)
    rw [hfloorOne, hceilingTwo] at hoffered
    rw [if_pos hcapped]
    exact ⟨_, _, rfl, hoffered⟩
  · rw [if_neg hcapped]
    by_cases hnone : ceiling ≤ floor
    · have hequal := hreach.mp hnone
      have hoffered := hunits
        (fun hbundled => by have hthree := hbundled.2.1; have := hbundled.1; omega)
        (fun _ => first) (fun planes hlow hhigh => by omega)
      rw [show c.ceiling count - c.floor count = 0 by omega] at hoffered
      rw [if_pos hnone]
      exact ⟨_, _, rfl, hoffered⟩
    · have habove := hreach.not.mp hnone
      rw [if_neg hnone]
      by_cases hfloorOne : floor = 1
      · have hfloorEq := hone.mp hfloorOne
        have hthree : c.ceiling count = 3 := by
          have hne : c.ceiling count ≠ 2 := fun heq => hcapped ⟨hfloorOne, htwo.mpr heq⟩
          omega
        have hcmp : second.cmp first = .gt ↔ c.Bundled count := by
          have hlow := c.antitone count 1 2 le_rfl (by omega) (by decide)
          rw [ExactReduction.cmp_eq, compare_gt_iff_gt, Curves.Bundled]
          omega
        rw [if_pos hfloorOne]
        by_cases hbundled : c.Bundled count
        · rw [if_pos (hcmp.mpr hbundled)]
          refine ⟨_, _, rfl, ?_⟩
          rw [← append_nil planner.unitUpgrades]
          exact hoffers.push (Curves.Offers.ofBundle (Nat.mod_eq_of_lt hcount) hbundled hbothNat
            hfirstNat)
        · have hoffered := hunits hbundled (fun planes => if planes = 2 then first else second)
            (fun planes hlow hhigh => by
              obtain rfl | rfl : planes = 2 ∨ planes = 3 := by omega
              · exact hfirstNat
              · exact hsecondNat)
          rw [hfloorEq, hthree] at hoffered
          rw [if_neg (hcmp.not.mpr hbundled)]
          exact ⟨_, _, rfl, hoffered⟩
      · have hfloorTwo : c.floor count = 2 := by
          have hne := hone.not.mp hfloorOne
          omega
        have hceilingThree : c.ceiling count = 3 := by omega
        have hoffered := hunits (fun hbundled => by have := hbundled.1; omega) (fun _ => second)
          (fun planes hlow hhigh => by
            obtain rfl : planes = 3 := by omega
            exact hsecondNat)
        rw [hfloorTwo, hceilingThree] at hoffered
        rw [if_neg hfloorOne,
          if_pos (show floor = 2 from UInt8.toNat_inj.mp (hfloor.trans hfloorTwo))]
        exact ⟨_, _, rfl, hoffered⟩

/-- What a planner knows after `count` curves. -/
structure Collected (additional : UInt64) (profile : SaltV2Profile) (count : ℕ)
    (planner : PackedUniformProfilePlanner) : Prop where
  expected_eq : planner.expectedGroups = floors.len
  floors_eq : planner.floors = floors
  capacity_eq : planner.additionalCapacity = additional
  profile_eq : planner.profile = profile
  ceiling_eq : planner.ceiling = ceiling
  observed_eq : planner.observedGroups.toNat = count
  offers : (plannedCurves hfloors).Offers (Set.Iio count) planner.unitUpgrades
    planner.bundledUpgrades
  distortion_eq : planner.floorDistortion.toNat =
    ∑ i ∈ Finset.range count, (plannedCurves hfloors).distortion i ((plannedCurves hfloors).floor i)
  available_eq : planner.availableUpgrades =
    ∑ i ∈ Finset.range count, (ceiling.toNat - (plannedCurves hfloors).floor i)

theorem sum_distortion_le (count : ℕ) :
    ∑ i ∈ Finset.range count, (plannedCurves hfloors).distortion i
      ((plannedCurves hfloors).floor i) ≤ count * 2 ^ F64.valueBits := by
  have hle := Finset.sum_le_card_nsmul (Finset.range count) (fun i =>
    (plannedCurves hfloors).distortion i ((plannedCurves hfloors).floor i)) (2 ^ F64.valueBits)
    fun i _ => ((plannedCurves hfloors).distortion_lt i _).le
  rwa [Finset.card_range] at hle

theorem Collected.push (hplanner : Collected hfloors additional profile count planner)
    (hcurves : curves.length < 2 ^ 32) (hcurve : curves[count]? = some curve) :
    ∃ next, planner.push curve = .ok next ∧
      Collected hfloors additional profile (count + 1) next := by
  have hcount : count < curves.length := (List.getElem?_eq_some_iff.mp hcurve).1
  have hlen := floors_len hfloors
  have hobserved : planner.observedGroups = UInt64.ofNat count := by
    apply UInt64.toNat_inj.mp
    rw [hplanner.observed_eq, UInt64.toNat_ofNat', Nat.mod_eq_of_lt (by omega)]
  have hroom : planner.observedGroups ≠ planner.expectedGroups := by
    rw [hplanner.expected_eq, Ne, ← UInt64.toNat_inj, hplanner.observed_eq]
    omega
  obtain ⟨floor, hget, hfloor⟩ := plannedCurves_floor hfloors hcount
  have hpos := (plannedCurves hfloors).floor_pos count
  have hle : floor.toNat ≤ ceiling.toNat := hfloor ▸ (plannedCurves hfloors).floor_le count
  have hceilingLe : ceiling.toNat ≤ 3 := hfloors.ceiling_le
  obtain ⟨distortion, hindex, hnonneg, hunits⟩ := curve.exists_distortion
    (show 1 ≤ floor.toNat by omega) (show floor.toNat ≤ 3 by omega)
  rw [hfloor, ← plannedCurves_distortion hfloors hcurve] at hunits
  obtain ⟨exact, hexact, hexactNat⟩ := ExactDistortion.fromF64_of_isNonneg hnonneg
  obtain ⟨sum, hsum⟩ : ∃ sum, planner.floorDistortion.checkedAddF64 distortion = some sum := by
    rw [ExactDistortion.checkedAddF64, hexact]
    apply ExactDistortion.exists_checkedAdd
    rw [hplanner.distortion_eq, hexactNat, hunits, ← Finset.sum_range_succ]
    calc _ ≤ (count + 1) * 2 ^ F64.valueBits := sum_distortion_le hfloors (count + 1)
      _ ≤ 2 ^ 62 * 2 ^ F64.valueBits := Nat.mul_le_mul_right _ (by omega)
      _ < ExactDistortion.capacity := by
          rw [ExactDistortion.capacity, Limbs.radix, ← pow_add, ← pow_mul]
          exact Nat.pow_lt_pow_right (by omega) (by decide)
  have havailable : planner.availableUpgrades ≤ count * 3 := by
    rw [hplanner.available_eq]
    have hbound := Finset.sum_le_card_nsmul (Finset.range count)
      (fun i => ceiling.toNat - (plannedCurves hfloors).floor i) 3 fun i _ => by omega
    rwa [Finset.card_range] at hbound
  obtain ⟨units, bundles, hupgrades, hoffers⟩ := pushUpgrades_eq hfloors hplanner.ceiling_eq
    (by omega) hplanner.offers hcurve hfloor
  refine ⟨{ planner with
    floorDistortion := sum
    availableUpgrades := planner.availableUpgrades + (ceiling.toNat - floor.toNat)
    unitUpgrades := units
    bundledUpgrades := bundles
    observedGroups := planner.observedGroups + 1 }, ?_, ?_⟩
  · have hnot : ¬planner.ceiling < floor := by
      rw [hplanner.ceiling_eq, UInt8.lt_iff_toNat_lt]
      omega
    have hgetPlanner : planner.floors.get planner.observedGroups = some floor := by
      rw [hplanner.floors_eq, hobserved, hget]
    rw [PackedUniformProfilePlanner.push, if_neg hroom]
    dsimp only
    rw [validateCurveAt_eq, mapErr_ok, ok_bind, hgetPlanner, okOr_bind, hindex, ok_bind, hsum,
      okOr_bind, if_neg hnot, hplanner.ceiling_eq, checkedAddUsize, if_pos (by omega), okOr_bind,
      hplanner.observed_eq, if_pos (by omega), expect_some, ok_bind, hupgrades]
    rfl
  · refine ⟨hplanner.expected_eq, hplanner.floors_eq, hplanner.capacity_eq, hplanner.profile_eq,
      hplanner.ceiling_eq, ?_, hoffers, ?_, ?_⟩
    · rw [UInt64.toNat_add, hplanner.observed_eq]
      exact Nat.mod_eq_of_lt (by change count + 1 < 2 ^ 64; omega)
    · rw [Finset.sum_range_succ, ← hplanner.distortion_eq, ← hunits]
      exact (ExactDistortion.checkedAddF64_eq_some_iff.mp hsum).2
    · rw [Finset.sum_range_succ, ← hplanner.available_eq, ← hfloor]

theorem Collected.pushAll (hcurves : curves.length < 2 ^ 32) (rest : List UniformPrefixCurve)
    (hrest : curves.drop count = rest)
    (hplanner : Collected hfloors additional profile count planner)
    (hcount : count ≤ curves.length) :
    ∃ last, rest.foldlM PackedUniformProfilePlanner.push planner = .ok last ∧
      Collected hfloors additional profile curves.length last := by
  induction rest generalizing count planner with
  | nil =>
    have hall : count = curves.length := hcount.antisymm (drop_eq_nil_iff.mp hrest)
    exact ⟨planner, rfl, hall ▸ hplanner⟩
  | cons curve rest ih =>
    have hlt : count < curves.length := by
      by_contra hnot
      rw [drop_of_length_le (by omega)] at hrest
      cases hrest
    rw [drop_eq_getElem_cons hlt, cons.injEq] at hrest
    obtain ⟨rfl, htail⟩ := hrest
    obtain ⟨next, hnext, hcollected⟩ := hplanner.push hfloors hcurves
      (getElem?_eq_getElem hlt)
    obtain ⟨last, hlast, hdone⟩ := ih htail hcollected hlt
    refine ⟨last, ?_, hdone⟩
    rw [foldlM_cons, hnext, ok_bind, hlast]

def upgradesAbove (floors planeCounts : List ℕ) : ℕ :=
  (zipWith (fun floor planes => planes - floor) floors planeCounts).sum

theorem upgradesAbove_raisedFloors (levels : ℕ → ℕ) :
    upgradesAbove floors.decode
        (raisedFloors (curves.map UniformPrefixCurve.group) floors.decode levels) =
      (plannedCurves hfloors).problem.weight levels := by
  rw [upgradesAbove, raisedFloors, ← hfloors.length_eq, sum_zipWith_range, hfloors.length_eq]
  refine Finset.sum_congr rfl fun i hi => ?_
  have hlt : i < floors.decode.length := hfloors.length_eq ▸ Finset.mem_range.mp hi
  rw [getElem?_eq_getElem hlt, getD_eq_getElem _ _ hlt]
  simp

/-- What an allocation says about the plane vector it holds. -/
structure Reports (floors : PackedPlaneCounts) (planeCounts : List ℕ) (value : F64)
    (allocation : PackedUniformProfileAllocation) : Prop where
  decode_eq : allocation.planeCounts.decode = planeCounts
  present_eq : allocation.presentPlanes.toNat = planeCounts.sum
  selected_eq : allocation.selectedUpgrades.toNat = upgradesAbove floors.decode planeCounts
  distortion_eq : allocation.totalDistortion = value

/-- A run answers with a plane vector: it allocates that vector, unless the distortion the vector
leaves rounds beyond the finite numbers. -/
def Answers (floors : PackedPlaneCounts) (profile : SaltV2Profile)
    (curves : List UniformPrefixCurve) (planeCounts : List ℕ)
    (run : Outcome (UniformProfileAllocError Empty) PackedUniformProfileAllocation) : Prop :=
  ∃ total : ExactDistortion,
    total.toNat = totalDistortion (curves.map UniformPrefixCurve.group) planeCounts ∧
    (∀ value, total.toF64 = some value → ∃ allocation, run = .ok allocation ∧
      Reports floors planeCounts value allocation) ∧
    (total.toF64 = none → run = .err (.allocation (.accountingOverflow profile)))

theorem holds_floors : PackedPlaneCounts.Holds floors.len floors (plannedCurves hfloors).floor := by
  have hlen := floors_len hfloors
  refine ⟨rfl, fun i hi => ?_, fun i hi => ?_⟩
  · exact ⟨(plannedCurves hfloors).floor_pos i,
      ((plannedCurves hfloors).floor_le i).trans ((plannedCurves hfloors).ceiling_le i)⟩
  · obtain ⟨floor, hget, hfloor⟩ := plannedCurves_floor hfloors (hlen ▸ hi)
    rw [hget, ← hfloor, UInt8.ofNat_toNat]

theorem weight_le_sum_top (hlevels : ∀ i, levels i ≤ (plannedCurves hfloors).problem.top i) :
    (plannedCurves hfloors).problem.weight levels ≤
      ∑ i ∈ Finset.range curves.length, (ceiling.toNat - (plannedCurves hfloors).floor i) := by
  rw [← plannedCurves_count hfloors]
  refine Finset.sum_le_sum fun i hi => ?_
  have hle := hlevels i
  rwa [Curves.top_of_lt (Finset.mem_range.mp hi)] at hle

/-- **Finishing a fed planner.** It answers with the greatest levels of its curves. -/
theorem Collected.finish (hcurves : curves.length < 2 ^ 32)
    (hplanner : Collected hfloors additional profile curves.length planner) :
    ∃ levels, (plannedCurves hfloors).problem.IsGreatest additional.toNat levels ∧
      Answers floors profile curves (raisedFloors (curves.map UniformPrefixCurve.group)
        floors.decode levels) planner.finish := by
  have hlen := floors_len hfloors
  have hoffers := hplanner.offers
  rw [← plannedCurves_count hfloors] at hoffers
  have hcount : (plannedCurves hfloors).count < 2 ^ 60 := by
    rw [plannedCurves_count]
    omega
  obtain ⟨indexes, hindexes, hunits, hbundles, hranks⟩ := hoffers.sorted.buildIndexes_eq hcount
    profile
  obtain ⟨choice, hchoice, hcounted, hgreatest⟩ := bestRegularChoice_isGreatest hranks profile
    (min additional.toNat planner.availableUpgrades)
  obtain ⟨reduction, hreduction, hvalue⟩ := regularReduction_eq hranks profile hcounted.valid
  have hput : ∀ planeCounts counts i planes, PackedPlaneCounts.Holds floors.len planeCounts counts →
      i < (plannedCurves hfloors).count → 1 ≤ planes → planes ≤ saltV2Planes →
      ∃ written, PackedPlaneCounts.set planeCounts (UInt64.ofNat i) (UInt8.ofNat planes) =
        .ok written ∧ PackedPlaneCounts.Holds floors.len written
          (Function.update counts i planes) := by
    intro planeCounts counts i planes hholds hi hpos hle
    rw [plannedCurves_count, ← hlen] at hi
    exact hholds.set hi hpos hle
  obtain ⟨planeCounts, happly, hholds⟩ := hoffers.sorted.applyChoice_eq hput hunits hbundles
    hcounted.valid (holds_floors hfloors)
  obtain ⟨present, hpresent, hpresentSum⟩ := hholds.presentPlanes_eq (by omega)
  have hwithin := hgreatest.feasible.le_top
  have hselected := hcounted.weight_eq
  generalize hlevels : regularLevels hoffers.sorted.ranking choice = levels at *
  have hdistortion : totalDistortion (curves.map UniformPrefixCurve.group)
        (raisedFloors (curves.map UniformPrefixCurve.group) floors.decode levels) +
          (plannedCurves hfloors).problem.value levels =
        totalDistortion (curves.map UniformPrefixCurve.group) floors.decode :=
    totalDistortion_raisedFloors (curveGroups_valid curves) hfloors hwithin
  have hfloorSum : planner.floorDistortion.toNat =
      totalDistortion (curves.map UniformPrefixCurve.group) floors.decode := by
    rw [hplanner.distortion_eq, totalDistortion_floors (curveGroups_valid curves) hfloors,
      length_map]
    rfl
  obtain ⟨total, htotal⟩ := ExactDistortion.exists_checkedSub planner.floorDistortion reduction (by
    omega)
  have htotalNat := ExactDistortion.checkedSub_eq_some_iff.mp htotal
  have havailable := hplanner.available_eq
  have hselectedLt : choice.hull.upgrades + choice.exceptionalBundleRank.isSome.toNat < 2 ^ 64 := by
    have hle := hgreatest.feasible.weight_le
    have hcapacity := UInt64.toNat_lt additional
    omega
  have hfinish : planner.finish = (okOr total.toF64 (.accountingOverflow profile) >>=
      fun value => .ok (PackedUniformProfileAllocation.mk planeCounts (UInt64.ofNat
        (choice.hull.upgrades + choice.exceptionalBundleRank.isSome.toNat)) value present)).mapErr
      .allocation := by
    have hobserved : planner.observedGroups = planner.expectedGroups := by
      apply UInt64.toNat_inj.mp
      rw [hplanner.observed_eq, hplanner.expected_eq, hlen]
    rw [PackedUniformProfilePlanner.finish, if_neg (not_not.mpr hobserved), hplanner.floors_eq,
      hplanner.capacity_eq, hplanner.profile_eq, finishUniformProfile, hindexes, ok_bind]
    dsimp only
    rw [hchoice, ok_bind, checkedAddUsize, if_pos hselectedLt, okOr_bind, hreduction, ok_bind,
      htotal, Option.bind_some]
    cases total.toF64 with
    | none => rfl
    | some value =>
      rw [okOr_bind, happly, ok_bind, hpresent]
      rfl
  refine ⟨levels, hgreatest.of_capacity fun other hother => ?_, total, by omega, fun value hrounds =>
    ?_, fun hrounds => ?_⟩
  · have hle := weight_le_sum_top hfloors hother
    omega
  · rw [hrounds] at hfinish
    refine ⟨_, hfinish, ?_, ?_, ?_, rfl⟩
    · rw [hholds.decode_eq, hlen, raisedFloors, length_map]
      rfl
    · rw [hpresentSum, raisedFloors, hlen, length_map]
      rfl
    · rw [upgradesAbove_raisedFloors hfloors, hselected]
      exact Nat.mod_eq_of_lt hselectedLt
  · rw [hrounds] at hfinish
    exact hfinish

/-- Feeds a planner all its curves and finishes it. -/
def runPlanner (start : Outcome (UniformProfileAllocError Empty) PackedUniformProfilePlanner)
    (curves : List UniformPrefixCurve) :
    Outcome (UniformProfileAllocError Empty) PackedUniformProfileAllocation := do
  let planner ← start
  let planner ← curves.foldlM PackedUniformProfilePlanner.push planner
  planner.finish

theorem runPlanner_answers (hcurves : curves.length < 2 ^ 32) (additional : UInt64)
    (profile : SaltV2Profile) :
    ∃ levels, (plannedCurves hfloors).problem.IsGreatest additional.toNat levels ∧
      Answers floors profile curves
        (raisedFloors (curves.map UniformPrefixCurve.group) floors.decode levels)
        (runPlanner (PackedUniformProfilePlanner.newWithCeiling floors.len floors additional profile
          ceiling) curves) := by
  have hlen := floors_len hfloors
  have hceilingPos : 1 ≤ ceiling.toNat := hfloors.ceiling_pos
  have hceilingLe : ceiling.toNat ≤ 3 := hfloors.ceiling_le
  have hnew : PackedUniformProfilePlanner.newWithCeiling floors.len floors additional profile
      ceiling = .ok ⟨floors.len, floors, additional, profile, 0, [], [], ExactDistortion.zero, 0,
        ceiling⟩ := by
    have hbounds : (!decide (1 ≤ ceiling ∧ ceiling ≤ 3)) = false := by
      rw [Bool.not_eq_false', decide_eq_true_iff]
      exact ⟨hceilingPos, hceilingLe⟩
    rw [PackedUniformProfilePlanner.newWithCeiling, hbounds, if_neg Bool.false_ne_true,
      if_neg (not_not.mpr rfl), if_neg (by omega)]
  have hstart : Collected hfloors additional profile 0 ⟨floors.len, floors, additional, profile, 0,
      [], [], ExactDistortion.zero, 0, ceiling⟩ := by
    refine ⟨rfl, rfl, rfl, rfl, rfl, rfl, ?_, ExactDistortion.zero_toNat, rfl⟩
    have hempty : Set.Iio 0 = (∅ : Set ℕ) := by
      simp
    rw [hempty]
    exact Curves.Offers.empty
  obtain ⟨last, hlast, hdone⟩ := hstart.pushAll hfloors hcurves curves rfl (Nat.zero_le _)
  have hrun : runPlanner (PackedUniformProfilePlanner.newWithCeiling floors.len floors additional
      profile ceiling) curves = last.finish := by
    rw [runPlanner, hnew, ok_bind, hlast, ok_bind]
  rw [hrun]
  exact hdone.finish hfloors hcurves

end Planner

/-! ### Agreement with the regular allocator -/

/-- A candidate group with the distortions of a curve and one cost for every plane. -/
structure Realizes (cost : PhysicalBytes) (group : GroupCandidates) (curve : UniformPrefixCurve) :
    Prop where
  planes_eq : group.candidates.map PlaneCandidate.planes = [1, 2, 3]
  distortions_eq : group.candidates.map PlaneCandidate.distortion = curve.distortions
  cost_eq : ∀ candidate ∈ group.candidates, candidate.byteDelta.effective = cost

/-- The budget leaves exactly `additional` bytes above the floors in the one domain that planes
cost a byte in, and at least the floors in the other. -/
def LeavesExactly (groups : List GroupCandidates) (floors : List ℕ) (limit : ProfileBudget)
    (additional : UInt64) (cost : PhysicalBytes) : Prop :=
  cost = ⟨1, 0⟩ ∧
      totalBytes PhysicalBytes.serialized groups limit.metadata floors + additional.toNat =
        limit.maximum.serialized.toNat ∧
      totalBytes PhysicalBytes.resident groups limit.metadata floors ≤
        limit.maximum.resident.toNat ∨ cost = ⟨0, 1⟩ ∧
      totalBytes PhysicalBytes.serialized groups limit.metadata floors ≤
        limit.maximum.serialized.toNat ∧
      totalBytes PhysicalBytes.resident groups limit.metadata floors + additional.toNat =
        limit.maximum.resident.toNat

theorem groupDistortion_eq_of_distortions {left right : GroupCandidates}
    (hsame : left.candidates.map PlaneCandidate.distortion =
      right.candidates.map PlaneCandidate.distortion) (planes : ℕ) :
    groupDistortion left planes = groupDistortion right planes := by
  have hget := congrArg (fun distortions : List F64 => distortions[planes - 1]?.map F64.units) hsame
  simp only [getElem?_map, Option.map_map] at hget
  exact congrArg (Option.getD · 0) hget

theorem Realizes.distortions {group : GroupCandidates} (hrealizes : Realizes cost group curve) :
    group.candidates.map PlaneCandidate.distortion =
      curve.group.candidates.map PlaneCandidate.distortion :=
  hrealizes.distortions_eq.trans (candidatesFrom_distortions _ _ _).symm

theorem Realizes.validGroup {group : GroupCandidates}
    (hrealizes : Realizes cost group curve) : ValidGroup group := by
  have hsame := hrealizes.distortions
  have hcurve := curve.validGroup
  refine ⟨?_, fun candidate hcandidate => ?_, ?_⟩
  · rw [← length_map (f := PlaneCandidate.distortion), hsame, length_map, hcurve.length_eq]
  · have hmem := mem_map_of_mem (f := PlaneCandidate.distortion) hcandidate
    rw [hsame] at hmem
    obtain ⟨other, hother, heq⟩ := mem_map.mp hmem
    exact heq ▸ hcurve.isNonneg other hother
  · have hpairwise : (curve.group.candidates.map PlaneCandidate.distortion).Pairwise
        fun left right => right.units ≤ left.units := pairwise_map.mpr hcurve.antitone
    rw [← hsame] at hpairwise
    exact pairwise_map.mp hpairwise

theorem groupCurves_eq {others : List GroupCandidates} {floors : List ℕ} {ceiling : ℕ}
    (hgroups : ∀ group ∈ groups, ValidGroup group) (hothers : ∀ group ∈ others, ValidGroup group)
    (hsame : Forall₂ (fun left right : GroupCandidates =>
      left.candidates.map PlaneCandidate.distortion =
        right.candidates.map PlaneCandidate.distortion) groups others)
    (hfloors : FloorsBelow groups floors ceiling) (hfloors' : FloorsBelow others floors ceiling) :
    groupCurves hgroups hfloors = groupCurves hothers hfloors' := by
  have hlength := hsame.length_eq
  have hdistortion : (fun i planes : ℕ => (groups[i]?).elim 0 fun group =>
      groupDistortion group planes) = fun i planes : ℕ => (others[i]?).elim 0 fun group =>
      groupDistortion group planes := by
    funext i planes
    rcases lt_or_ge i groups.length with hi | hi
    · rw [getElem?_eq_getElem hi, getElem?_eq_getElem (hlength ▸ hi)]
      exact groupDistortion_eq_of_distortions
        ((forall₂_iff_get.mp hsame).2 i hi (hlength ▸ hi)) planes
    · rw [getElem?_eq_none hi, getElem?_eq_none (hlength ▸ hi)]
  simp only [groupCurves, hlength, hdistortion]

theorem Realizes.uniformDelta
    {curves : List UniformPrefixCurve} (hrealizes : Forall₂ (Realizes cost) groups curves)
    (floors : List ℕ) : UniformDelta groups floors cost := by
  intro entry hentry candidate hcandidate
  obtain ⟨i, hi, hget⟩ := getElem_of_mem (of_mem_zip hentry).1
  have hcurve := (forall₂_iff_get.mp hrealizes).2 i hi (hrealizes.length_eq ▸ hi)
  refine hcurve.cost_eq candidate ?_
  rw [get_eq_getElem, hget]
  exact mem_of_mem_drop hcandidate

theorem LeavesExactly.feasible (hleaves : LeavesExactly groups floors limit additional cost)
    (hfloors : FloorsBelow groups floors saltV2Planes) : Feasible groups floors limit floors := by
  refine ⟨forall₂_same.mpr fun floor hfloor => ⟨le_rfl, (hfloors.bounds floor hfloor).2⟩, ?_, ?_⟩
  · rcases hleaves with ⟨_, _, _⟩ | ⟨_, _, _⟩ <;> omega
  · rcases hleaves with ⟨_, _, _⟩ | ⟨_, _, _⟩ <;> omega

theorem LeavesExactly.feasible_iff (hleaves : LeavesExactly groups floors limit additional cost)
    (hgroups : ∀ group ∈ groups, ValidGroup group)
    (hfloors : FloorsBelow groups floors saltV2Planes) (hcost : UniformDelta groups floors cost)
    (hlevels : WithinTop hgroups hfloors levels) :
    Feasible groups floors limit (raisedFloors groups floors levels) ↔
      (groupCurves hgroups hfloors).problem.weight levels ≤ additional.toNat := by
  have hone : (1 : UInt64).toNat = 1 := rfl
  have hzero : (0 : UInt64).toNat = 0 := rfl
  rw [feasible_raisedFloors_iff hgroups hfloors hcost hlevels]
  rcases hleaves with ⟨rfl, _, _⟩ | ⟨rfl, _, _⟩
  · rw [hone, hzero]
    omega
  · rw [hone, hzero]
    omega

/-- **The packed planner refines the regular allocator.** Fed `n` curves over a packed floor map,
it answers with the vector the regular allocator returns for the same curves when every plane costs
one byte and the budget leaves `additional` bytes; below a lower ceiling it answers with a vector
that leaves the least distortion of all those within reach. -/
theorem packedPlanner_answers {curves : List UniformPrefixCurve} {floors : PackedPlaneCounts}
    (additional : UInt64) (profile : SaltV2Profile) (hcurves : curves.length < 2 ^ 32)
    (hlen : floors.len.toNat = curves.length)
    (hfloors : ∀ floor ∈ floors.decode, 1 ≤ floor ∧ floor ≤ 3) :
    (∀ groups cost limit, Forall₂ (Realizes cost) groups curves →
      LeavesExactly groups floors.decode limit additional cost → ∃ planeCounts,
        regularPlaneCounts groups floors.decode limit profile = .ok (some planeCounts) ∧
        upgradesAbove floors.decode planeCounts ≤ additional.toNat ∧
        Answers floors profile curves planeCounts (runPlanner
          (PackedUniformProfilePlanner.new floors.len floors additional profile) curves)) ∧
    ∀ ceiling : UInt8, 1 ≤ ceiling → ceiling ≤ 3 →
      (∀ floor ∈ floors.decode, floor ≤ ceiling.toNat) → ∃ planeCounts,
        Forall₂ (fun floor planes => floor ≤ planes ∧ planes ≤ ceiling.toNat) floors.decode
          planeCounts ∧ upgradesAbove floors.decode planeCounts ≤ additional.toNat ∧
        Answers floors profile curves planeCounts (runPlanner
          (PackedUniformProfilePlanner.newWithCeiling floors.len floors additional profile ceiling)
          curves) ∧ ∀ other,
          Forall₂ (fun floor planes => floor ≤ planes ∧ planes ≤ ceiling.toNat) floors.decode
            other → upgradesAbove floors.decode other ≤ additional.toNat →
          totalDistortion (curves.map UniformPrefixCurve.group) planeCounts ≤
            totalDistortion (curves.map UniformPrefixCurve.group) other := by
  have hlength : floors.decode.length = (curves.map UniformPrefixCurve.group).length := by
    simp [PackedPlaneCounts.decode, hlen]
  refine ⟨fun groups cost limit hrealizes hleaves => ?_, fun ceiling hpos hle hbelow => ?_⟩
  · have hgroups : ∀ group ∈ groups, ValidGroup group := by
      intro group hgroup
      obtain ⟨i, hi, rfl⟩ := getElem_of_mem hgroup
      exact ((forall₂_iff_get.mp hrealizes).2 i hi (hrealizes.length_eq ▸ hi)).validGroup
    have hcost := Realizes.uniformDelta hrealizes floors.decode
    have hbelow : FloorsBelow groups floors.decode saltV2Planes :=
      ⟨by rw [hlength, length_map, hrealizes.length_eq], hfloors, by decide, le_rfl⟩
    have hceiling : FloorsBelow (curves.map UniformPrefixCurve.group) floors.decode
        (3 : UInt8).toNat := ⟨hlength, hfloors, by decide, le_rfl⟩
    have hne : cost ≠ PhysicalBytes.zero := by
      rcases hleaves with ⟨rfl, _⟩ | ⟨rfl, _⟩ <;> decide
    obtain ⟨levels, capacity, hreturned, hcapacity, hgreatest⟩ :=
      regularPlaneCounts_isGreatest hgroups hbelow hcost hne
        (by rw [hrealizes.length_eq]; omega) (hleaves.feasible hbelow) profile
    obtain ⟨others, hothers, hanswers⟩ := runPlanner_answers hceiling hcurves additional profile
    have hsame : groupCurves hgroups hbelow = plannedCurves hceiling := by
      refine groupCurves_eq hgroups (curveGroups_valid curves) ?_ hbelow hceiling
      exact forall₂_map_right_iff.mpr (hrealizes.imp fun _ _ hcurve => hcurve.distortions)
    have hgreatest' : (groupCurves hgroups hbelow).problem.IsGreatest additional.toNat levels :=
      hgreatest.of_capacity fun other hother =>
        (hcapacity other hother).trans (hleaves.feasible_iff hgroups hbelow hcost hother)
    rw [hsame] at hgreatest'
    obtain rfl := hgreatest'.unique hothers
    have hraised : raisedFloors groups floors.decode levels =
        raisedFloors (curves.map UniformPrefixCurve.group) floors.decode levels := by
      rw [raisedFloors, raisedFloors, length_map, hrealizes.length_eq]
    refine ⟨_, hreturned, ?_, ?_⟩
    · rw [hraised, upgradesAbove_raisedFloors hceiling]
      exact hgreatest'.feasible.weight_le
    · rw [hraised]
      exact hanswers
  · have hceiling : FloorsBelow (curves.map UniformPrefixCurve.group) floors.decode
        ceiling.toNat :=
      ⟨hlength, fun floor hfloor => ⟨(hfloors floor hfloor).1, hbelow floor hfloor⟩,
        UInt8.le_iff_toNat_le.mp hpos, UInt8.le_iff_toNat_le.mp hle⟩
    obtain ⟨levels, hgreatest, hanswers⟩ := runPlanner_answers hceiling hcurves additional profile
    have hvalid := curveGroups_valid curves
    have hwithin := hgreatest.feasible.le_top
    refine ⟨_, raisedFloors_bounds hvalid hceiling hwithin, ?_, hanswers, ?_⟩
    · rw [upgradesAbove_raisedFloors hceiling]
      exact hgreatest.feasible.weight_le
    · intro other hbounds hupgrades
      obtain ⟨otherLevels, hother, rfl⟩ := exists_raisedFloors hvalid hceiling hbounds
      rw [upgradesAbove_raisedFloors hceiling] at hupgrades
      have hkey := hgreatest.key_le otherLevels ⟨hother, hupgrades⟩
      have hvalue := totalDistortion_raisedFloors hvalid hceiling hwithin
      have hotherValue := totalDistortion_raisedFloors hvalid hceiling hother
      have hle : (groupCurves hvalid hceiling).problem.value otherLevels ≤
          (groupCurves hvalid hceiling).problem.value levels := by
        rcases Problem.key_le_iff.mp hkey with hlt | ⟨heq, _⟩
        · exact hlt.le
        · exact heq.le
      omega

def twoCurves : List UniformPrefixCurve :=
  [⟨[⟨0x4010000000000000⟩, ⟨0x4008000000000000⟩, ⟨0⟩], rfl, by decide +kernel⟩,
    ⟨[⟨0x4010000000000000⟩, ⟨0x4000000000000000⟩, ⟨0x3ff0000000000000⟩], rfl, by decide +kernel⟩]

def twoFloors : PackedPlaneCounts := ⟨[0], 2, rfl⟩

def twoGroups : List GroupCandidates :=
  [⟨candidatesFrom ⟨⟨1, 0⟩, none⟩ 1 [⟨0x4010000000000000⟩, ⟨0x4008000000000000⟩, ⟨0⟩]⟩,
    ⟨candidatesFrom ⟨⟨1, 0⟩, none⟩ 1
      [⟨0x4010000000000000⟩, ⟨0x4000000000000000⟩, ⟨0x3ff0000000000000⟩]⟩]

/-- Distortions 4, 3, 0 against 4, 2, 1: three upgrades make the map of three and two planes. -/
theorem packedPlanner_answers_twoCurves :
    runPlanner (PackedUniformProfilePlanner.new 2 twoFloors 3 .compactV1) twoCurves =
        .ok ⟨⟨[6], 2, rfl⟩, 3, ⟨0x4000000000000000⟩, 5⟩ ∧
      ∃ planeCounts, regularPlaneCounts twoGroups twoFloors.decode ⟨⟨6, 0⟩, ⟨⟨1, 0⟩, none⟩⟩
          .compactV1 = .ok (some planeCounts) ∧ upgradesAbove twoFloors.decode planeCounts ≤ 3 ∧
        Answers twoFloors .compactV1 twoCurves planeCounts (runPlanner
          (PackedUniformProfilePlanner.new twoFloors.len twoFloors 3 .compactV1) twoCurves) := by
  have hrealizes : Forall₂ (Realizes ⟨1, 0⟩) twoGroups twoCurves :=
    .cons ⟨rfl, rfl, by decide⟩ (.cons ⟨rfl, rfl, by decide⟩ .nil)
  have hleaves : LeavesExactly twoGroups twoFloors.decode ⟨⟨6, 0⟩, ⟨⟨1, 0⟩, none⟩⟩ 3 ⟨1, 0⟩ :=
    Or.inl ⟨rfl, by decide +kernel, by decide +kernel⟩
  exact ⟨by decide +kernel, (packedPlanner_answers 3 .compactV1 (by decide) rfl (by decide)).1
    twoGroups ⟨1, 0⟩ ⟨⟨6, 0⟩, ⟨⟨1, 0⟩, none⟩⟩ hrealizes hleaves⟩

end Tritium.Allocator
