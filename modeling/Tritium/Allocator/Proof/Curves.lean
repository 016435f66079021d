import Tritium.Allocator.Proof.Solver
import Tritium.Allocator.Proof.Ledger
import Mathlib.Data.Nat.Count
import Mathlib.Order.CompletePartialOrder

/-!
# The upgrades offered by distortion curves

The solver sees sorted upgrades; what it is asked about are distortion curves between floors and
ceilings. Here the curves become a level-choosing problem, and the upgrades collected from them a
ranking of it. Both the allocator over candidate groups and the packed planner collect such
upgrades, each into records of its own.
-/

namespace Tritium.Allocator

open List
open Function (update update_of_ne update_self)
open Knapsack

variable {i : ℕ}

/-- What an allocation starts from: for every group its floor, its ceiling, and the distortion left
after each number of planes. -/
structure Curves where
  count : ℕ
  floor : ℕ → ℕ
  ceiling : ℕ → ℕ
  distortion : ℕ → ℕ → ℕ
  floor_pos : ∀ i, 1 ≤ floor i
  floor_le : ∀ i, floor i ≤ ceiling i
  ceiling_le : ∀ i, ceiling i ≤ saltV2Planes
  antitone : ∀ i low high, 1 ≤ low → low ≤ high → high ≤ saltV2Planes →
    distortion i high ≤ distortion i low
  distortion_lt : ∀ i planes, distortion i planes < 2 ^ F64.valueBits

namespace Curves

variable (c : Curves)

/-- The levels above the floors, each gaining the distortion it removes. -/
def problem : Problem ℕ where
  support := Finset.range c.count
  gain i level := c.distortion i (c.floor i) - c.distortion i (c.floor i + level)
  top i := if i < c.count then c.ceiling i - c.floor i else 0
  gain_zero i := Nat.sub_self _
  top_of_notMem i hi := if_neg (by simpa using hi)

/-- The second plane above the floor removes more than the first. -/
def Bundled (i : ℕ) : Prop :=
  c.floor i = 1 ∧ c.ceiling i = 3 ∧ c.distortion i 1 + c.distortion i 3 < 2 * c.distortion i 2

/-- How many planes above the floor remove something, for a curve that is not bundled. -/
def chain (i : ℕ) : ℕ :=
  Nat.count (fun level => c.distortion i (c.floor i + level + 1) <
    c.distortion i (c.floor i + level)) (c.problem.top i)

variable {c} {level : ℕ}

theorem top_of_lt (hi : i < c.count) : c.problem.top i = c.ceiling i - c.floor i :=
  if_pos hi

theorem lt_count_of_lt_top (hlevel : level < c.problem.top i) : i < c.count := by
  by_contra hnot
  have htop : c.problem.top i = 0 := if_neg hnot
  omega

theorem chain_le_top (i : ℕ) : c.chain i ≤ c.problem.top i := Nat.count_le _

theorem distortion_succ_le (hlevel : level < c.problem.top i) :
    c.distortion i (c.floor i + level + 1) ≤ c.distortion i (c.floor i + level) := by
  have htop := top_of_lt (lt_count_of_lt_top hlevel)
  have hpos := c.floor_pos i
  have hceiling := c.ceiling_le i
  exact c.antitone i _ _ (by omega) (by omega) (by omega)

theorem distortion_le_floor (hlevel : level ≤ c.problem.top i) :
    c.distortion i (c.floor i + level) ≤ c.distortion i (c.floor i) := by
  induction level with
  | zero => exact le_rfl
  | succ level ih => exact (distortion_succ_le (by omega)).trans (ih (by omega))

/-- Outside the bundles, the planes that remove something come first. -/
theorem lt_chain_iff (hbundled : ¬c.Bundled i) (hlevel : level < c.problem.top i) :
    level < c.chain i ↔
      c.distortion i (c.floor i + level + 1) < c.distortion i (c.floor i + level) := by
  have htop := top_of_lt (lt_count_of_lt_top hlevel)
  have hpos := c.floor_pos i
  have hceiling : c.ceiling i ≤ 3 := c.ceiling_le i
  have hcases : c.problem.top i = 1 ∨ c.problem.top i = 2 := by omega
  rcases hcases with hone | htwo
  · have hzero : level = 0 := by omega
    subst hzero
    rw [chain, hone, Nat.count_succ]
    split_ifs with hless <;> simpa using hless
  · have hfloor : c.floor i = 1 := by omega
    have hconcave : ¬c.distortion i 1 + c.distortion i 3 < 2 * c.distortion i 2 :=
      fun hless => hbundled ⟨hfloor, by omega, hless⟩
    have hlevel' : level = 0 ∨ level = 1 := by omega
    rw [chain, htwo, Nat.count_succ, Nat.count_succ, Nat.count_zero, hfloor] at *
    rcases hlevel' with rfl | rfl <;> split_ifs <;> simp only [Nat.reduceAdd, add_zero] at * <;>
      omega

theorem distortion_of_chain_le (hbundled : ¬c.Bundled i) (hchain : c.chain i ≤ level)
    (hlevel : level ≤ c.problem.top i) :
    c.distortion i (c.floor i + level) = c.distortion i (c.floor i + c.chain i) := by
  induction level, hchain using Nat.le_induction with
  | base => rfl
  | succ level hchain ih =>
    have hnot := (lt_chain_iff hbundled (by omega)).not.mp (not_lt.mpr hchain)
    have hle := distortion_succ_le (show level < c.problem.top i by omega)
    rw [← add_assoc]
    omega

theorem gain_of_chain_le (hbundled : ¬c.Bundled i) (hchain : c.chain i ≤ level)
    (hlevel : level ≤ c.problem.top i) : c.problem.gain i level = c.problem.gain i (c.chain i) :=
  congrArg (c.distortion i (c.floor i) - ·) (distortion_of_chain_le hbundled hchain hlevel)

theorem gain_add_distortion (hlevel : level ≤ c.problem.top i) :
    c.problem.gain i level + c.distortion i (c.floor i + level) = c.distortion i (c.floor i) :=
  Nat.sub_add_cancel (distortion_le_floor hlevel)

theorem gain_lt (hbundled : ¬c.Bundled i) (hlevel : level < c.chain i) :
    c.problem.gain i level < c.problem.gain i (level + 1) := by
  have htop := hlevel.trans_le (chain_le_top i)
  have hless := (lt_chain_iff hbundled htop).mp hlevel
  have hlow := gain_add_distortion htop.le
  have hhigh := gain_add_distortion (show level + 1 ≤ c.problem.top i from htop)
  rw [← add_assoc] at hhigh
  omega

theorem gain_concave (hbundled : ¬c.Bundled i) (hlevel : level + 2 ≤ c.chain i) :
    c.problem.gain i (level + 2) + c.problem.gain i level ≤ 2 * c.problem.gain i (level + 1) := by
  have hchain := chain_le_top (c := c) i
  have htop := top_of_lt (lt_count_of_lt_top (show level < c.problem.top i by omega))
  have hpos := c.floor_pos i
  have hceiling : c.ceiling i ≤ 3 := c.ceiling_le i
  have hzero : level = 0 := by omega
  subst hzero
  have hfloor : c.floor i = 1 := by omega
  have hfirst := gain_add_distortion (show 1 ≤ c.problem.top i by omega)
  have hsecond := gain_add_distortion (show 2 ≤ c.problem.top i by omega)
  have hconcave : ¬c.distortion i 1 + c.distortion i 3 < 2 * c.distortion i 2 :=
    fun hless => hbundled ⟨hfloor, by omega, hless⟩
  rw [c.problem.gain_zero]
  simp only [hfloor, Nat.reduceAdd, zero_add] at hfirst hsecond ⊢
  omega

theorem gain_of_bundled (hi : i < c.count) (hbundled : c.Bundled i) :
    2 * c.problem.gain i 1 < c.problem.gain i 2 := by
  obtain ⟨hfloor, _, _⟩ := hbundled
  have htop := top_of_lt hi
  have hfirst := gain_add_distortion (show 1 ≤ c.problem.top i by omega)
  have hsecond := gain_add_distortion (show 2 ≤ c.problem.top i by omega)
  simp only [hfloor, Nat.reduceAdd] at hfirst hsecond
  omega

variable {U B : Type} [RankedUnitUpgrade U] [RankedBundledUpgrade B]

variable (c) in
/-- The records offer exactly the upgrades of the groups in `members`. -/
structure Offers (members : Set ℕ) (units : List U) (bundles : List B) : Prop where
  unit_mem : ∀ unit ∈ units, group unit ∈ members ∧ ¬c.Bundled (group unit) ∧
    c.floor (group unit) < targetPlanes unit ∧ targetPlanes unit ≤ c.ceiling (group unit) ∧
    c.distortion (group unit) (targetPlanes unit) <
      c.distortion (group unit) (targetPlanes unit - 1)
  unit_reduction : ∀ unit ∈ units, (reduction unit).toNat =
    c.distortion (group unit) (targetPlanes unit - 1) -
      c.distortion (group unit) (targetPlanes unit)
  exists_unit : ∀ i ∈ members, ¬c.Bundled i → ∀ planes, c.floor i < planes →
    planes ≤ c.ceiling i → c.distortion i planes < c.distortion i (planes - 1) →
    ∃ unit ∈ units, group unit = i ∧ targetPlanes unit = planes
  units_distinct : units.Pairwise fun left right =>
    (group left, targetPlanes left) ≠ (group right, targetPlanes right)
  bundle_mem : ∀ bundle ∈ bundles,
    group bundle ∈ members ∧ c.Bundled (group bundle)
  bundle_reduction : ∀ bundle ∈ bundles, (reduction bundle).toNat =
    c.distortion (group bundle) 1 - c.distortion (group bundle) 3
  first_reduction : ∀ bundle ∈ bundles, (firstPlaneReduction bundle).toNat =
    c.distortion (group bundle) 1 - c.distortion (group bundle) 2
  exists_bundle : ∀ i ∈ members, c.Bundled i → ∃ bundle ∈ bundles, group bundle = i
  bundles_distinct : bundles.Pairwise fun left right =>
    group left ≠ group right

namespace Offers

variable {members others : Set ℕ} {units moreUnits : List U} {bundles moreBundles : List B}

theorem empty : c.Offers ∅ ([] : List U) ([] : List B) := by
  constructor <;> simp

theorem append (hfirst : c.Offers members units bundles)
    (hsecond : c.Offers others moreUnits moreBundles) (hdisjoint : Disjoint members others) :
    c.Offers (members ∪ others) (units ++ moreUnits) (bundles ++ moreBundles) where
  unit_mem unit hunit := by
    rcases mem_append.mp hunit with hunit | hunit
    · exact (hfirst.unit_mem unit hunit).imp_left .inl
    · exact (hsecond.unit_mem unit hunit).imp_left .inr
  unit_reduction unit hunit :=
    (mem_append.mp hunit).elim (hfirst.unit_reduction unit) (hsecond.unit_reduction unit)
  exists_unit i hi hbundled planes hfloor hceiling hless := by
    rcases hi with hi | hi
    · obtain ⟨unit, hunit, hspec⟩ := hfirst.exists_unit i hi hbundled planes hfloor hceiling hless
      exact ⟨unit, mem_append_left _ hunit, hspec⟩
    · obtain ⟨unit, hunit, hspec⟩ := hsecond.exists_unit i hi hbundled planes hfloor hceiling hless
      exact ⟨unit, mem_append_right _ hunit, hspec⟩
  units_distinct := by
    refine pairwise_append.mpr ⟨hfirst.units_distinct, hsecond.units_distinct, ?_⟩
    intro left hleft right hright heq
    rw [Prod.mk.injEq] at heq
    refine Set.disjoint_left.mp hdisjoint (hfirst.unit_mem left hleft).1 ?_
    rw [heq.1]
    exact (hsecond.unit_mem right hright).1
  bundle_mem bundle hbundle := by
    rcases mem_append.mp hbundle with hbundle | hbundle
    · exact (hfirst.bundle_mem bundle hbundle).imp_left .inl
    · exact (hsecond.bundle_mem bundle hbundle).imp_left .inr
  bundle_reduction bundle hbundle := (mem_append.mp hbundle).elim
    (hfirst.bundle_reduction bundle) (hsecond.bundle_reduction bundle)
  first_reduction bundle hbundle := (mem_append.mp hbundle).elim
    (hfirst.first_reduction bundle) (hsecond.first_reduction bundle)
  exists_bundle i hi hbundled := by
    rcases hi with hi | hi
    · obtain ⟨bundle, hbundle, hgroup⟩ := hfirst.exists_bundle i hi hbundled
      exact ⟨bundle, mem_append_left _ hbundle, hgroup⟩
    · obtain ⟨bundle, hbundle, hgroup⟩ := hsecond.exists_bundle i hi hbundled
      exact ⟨bundle, mem_append_right _ hbundle, hgroup⟩
  bundles_distinct := by
    refine pairwise_append.mpr ⟨hfirst.bundles_distinct, hsecond.bundles_distinct, ?_⟩
    intro left hleft right hright heq
    exact Set.disjoint_left.mp hdisjoint (hfirst.bundle_mem left hleft).1
      (heq ▸ (hsecond.bundle_mem right hright).1)

theorem perm (hoffers : c.Offers members units bundles) (hunits : moreUnits.Perm units)
    (hbundles : moreBundles.Perm bundles) : c.Offers members moreUnits moreBundles where
  unit_mem unit hunit := hoffers.unit_mem unit (hunits.subset hunit)
  unit_reduction unit hunit := hoffers.unit_reduction unit (hunits.subset hunit)
  exists_unit i hi hbundled planes hfloor hceiling hless := by
    obtain ⟨unit, hunit, hspec⟩ := hoffers.exists_unit i hi hbundled planes hfloor hceiling hless
    exact ⟨unit, hunits.symm.subset hunit, hspec⟩
  units_distinct := (hunits.pairwise_iff fun hne => hne.symm).mpr hoffers.units_distinct
  bundle_mem bundle hbundle := hoffers.bundle_mem bundle (hbundles.subset hbundle)
  bundle_reduction bundle hbundle := hoffers.bundle_reduction bundle (hbundles.subset hbundle)
  first_reduction bundle hbundle := hoffers.first_reduction bundle (hbundles.subset hbundle)
  exists_bundle i hi hbundled := by
    obtain ⟨bundle, hbundle, hgroup⟩ := hoffers.exists_bundle i hi hbundled
    exact ⟨bundle, hbundles.symm.subset hbundle, hgroup⟩
  bundles_distinct := (hbundles.pairwise_iff fun hne => hne.symm).mpr hoffers.bundles_distinct

theorem ofBundle {bundle : B} (hgroup : group bundle = i) (hbundled : c.Bundled i)
    (hreduction : (reduction bundle).toNat = c.distortion i 1 - c.distortion i 3)
    (hfirst : (firstPlaneReduction bundle).toNat =
      c.distortion i 1 - c.distortion i 2) : c.Offers {i} ([] : List U) [bundle] := by
  constructor <;> simp_all

/-- A group that is not bundled offers the planes above its floor, except those that remove
nothing. -/
theorem ofTargets (hbundled : ¬c.Bundled i) {unit : ℕ → U}
    (hunit : ∀ planes, c.floor i < planes → planes ≤ c.ceiling i →
      group (unit planes) = i ∧ targetPlanes (unit planes) = planes ∧
      (reduction (unit planes)).toNat =
        c.distortion i (planes - 1) - c.distortion i planes) {units : List U}
    (hunits : units = ((range' (c.floor i + 1) (c.ceiling i - c.floor i)).filter fun planes =>
      !(reduction (unit planes)).isZero).map unit) : c.Offers {i} units ([] : List B) := by
  have hmem : ∀ item, item ∈ units ↔ ∃ planes, c.floor i < planes ∧ planes ≤ c.ceiling i ∧
      c.distortion i planes < c.distortion i (planes - 1) ∧ unit planes = item := by
    intro item
    rw [hunits, mem_map]
    refine exists_congr fun planes => ?_
    rw [mem_filter, mem_range'_1, Bool.not_eq_true', and_assoc]
    refine ⟨fun ⟨hrange, hzero, heq⟩ => ?_, fun ⟨hlow, hhigh, hless, heq⟩ => ?_⟩
    · rw [Bool.eq_false_iff, Ne, ExactReduction.isZero_eq_true_iff,
        (hunit planes (by omega) (by omega)).2.2] at hzero
      exact ⟨by omega, by omega, by omega, heq⟩
    · refine ⟨by omega, ?_, heq⟩
      rw [Bool.eq_false_iff, Ne, ExactReduction.isZero_eq_true_iff, (hunit planes hlow hhigh).2.2]
      omega
  refine ⟨?_, ?_, ?_, ?_, by simp, by simp, by simp, fun j hj hj' => ?_, List.Pairwise.nil⟩
  · intro item hitem
    obtain ⟨planes, hlow, hhigh, hless, rfl⟩ := (hmem item).mp hitem
    obtain ⟨hgroup, htarget, _⟩ := hunit planes hlow hhigh
    rw [hgroup, htarget]
    exact ⟨rfl, hbundled, hlow, hhigh, hless⟩
  · intro item hitem
    obtain ⟨planes, hlow, hhigh, _, rfl⟩ := (hmem item).mp hitem
    obtain ⟨hgroup, htarget, hreduction⟩ := hunit planes hlow hhigh
    rw [hgroup, htarget, hreduction]
  · rintro _ rfl _ planes hlow hhigh hless
    obtain ⟨hgroup, htarget, _⟩ := hunit planes hlow hhigh
    exact ⟨unit planes, (hmem _).mpr ⟨planes, hlow, hhigh, hless, rfl⟩, hgroup, htarget⟩
  · rw [hunits, pairwise_map]
    refine ((nodup_range' (s := c.floor i + 1)).filter _).imp_of_mem fun hleft hright hne heq => hne ?_
    have hleft' := mem_range'_1.mp (mem_of_mem_filter hleft)
    have hright' := mem_range'_1.mp (mem_of_mem_filter hright)
    have htarget := (Prod.ext_iff.mp heq).2
    rwa [(hunit _ (by omega) (by omega)).2.1, (hunit _ (by omega) (by omega)).2.1] at htarget
  · exact absurd (Set.mem_singleton_iff.mp hj ▸ hj') hbundled

theorem units_length_le (hoffers : c.Offers (Set.Iio c.count) units bundles) :
    units.length ≤ c.count * 2 := by
  have hsubset : (units.map fun unit => (group unit, targetPlanes unit)) ⊆
      range c.count ×ˢ [2, 3] := by
    intro entry hentry
    obtain ⟨unit, hunit, rfl⟩ := mem_map.mp hentry
    obtain ⟨hgroup, _, _, _, _⟩ := hoffers.unit_mem unit hunit
    have hpos := c.floor_pos (group unit)
    have hle : c.ceiling (group unit) ≤ 3 := c.ceiling_le _
    have htarget : targetPlanes unit = 2 ∨ targetPlanes unit = 3 := by omega
    simpa using ⟨hgroup, htarget⟩
  have hle := (subperm_of_subset (pairwise_map.mpr hoffers.units_distinct) hsubset).length_le
  rwa [length_map, length_product, length_range] at hle

theorem bundles_length_le (hoffers : c.Offers (Set.Iio c.count) units bundles) :
    bundles.length ≤ c.count := by
  have hsubset : bundles.map group ⊆ range c.count := by
    intro i hi
    obtain ⟨bundle, hbundle, rfl⟩ := mem_map.mp hi
    exact mem_range.mpr (hoffers.bundle_mem bundle hbundle).1
  have hle := (subperm_of_subset (pairwise_map.mpr hoffers.bundles_distinct) hsubset).length_le
  rwa [length_map, length_range] at hle

theorem reductionSum_le {α : Type} [RankedUpgrade α] {upgrades : List α} {bound : ℕ}
    (hbound : ∀ upgrade ∈ upgrades, (reduction upgrade).toNat ≤ bound) :
    reductionSum upgrades ≤ upgrades.length * bound := by
  have hsum := sum_le_card_nsmul (upgrades.map fun upgrade =>
    (reduction upgrade).toNat) bound (by simpa using hbound)
  simpa [reductionSum] using hsum

section

variable (hoffers : c.Offers (Set.Iio c.count) units bundles)

include hoffers

theorem sum_lt (hcount : c.count < 2 ^ 60) :
    reductionSum units + 2 * reductionSum bundles < ExactDistortion.capacity := by
  have hunits : reductionSum units ≤ units.length * 2 ^ F64.valueBits := by
    refine reductionSum_le fun unit hunit => ?_
    rw [hoffers.unit_reduction unit hunit]
    exact (Nat.sub_le _ _).trans (c.distortion_lt _ _).le
  have hbundles : reductionSum bundles ≤ bundles.length * 2 ^ F64.valueBits := by
    refine reductionSum_le fun bundle hbundle => ?_
    rw [hoffers.bundle_reduction bundle hbundle]
    exact (Nat.sub_le _ _).trans (c.distortion_lt _ _).le
  have hunitsLength := Nat.mul_le_mul_right (2 ^ F64.valueBits) hoffers.units_length_le
  have hbundlesLength := Nat.mul_le_mul_right (2 ^ F64.valueBits) hoffers.bundles_length_le
  calc reductionSum units + 2 * reductionSum bundles
      ≤ c.count * 2 * 2 ^ F64.valueBits + 2 * (c.count * 2 ^ F64.valueBits) :=
        add_le_add (hunits.trans hunitsLength)
          (Nat.mul_le_mul_left 2 (hbundles.trans hbundlesLength))
    _ = c.count * 4 * 2 ^ F64.valueBits := by ring
    _ < 2 ^ 62 * 2 ^ F64.valueBits :=
        Nat.mul_lt_mul_of_pos_right (by omega) (Nat.two_pow_pos _)
    _ ≤ ExactDistortion.capacity := by
        rw [ExactDistortion.capacity, Limbs.radix, ← pow_add, ← pow_mul]
        exact Nat.pow_le_pow_right Nat.two_pos (by decide)

theorem units_below (hcount : c.count < 2 ^ 60) : BelowSentinel units := by
  have hlength := hoffers.units_length_le
  have hmax : usizeMax = 2 ^ 64 - 1 := rfl
  refine ⟨by omega, fun unit hunit => ?_⟩
  have hgroup := Set.mem_Iio.mp (hoffers.unit_mem unit hunit).1
  omega

theorem bundles_below (hcount : c.count < 2 ^ 60) : BelowSentinel bundles := by
  have hlength := hoffers.bundles_length_le
  have hmax : usizeMax = 2 ^ 64 - 1 := rfl
  refine ⟨by omega, fun bundle hbundle => ?_⟩
  have hgroup := Set.mem_Iio.mp (hoffers.bundle_mem bundle hbundle).1
  omega

end

end Offers

end Curves

section Sorting

variable {U B : Type} [RankedUnitUpgrade U] [RankedBundledUpgrade B]

instance : Std.TransCmp (compareUnits : U → U → Ordering) := by
  have heq : (compareUnits : U → U → Ordering) = compareLex (compareLex
      (fun left right => compareOn (fun unit => (reduction unit).toNat) right left)
      (compareOn group)) (compareOn targetPlanes) := by
    funext left right
    rw [compareUnits, compareReductionDescending_eq]
    rfl
  rw [heq]
  infer_instance

instance : Std.TransCmp (compareBundles : B → B → Ordering) := by
  have heq : (compareBundles : B → B → Ordering) = compareLex
      (fun left right => compareOn (fun bundle => (reduction bundle).toNat) right left)
      (compareOn group) := by
    funext left right
    rw [compareBundles, compareReductionDescending_eq]
    rfl
  rw [heq]
  infer_instance

theorem compareBundles_isLE_iff {left right : B} :
    (compareBundles left right).isLE ↔ (reduction right).toNat < (reduction left).toNat ∨
      (reduction right).toNat = (reduction left).toNat ∧ group left ≤ group right := by
  rw [compareBundles, compareReductionDescending_eq, Ordering.isLE_then_iff_or, compare_lt_iff_lt,
    compare_eq_iff_eq, Nat.isLE_compare]

theorem compareUnits_isLE_iff {left right : U} :
    (compareUnits left right).isLE ↔ (reduction right).toNat < (reduction left).toNat ∨
      (reduction right).toNat = (reduction left).toNat ∧
        (group left < group right ∨ group left = group right ∧
            targetPlanes left ≤ targetPlanes right) := by
  rw [compareUnits, compareReductionDescending_eq, Ordering.then_assoc, Ordering.isLE_then_iff_or,
    compare_lt_iff_lt, compare_eq_iff_eq, Ordering.isLE_then_iff_or, compare_lt_iff_lt,
    compare_eq_iff_eq, Nat.isLE_compare]

end Sorting

namespace Curves

variable {c : Curves} {U B : Type} [RankedUnitUpgrade U] [RankedBundledUpgrade B]
  {units : List U} {bundles : List B}

theorem stepGain_of_target {planes : ℕ} (hi : i < c.count) (hfloor : c.floor i < planes)
    (hceiling : planes ≤ c.ceiling i) :
    c.problem.stepGain (i, planes - c.floor i) =
      c.distortion i (planes - 1) - c.distortion i planes := by
  have htop := top_of_lt hi
  have hlow := gain_add_distortion (show planes - c.floor i - 1 ≤ c.problem.top i by omega)
  have hhigh := gain_add_distortion (show planes - c.floor i ≤ c.problem.top i by omega)
  rw [show c.floor i + (planes - c.floor i - 1) = planes - 1 by omega] at hlow
  rw [show c.floor i + (planes - c.floor i) = planes by omega] at hhigh
  change c.problem.gain i (planes - c.floor i) - c.problem.gain i (planes - c.floor i - 1) = _
  omega

theorem gain_of_bundle_record (hbundled : c.Bundled i) (level : ℕ) :
    c.problem.gain i level = c.distortion i 1 - c.distortion i (1 + level) := by
  change c.distortion i (c.floor i) - c.distortion i (c.floor i + level) = _
  rw [hbundled.1]

structure SortedOffers (c : Curves) (units : List U) (bundles : List B) : Prop where
  offers : c.Offers (Set.Iio c.count) units bundles
  units_sorted : units.Pairwise fun left right => (compareUnits left right).isLE
  bundles_sorted : bundles.Pairwise fun left right => (compareBundles left right).isLE

theorem Offers.sorted (hoffers : c.Offers (Set.Iio c.count) units bundles) :
    c.SortedOffers (sortBy compareUnits units) (sortBy compareBundles bundles) :=
  ⟨hoffers.perm (sortBy_perm _ units) (sortBy_perm _ bundles), sortBy_pairwise _ units,
    sortBy_pairwise _ bundles⟩

/-- The step of the chain of its group that a unit upgrade takes. -/
abbrev unitStep (c : Curves) (unit : U) : ℕ × ℕ :=
  (group unit, targetPlanes unit - c.floor (group unit))

namespace SortedOffers

variable (hsorted : c.SortedOffers units bundles)
include hsorted

theorem mem_bundles_iff : i ∈ bundles.map group ↔ i < c.count ∧ c.Bundled i := by
  rw [mem_map]
  constructor
  · rintro ⟨bundle, hbundle, rfl⟩
    exact hsorted.offers.bundle_mem bundle hbundle
  · rintro ⟨hi, hbundled⟩
    exact hsorted.offers.exists_bundle i hi hbundled

theorem not_bundled (hi : i ∉ bundles.map group) (htop : 0 < c.problem.top i) : ¬c.Bundled i :=
  fun hbundled => hi (hsorted.mem_bundles_iff.mpr ⟨lt_count_of_lt_top htop, hbundled⟩)

theorem mem_steps (i k : ℕ) :
    (i, k) ∈ units.map c.unitStep ↔ i ∉ bundles.map group ∧ 1 ≤ k ∧ k ≤ c.chain i := by
  rw [mem_map]
  constructor
  · rintro ⟨unit, hunit, heq⟩
    rw [Prod.mk.injEq] at heq
    obtain ⟨rfl, rfl⟩ := heq
    obtain ⟨hgroup, hbundled, _, _, hless⟩ := hsorted.offers.unit_mem unit hunit
    have htop := top_of_lt (Set.mem_Iio.mp hgroup)
    have hlevel : targetPlanes unit - c.floor (group unit) - 1 < c.chain (group unit) := by
      rw [lt_chain_iff hbundled (by omega)]
      convert hless using 2 <;> omega
    exact ⟨fun hmem => hbundled (hsorted.mem_bundles_iff.mp hmem).2, by omega, by omega⟩
  · rintro ⟨hmem, _, _⟩
    have hle := chain_le_top (c := c) i
    have hi := lt_count_of_lt_top (show 0 < c.problem.top i by omega)
    have htop := top_of_lt hi
    have hbundled := hsorted.not_bundled hmem (by omega)
    have hless := (lt_chain_iff hbundled (show k - 1 < c.problem.top i by omega)).mp (by omega)
    rw [show c.floor i + (k - 1) + 1 = c.floor i + k by omega,
      show c.floor i + (k - 1) = c.floor i + k - 1 by omega] at hless
    obtain ⟨unit, hunit, rfl, htarget⟩ := hsorted.offers.exists_unit i hi hbundled (c.floor i + k)
      (by omega) (by omega) hless
    exact ⟨unit, hunit, by rw [unitStep, htarget, Nat.add_sub_cancel_left]⟩

theorem unit_gain (unit : U) (hunit : unit ∈ units) :
    (reduction unit).toNat = c.problem.stepGain (c.unitStep unit) := by
  obtain ⟨hgroup, _, hfloor, hceiling, _⟩ := hsorted.offers.unit_mem unit hunit
  rw [stepGain_of_target hgroup hfloor hceiling, hsorted.offers.unit_reduction unit hunit]

theorem bundle_gain (bundle : B) (hbundle : bundle ∈ bundles) :
    (reduction bundle).toNat = c.problem.gain (group bundle) 2 := by
  rw [hsorted.offers.bundle_reduction bundle hbundle,
    gain_of_bundle_record (hsorted.offers.bundle_mem bundle hbundle).2]

theorem first_gain (bundle : B) (hbundle : bundle ∈ bundles) :
    (firstPlaneReduction bundle).toNat = c.problem.gain (group bundle) 1 := by
  rw [hsorted.offers.first_reduction bundle hbundle,
    gain_of_bundle_record (hsorted.offers.bundle_mem bundle hbundle).2]

theorem steps_sorted : (units.map c.unitStep).Pairwise
    fun x y => c.problem.stepKey x < c.problem.stepKey y := by
  rw [pairwise_map]
  refine (hsorted.units_sorted.and hsorted.offers.units_distinct).imp_of_mem ?_
  rintro left right hleft hright ⟨hle, hne⟩
  obtain ⟨_, _, hfloor, _⟩ := hsorted.offers.unit_mem left hleft
  rw [compareUnits_isLE_iff, hsorted.unit_gain left hleft, hsorted.unit_gain right hright] at hle
  rw [Problem.stepKey, Problem.stepKey, Prod.Lex.toLex_lt_toLex, Prod.Lex.toLex_lt_toLex]
  rcases hle with hlt | ⟨heq, hlt | ⟨hgroup, _⟩⟩
  · exact Or.inl hlt
  · exact Or.inr ⟨congrArg OrderDual.toDual heq.symm, Or.inl hlt⟩
  · refine Or.inr ⟨congrArg OrderDual.toDual heq.symm, Or.inr ⟨hgroup, ?_⟩⟩
    have htarget : targetPlanes left ≠ targetPlanes right :=
      fun htarget => hne (by rw [hgroup, htarget])
    dsimp only
    rw [hgroup] at hfloor ⊢
    omega

theorem bundleKeys_sorted : (bundles.map group).Pairwise
    fun i j => c.problem.bundleKey i < c.problem.bundleKey j := by
  rw [pairwise_map]
  refine (hsorted.bundles_sorted.and hsorted.offers.bundles_distinct).imp_of_mem ?_
  rintro left right hleft hright ⟨hle, hne⟩
  rw [compareBundles_isLE_iff, hsorted.bundle_gain left hleft,
    hsorted.bundle_gain right hright] at hle
  rw [Problem.bundleKey, Problem.bundleKey, Prod.Lex.toLex_lt_toLex]
  rcases hle with hlt | ⟨heq, hle⟩
  · exact Or.inl hlt
  · exact Or.inr ⟨congrArg OrderDual.toDual heq.symm, lt_of_le_of_ne hle hne⟩

def ranking : Ranking c.problem where
  steps := units.map c.unitStep
  bundles := bundles.map group
  chain := c.chain
  mem_steps := hsorted.mem_steps
  steps_sorted := hsorted.steps_sorted
  bundles_sorted := hsorted.bundleKeys_sorted
  mem_support_of_bundle i hi := Finset.mem_range.mpr (hsorted.mem_bundles_iff.mp hi).1
  chain_le_top i _ := chain_le_top i
  gain_of_chain_le i hi k hchain htop := by
    rcases Nat.eq_zero_or_pos (c.problem.top i) with hzero | hpos
    · rw [show k = c.chain i by omega]
    · exact gain_of_chain_le (hsorted.not_bundled hi hpos) hchain htop
  gain_lt i hi k hk := by
    have hle := chain_le_top (c := c) i
    exact gain_lt (hsorted.not_bundled hi (by omega)) hk
  gain_concave i hi k hk := by
    have hle := chain_le_top (c := c) i
    exact gain_concave (hsorted.not_bundled hi (by omega)) hk
  top_of_bundle i hi := by
    obtain ⟨hi, hfloor, hceiling, _⟩ := hsorted.mem_bundles_iff.mp hi
    rw [top_of_lt hi, hfloor, hceiling]
  gain_of_bundle i hi := by
    obtain ⟨hi, hbundled⟩ := hsorted.mem_bundles_iff.mp hi
    exact gain_of_bundled hi hbundled

theorem buildIndexes_eq (hcount : c.count < 2 ^ 60) (profile : SaltV2Profile) :
    ∃ indexes, buildIndexes units bundles profile = .ok indexes ∧ indexes.units = units ∧
      indexes.bundles = bundles ∧ Ranks indexes hsorted.ranking c.floor := by
  have hsum := hsorted.offers.sum_lt hcount
  have hunits := hsorted.offers.units_length_le
  have hbundles := hsorted.offers.bundles_length_le
  obtain ⟨unitSums, hunitSums, hunitSpec⟩ := ExactPrefixIndex.new_eq profile
    (show units.length < 2 ^ 62 by omega) (by omega)
  obtain ⟨bundleSums, hbundleSums, hbundleSpec⟩ := ExactPrefixIndex.new_eq profile
    (show bundles.length < 2 ^ 62 by omega) (by omega)
  obtain ⟨unitLex, hunitLex, hunitIndex⟩ := LexGroupIndex.new_eq profile
    (show units.length < 2 ^ 63 by omega)
  obtain ⟨bundleLex, hbundleLex, hbundleIndex⟩ := LexGroupIndex.new_eq profile
    (show bundles.length < 2 ^ 63 by omega)
  refine ⟨⟨unitSums, bundleSums, unitLex, bundleLex, units, bundles⟩, ?_, rfl, rfl, ?_⟩
  · rw [buildIndexes, hunitSums, hbundleSums, hunitLex, hbundleLex]
    rfl
  · exact ⟨rfl, rfl, hsorted.unit_gain, hsorted.bundle_gain, hsorted.first_gain, hunitSpec,
      hbundleSpec, hunitIndex, hbundleIndex, hsorted.offers.units_below hcount,
      hsorted.offers.bundles_below hcount, hsum⟩

section Materialize

variable {S : Type} {put : S → ℕ → ℕ → Outcome PhysicalAllocError S} {holds : S → (ℕ → ℕ) → Prop}
  (hput : ∀ planeCounts counts i planes, holds planeCounts counts → i < c.count → 1 ≤ planes →
    planes ≤ saltV2Planes → ∃ written, put planeCounts i planes = .ok written ∧
      holds written (update counts i planes)) {start : S}
include hput

theorem applyUnitPrefix_eq (hstart : holds start c.floor) {count : ℕ}
    (hcount : count ≤ units.length) :
    ∃ planeCounts, applyUnitPrefix put start units count = .ok planeCounts ∧
      holds planeCounts fun i => c.floor i + hsorted.ranking.stepLevels count i := by
  induction count with
  | zero => exact ⟨start, rfl, hstart⟩
  | succ count ih =>
    obtain ⟨planeCounts, hleading, hholds⟩ := ih (by omega)
    have hunit := getElem_mem (show count < units.length from hcount)
    obtain ⟨hgroup, _, _, hceiling, _⟩ := hsorted.offers.unit_mem _ hunit
    obtain ⟨written, hwritten, hnext⟩ := hput _ _ _ _ hholds (Set.mem_Iio.mp hgroup)
      (by omega) (hceiling.trans (c.ceiling_le _))
    refine ⟨written, ?_, ?_⟩
    · rw [applyUnitPrefix, take_succ_eq_append_getElem hcount, foldlM_append]
      rw [applyUnitPrefix] at hleading
      rw [hleading, ok_bind, foldlM_cons, hwritten]
      rfl
    · have hlength : count < hsorted.ranking.steps.length := by
        simpa [ranking] using Nat.lt_of_succ_le hcount
      have hstep : hsorted.ranking.steps[count] = c.unitStep units[count] := by simp [ranking]
      convert hnext using 1
      funext i
      rw [hsorted.ranking.stepLevels_succ hlength, hstep, unitStep]
      rcases eq_or_ne i (group units[count]) with rfl | hne
      · rw [update_self, update_self]
        omega
      · rw [update_of_ne hne, update_of_ne hne]

theorem foldlM_bundles_eq {count : ℕ} (special : Option ℕ)
    (hstart : holds start fun i => c.floor i + hsorted.ranking.stepLevels count i) {taken : ℕ}
    (htaken : taken ≤ bundles.length) :
    ∃ planeCounts counts, (bundles.take taken).zipIdx.foldlM
        (fun planeCounts (entry : B × Nat) =>
          if special ≠ some entry.2 then put planeCounts (group entry.1) 3
          else .ok planeCounts)
        start = .ok planeCounts ∧ holds planeCounts counts ∧
      ∀ i, (∀ rank ∈ special, hsorted.ranking.bundles[rank]? ≠ some i) →
        counts i = c.floor i + hsorted.ranking.hullLevels count taken i := by
  induction taken with
  | zero => exact ⟨start, _, rfl, hstart, fun _ _ => rfl⟩
  | succ taken ih =>
    obtain ⟨planeCounts, counts, hleading, hholds, hcounts⟩ := ih (by omega)
    have hlength : taken < hsorted.ranking.bundles.length := by
      simpa [ranking] using Nat.lt_of_succ_le htaken
    have hgroup : hsorted.ranking.bundles[taken] = group bundles[taken] := by
      simp [ranking]
    obtain ⟨hi, hfloor, _⟩ := hsorted.offers.bundle_mem _
      (getElem_mem (show taken < bundles.length from htaken))
    rw [take_succ_eq_append_getElem htaken, zipIdx_append, foldlM_append, hleading,
      ok_bind, length_take_of_le (by omega)]
    simp only [zipIdx_cons, zipIdx_nil, foldlM_cons, foldlM_nil, zero_add,
      hsorted.ranking.hullLevels_succ hlength, hgroup]
    by_cases hspecial : special = some taken
    · rw [if_neg (not_not.mpr hspecial)]
      refine ⟨planeCounts, counts, rfl, hholds, fun i hne => ?_⟩
      have hother : i ≠ group bundles[taken] := by
        rintro rfl
        refine hne taken hspecial ?_
        rw [getElem?_eq_getElem hlength, hgroup]
      rw [update_of_ne hother, hcounts i hne]
    · obtain ⟨written, hwritten, hnext⟩ := hput _ _ _ 3 hholds (Set.mem_Iio.mp hi) (by omega)
        le_rfl
      rw [if_pos hspecial, hwritten]
      refine ⟨written, _, rfl, hnext, fun i hne => ?_⟩
      rcases eq_or_ne i (group bundles[taken]) with rfl | hother
      · simp [hfloor]
      · rw [update_of_ne hother, update_of_ne hother, hcounts i hne]

/-- A choice is written as the floors raised by the levels it names. -/
theorem applyChoice_eq {indexes : RegularIndexes U B} (hunits : indexes.units = units)
    (hbundles : indexes.bundles = bundles) {choice : RegularChoice}
    (hvalid : ValidRegular indexes choice) (hstart : holds start c.floor) :
    ∃ planeCounts, applyChoice indexes put choice start = .ok planeCounts ∧
      holds planeCounts fun i => c.floor i + regularLevels hsorted.ranking choice i := by
  subst hunits hbundles
  obtain ⟨raised, hraised, hholds⟩ := hsorted.applyUnitPrefix_eq hput hstart hvalid.unitCount_le
  obtain ⟨planeCounts, counts, hfold, hfolded, hcounts⟩ := hsorted.foldlM_bundles_eq hput
    choice.exceptionalBundleRank hholds hvalid.prefix_le
  rw [applyChoice, hraised, ok_bind, hfold]
  obtain ⟨_, special⟩ := choice
  cases special with
  | none =>
    refine ⟨planeCounts, rfl, ?_⟩
    convert hfolded using 1
    funext i
    exact (hcounts i fun _ hrank => by cases hrank).symm
  | some rank =>
    have hrank : rank < indexes.bundles.length := hvalid.special_lt rank rfl
    have hlength : rank < hsorted.ranking.bundles.length := by
      simpa [ranking] using hrank
    have hgroup : hsorted.ranking.bundles[rank] = group indexes.bundles[rank] := by
      simp [ranking]
    obtain ⟨hi, hfloor, _⟩ := hsorted.offers.bundle_mem _ (getElem_mem hrank)
    obtain ⟨written, hwritten, hnext⟩ := hput _ _ _ 2 hfolded (Set.mem_Iio.mp hi) (by omega)
      (show 2 ≤ 3 by omega)
    refine ⟨written, ?_, ?_⟩
    · dsimp only
      rw [index_of_lt hrank]
      exact hwritten
    · convert hnext using 1
      funext i
      rw [regularLevels, choiceLevels, getD_eq_getElem _ _ hlength, hgroup]
      rcases eq_or_ne i (group indexes.bundles[rank]) with rfl | hne
      · simp [hfloor]
      · rw [update_of_ne hne, update_of_ne hne]
        refine (hcounts i fun other hother heq => hne ?_).symm
        rw [← Option.some.inj hother, getElem?_eq_getElem hlength, hgroup] at heq
        exact (Option.some.inj heq).symm

end Materialize

end SortedOffers

end Curves

end Tritium.Allocator
