import Tritium.Allocator.Ranked
import Tritium.Lib.Ordering

/-!
# The regular allocator

When every effective increment above the floors costs the same, both byte ceilings become one
ceiling on the number of upgrades. Concave groups then offer independent unit upgrades, the others
a two-plane bundle, and at most one bundle stops half way.
-/

namespace Tritium.Allocator

structure UnitUpgrade where
  group : Nat
  targetPlanes : Nat
  distortionReduction : ExactReduction
deriving DecidableEq

instance : RankedUnitUpgrade UnitUpgrade where
  group := UnitUpgrade.group
  reduction := UnitUpgrade.distortionReduction
  targetPlanes := UnitUpgrade.targetPlanes

structure BundledUpgrade where
  group : Nat
  distortionReduction : ExactReduction
  firstPlaneReduction : ExactReduction
deriving DecidableEq

instance : RankedBundledUpgrade BundledUpgrade where
  group := BundledUpgrade.group
  reduction := BundledUpgrade.distortionReduction
  firstPlaneReduction := BundledUpgrade.firstPlaneReduction

structure HullChoice where
  bundleCount : Nat
  unitCount : Nat
  replacementAfterExclusion : Bool
deriving DecidableEq, Repr

def HullChoice.upgrades (self : HullChoice) : Nat := self.bundleCount * 2 + self.unitCount

def HullChoice.bundlePrefixLen (self : HullChoice) : Nat :=
  self.bundleCount + self.replacementAfterExclusion.toNat

structure RegularChoice where
  hull : HullChoice
  exceptionalBundleRank : Option Nat
deriving DecidableEq, Repr

structure RegularIndexes (U B : Type) where
  unitSums : ExactPrefixIndex
  bundleSums : ExactPrefixIndex
  unitLex : LexGroupIndex
  bundleLex : LexGroupIndex
  units : List U
  bundles : List B

section Choices

variable {U B : Type} [RankedUnitUpgrade U] [RankedBundledUpgrade B]
  (indexes : RegularIndexes U B) (profile : SaltV2Profile)

def hullReduction (choice : HullChoice) (excludedBundleRank : Option Nat) :
    Outcome PhysicalAllocError ExactDistortion := do
  let unitReduction ← indexes.unitSums.sum indexes.units choice.unitCount profile
  let bundleReduction ← indexes.bundleSums.sum indexes.bundles choice.bundlePrefixLen profile
  let bundleReduction ← match excludedBundleRank with
    | some excludedRank =>
      if excludedRank < choice.bundlePrefixLen then do
        let bundle ← Outcome.index indexes.bundles excludedRank
        okOr (bundleReduction.checkedSub (reduction bundle).exact)
          (.accountingOverflow profile)
      else .ok bundleReduction
    | none => .ok bundleReduction
  checkedReductionAdd unitReduction bundleReduction profile

def regularReduction (choice : RegularChoice) : Outcome PhysicalAllocError ExactDistortion := do
  let reduction ← hullReduction indexes profile choice.hull choice.exceptionalBundleRank
  match choice.exceptionalBundleRank with
  | some exceptionalRank => do
    let bundle ← Outcome.index indexes.bundles exceptionalRank
    checkedReductionAdd reduction (firstPlaneReduction bundle).exact profile
  | none => .ok reduction

def hullBundlePlanes (choice : HullChoice) (rank : Nat) (excludedBundleRank : Option Nat) : Nat :=
  if excludedBundleRank = some rank then 1
  else if rank < choice.bundlePrefixLen then 3
  else 1

def bundlePlanesForChoice (choice : RegularChoice) (rank : Nat) : Nat :=
  if choice.exceptionalBundleRank = some rank then 2
  else if rank < choice.hull.bundleCount + choice.hull.replacementAfterExclusion.toNat then 3
  else 1

def prefixDifference {α : Type} [RankedUpgrade α] (lexIndex : LexGroupIndex) (upgrades : List α)
    (candidateCount currentCount : Nat) :
    Outcome PhysicalAllocError (Option (RankedGroup × Bool)) :=
  if candidateCount ≠ currentCount then do
    let found ← lexIndex.rangeMin upgrades (min candidateCount currentCount)
      (max candidateCount currentCount)
    let first ← expect found
    return some (first, decide (currentCount < candidateCount))
  else
    return none

def firstDifferencePrefersCandidate (unitDifference : Option (RankedGroup × Bool))
    (bundleDifference : Option RankedGroup) (candidateBundlePlanes currentBundlePlanes : Nat → Nat) :
    Bool :=
  match unitDifference, bundleDifference with
  | none, none => false
  | some (_, candidateHasMore), none => candidateHasMore
  | none, some bundle =>
    decide (currentBundlePlanes bundle.rank < candidateBundlePlanes bundle.rank)
  | some (unit, candidateHasMore), some bundle =>
    if unit.group < bundle.group then candidateHasMore
    else decide (currentBundlePlanes bundle.rank < candidateBundlePlanes bundle.rank)

def firstHullBundleDifference (candidate current : HullChoice)
    (excludedBundleRank : Option Nat) : Outcome PhysicalAllocError (Option RankedGroup) := do
  let candidateTake := candidate.bundlePrefixLen
  let currentTake := current.bundlePrefixLen
  let best ← rangeMinExcluding indexes.bundleLex indexes.bundles (min candidateTake currentTake)
    (max candidateTake currentTake) (excludedBundleRank, none)
  match excludedBundleRank with
  | some rank =>
    if hullBundlePlanes candidate rank excludedBundleRank ≠
        hullBundlePlanes current rank excludedBundleRank then do
      let ranked ← rankedGroup indexes.bundles rank
      return minOptionalRanked best ranked
    else
      return best
  | none => return best

/-- One pass of the loop over the exceptional ranks; the second is skipped when it repeats. -/
def exceptionalDifference (candidate current : RegularChoice)
    (state : Option RankedGroup × Option Nat) (rank : Nat) :
    Outcome PhysicalAllocError (Option RankedGroup × Option Nat) :=
  if state.2 = some rank then
    .ok state
  else if bundlePlanesForChoice candidate rank ≠ bundlePlanesForChoice current rank then do
    let ranked ← rankedGroup indexes.bundles rank
    return (minOptionalRanked state.1 ranked, some rank)
  else
    return (state.1, some rank)

def firstRegularBundleDifference (candidate current : RegularChoice) :
    Outcome PhysicalAllocError (Option RankedGroup) := do
  let candidateTake := candidate.hull.bundlePrefixLen
  let currentTake := current.hull.bundlePrefixLen
  let best ← rangeMinExcluding indexes.bundleLex indexes.bundles (min candidateTake currentTake)
    (max candidateTake currentTake)
    (candidate.exceptionalBundleRank, current.exceptionalBundleRank)
  let (best, _) ←
    [candidate.exceptionalBundleRank, current.exceptionalBundleRank].reduceOption.foldlM
      (exceptionalDifference indexes candidate current) (best, none)
  return best

def hullChoiceLexIsGreater (candidate current : HullChoice) (excludedBundleRank : Option Nat) :
    Outcome PhysicalAllocError Bool := do
  let unitDifference ← prefixDifference indexes.unitLex indexes.units candidate.unitCount
    current.unitCount
  let bundleDifference ← firstHullBundleDifference indexes candidate current excludedBundleRank
  return firstDifferencePrefersCandidate unitDifference bundleDifference
    (fun rank => hullBundlePlanes candidate rank excludedBundleRank)
    (fun rank => hullBundlePlanes current rank excludedBundleRank)

def regularChoiceLexIsGreater (candidate current : RegularChoice) :
    Outcome PhysicalAllocError Bool := do
  let unitDifference ← prefixDifference indexes.unitLex indexes.units candidate.hull.unitCount
    current.hull.unitCount
  let bundleDifference ← firstRegularBundleDifference indexes candidate current
  return firstDifferencePrefersCandidate unitDifference bundleDifference
    (bundlePlanesForChoice candidate) (bundlePlanesForChoice current)

def hullChoiceIsBetter (candidate current : HullChoice) (excludedBundleRank : Option Nat) :
    Outcome PhysicalAllocError Bool := do
  let candidateReduction ← hullReduction indexes profile candidate excludedBundleRank
  let currentReduction ← hullReduction indexes profile current excludedBundleRank
  match candidateReduction.cmp currentReduction with
  | .gt => return true
  | .lt => return false
  | .eq =>
    if candidate.upgrades ≠ current.upgrades then
      return decide (candidate.upgrades < current.upgrades)
    else
      hullChoiceLexIsGreater indexes candidate current excludedBundleRank

def regularChoiceIsBetter (candidate current : RegularChoice) :
    Outcome PhysicalAllocError Bool := do
  let candidateUpgrades := candidate.hull.upgrades + candidate.exceptionalBundleRank.isSome.toNat
  let currentUpgrades := current.hull.upgrades + current.exceptionalBundleRank.isSome.toNat
  let candidateReduction ← regularReduction indexes profile candidate
  let currentReduction ← regularReduction indexes profile current
  match candidateReduction.cmp currentReduction with
  | .gt => return true
  | .lt => return false
  | .eq =>
    if candidateUpgrades ≠ currentUpgrades then
      return decide (candidateUpgrades < currentUpgrades)
    else
      regularChoiceLexIsGreater indexes candidate current

def retainBetterHullChoice (best : Option HullChoice) (candidate : HullChoice)
    (excludedBundleRank : Option Nat) : Outcome PhysicalAllocError (Option HullChoice) := do
  let replace ← match best with
    | none => .ok true
    | some current => hullChoiceIsBetter indexes profile candidate current excludedBundleRank
  return if replace then some candidate else best

def retainBetterRegularChoice (best : Option RegularChoice) (candidate : RegularChoice) :
    Outcome PhysicalAllocError (Option RegularChoice) := do
  let replace ← match best with
    | none => .ok true
    | some current => regularChoiceIsBetter indexes profile candidate current
  return if replace then some candidate else best

/-- The hull with `selectedBundles` bundles and as many units as still fit. -/
def hullWithBundles (capacity selectedBundles : Nat) (replacementAfterExclusion : Bool) :
    HullChoice :=
  { bundleCount := selectedBundles
    unitCount := min indexes.units.length (capacity - selectedBundles * 2)
    replacementAfterExclusion }

def bestOrdinaryChoice (capacity : Nat) : Outcome PhysicalAllocError (Option RegularChoice) :=
  (List.range (min indexes.bundles.length (capacity / 2) + 1)).foldlM
    (fun best selectedBundles =>
      retainBetterRegularChoice indexes profile best
        { hull := hullWithBundles indexes capacity selectedBundles false
          exceptionalBundleRank := none })
    none

/-- For every bundle count, the best count at or below it. -/
def ordinaryPrefixBest (residualCapacity ordinaryMaximum : Nat) :
    Outcome PhysicalAllocError (List Nat) := do
  let (_, counts) ← (List.range (ordinaryMaximum + 1)).foldlM
    (fun (state : Option HullChoice × List Nat) selectedBundles => do
      let (prefixBest, counts) := state
      let prefixBest ← retainBetterHullChoice indexes profile prefixBest
        (hullWithBundles indexes residualCapacity selectedBundles false) none
      let current ← expect prefixBest
      return (prefixBest, counts ++ [current.bundleCount]))
    (none, [])
  return counts

/-- For every bundle count, the best count at or above it, one extra bundle being taken for the
one that is going to be excluded. -/
def replacementSuffixBest (residualCapacity replacementMaximum : Nat) :
    Outcome PhysicalAllocError (List Nat) := do
  let (_, counts) ← (List.range (replacementMaximum + 1)).reverse.foldlM
    (fun (state : Option HullChoice × List Nat) selectedBundles => do
      let (suffixBest, counts) := state
      let suffixBest ← retainBetterHullChoice indexes profile suffixBest
        (hullWithBundles indexes residualCapacity selectedBundles true) none
      let current ← expect suffixBest
      let counts ← setIndex counts selectedBundles current.bundleCount
      return (suffixBest, counts))
    (none, List.replicate (replacementMaximum + 1) 0)
  return counts

/-- The best hull once one bundle is set aside. -/
def bestWithoutBundle (residualCapacity ordinaryMaximum replacementMaximum : Nat)
    (ordinaryBest replacementBest : List Nat) (excludedRank : Nat) :
    Outcome PhysicalAllocError HullChoice := do
  let ordinaryBundles ← Outcome.index ordinaryBest (min excludedRank ordinaryMaximum)
  let ordinary := hullWithBundles indexes residualCapacity ordinaryBundles false
  if excludedRank < replacementMaximum then do
    let replacementBundles ← Outcome.index replacementBest (excludedRank + 1)
    let best ← retainBetterHullChoice indexes profile (some ordinary)
      (hullWithBundles indexes residualCapacity replacementBundles true) (some excludedRank)
    expect best
  else
    return ordinary

def bestExceptionalChoice (capacity : Nat) (best : Option RegularChoice) :
    Outcome PhysicalAllocError (Option RegularChoice) := do
  let residualCapacity := capacity - 1
  let ordinaryMaximum := min indexes.bundles.length (residualCapacity / 2)
  let _ ← okOr (checkedAddUsize ordinaryMaximum 1) (.accountingOverflow profile)
  let ordinaryBest ← ordinaryPrefixBest indexes profile residualCapacity ordinaryMaximum
  let replacementMaximum := min (indexes.bundles.length - 1) (residualCapacity / 2)
  let _ ← okOr (checkedAddUsize replacementMaximum 1) (.accountingOverflow profile)
  let replacementBest ← replacementSuffixBest indexes profile residualCapacity replacementMaximum
  indexes.bundles.zipIdx.foldlM
    (fun best (entry : B × Nat) =>
      let (bundle, excludedRank) := entry
      if (firstPlaneReduction bundle).isZero then
        .ok best
      else do
        let hull ← bestWithoutBundle indexes profile residualCapacity ordinaryMaximum
          replacementMaximum ordinaryBest replacementBest excludedRank
        retainBetterRegularChoice indexes profile best
          { hull, exceptionalBundleRank := some excludedRank })
    best

def bestRegularChoice (capacity : Nat) : Outcome PhysicalAllocError RegularChoice := do
  let best ← bestOrdinaryChoice indexes profile capacity
  let best ←
    if 0 < capacity ∧ indexes.bundles ≠ [] then bestExceptionalChoice indexes profile capacity best
    else .ok best
  expect best

/-- Writes the targets of the first `unitCount` unit upgrades into a plane map. -/
def applyUnitPrefix {U S : Type} [RankedUnitUpgrade U]
    (put : S → Nat → Nat → Outcome PhysicalAllocError S) (planeCounts : S) (units : List U)
    (unitCount : Nat) : Outcome PhysicalAllocError S :=
  (units.take unitCount).foldlM
    (fun planeCounts upgrade =>
      put planeCounts (group upgrade) (targetPlanes upgrade))
    planeCounts

/-- Writes a choice into a plane map: plane vectors and packed maps differ only in `put`. -/
def applyChoice {S : Type} (put : S → Nat → Nat → Outcome PhysicalAllocError S)
    (choice : RegularChoice) (floors : S) : Outcome PhysicalAllocError S := do
  let planeCounts ← applyUnitPrefix put floors indexes.units choice.hull.unitCount
  let planeCounts ← (indexes.bundles.take choice.hull.bundlePrefixLen).zipIdx.foldlM
    (fun planeCounts (entry : B × Nat) =>
      if choice.exceptionalBundleRank ≠ some entry.2 then
        put planeCounts (group entry.1) 3
      else .ok planeCounts)
    planeCounts
  match choice.exceptionalBundleRank with
  | some excludedRank => do
    let bundle ← Outcome.index indexes.bundles excludedRank
    put planeCounts (group bundle) 2
  | none => return planeCounts

def materializeRegularChoice (choice : RegularChoice) (floors : List Nat) :
    Outcome PhysicalAllocError (List Nat) :=
  applyChoice indexes setIndex choice floors

end Choices

/-! ### Reducing the ceilings to one cardinality -/

/-- Scans one group's increments above its floor. The outer `none` reports unequal costs. -/
def scanGroupCosts (profile : SaltV2Profile) (group : GroupCandidates) :
    List Nat → Option PhysicalBytes → Nat →
      Outcome PhysicalAllocError (Option (Option PhysicalBytes × Nat))
  | [], commonCost, availableUpgrades => .ok (some (commonCost, availableUpgrades))
  | targetPlanes :: rest, commonCost, availableUpgrades => do
    let candidate ← Outcome.index group.candidates (targetPlanes - 1)
    let cost := candidate.byteDelta.effective
    if commonCost.any fun expected => decide (expected ≠ cost) then
      return none
    else do
      let availableUpgrades ← okOr (checkedAddUsize availableUpgrades 1)
        (.accountingOverflow profile)
      scanGroupCosts profile group rest (some cost) availableUpgrades

def targetsAbove (floor : Nat) : List Nat := List.range' (floor + 1) (saltV2Planes - floor)

def scanCosts (profile : SaltV2Profile) :
    List GroupCandidates → List Nat → Option PhysicalBytes → Nat →
      Outcome PhysicalAllocError (Option (Option PhysicalBytes × Nat))
  | [], _, commonCost, availableUpgrades => .ok (some (commonCost, availableUpgrades))
  | _ :: _, [], _, _ => .panic
  | group :: groups, floor :: floors, commonCost, availableUpgrades => do
    match ← scanGroupCosts profile group (targetsAbove floor) commonCost availableUpgrades with
    | none => return none
    | some (commonCost, availableUpgrades) =>
      scanCosts profile groups floors commonCost availableUpgrades

def equalCostCapacity (remaining cost : UInt64) (available : Nat) : Nat :=
  if cost = 0 then available else min (remaining / cost).toNat available

def exactReduction (fromValue toValue : F64) (profile : SaltV2Profile) :
    Outcome PhysicalAllocError ExactReduction :=
  .okOr (ExactReduction.new fromValue toValue) (.accountingOverflow profile)

def unitUpgradeUnlessZero (group targetPlanes : Nat) (distortionReduction : ExactReduction) :
    List UnitUpgrade :=
  if distortionReduction.isZero then [] else [{ group, targetPlanes, distortionReduction }]

def groupUpgrades (profile : SaltV2Profile) (index : Nat) (group : GroupCandidates)
    (floor : Nat) : Outcome PhysicalAllocError (List UnitUpgrade × List BundledUpgrade) :=
  match floor with
  | 1 => do
    let first ← exactReduction (← distortionAt group 1) (← distortionAt group 2) profile
    let second ← exactReduction (← distortionAt group 2) (← distortionAt group 3) profile
    if second.cmp first = .gt then do
      let both ← exactReduction (← distortionAt group 1) (← distortionAt group 3) profile
      return ([], [⟨index, both, first⟩])
    else
      return (unitUpgradeUnlessZero index 2 first ++ unitUpgradeUnlessZero index 3 second, [])
  | 2 => do
    let reduction ← exactReduction (← distortionAt group 2) (← distortionAt group 3) profile
    return (unitUpgradeUnlessZero index 3 reduction, [])
  | 3 => return ([], [])
  | _ => .panic

def collectUpgrades (profile : SaltV2Profile) :
    Nat → List GroupCandidates → List Nat →
      Outcome PhysicalAllocError (List UnitUpgrade × List BundledUpgrade)
  | _, [], _ => .ok ([], [])
  | _, _ :: _, [] => .panic
  | index, group :: groups, floor :: floors => do
    let (units, bundles) ← groupUpgrades profile index group floor
    let (restUnits, restBundles) ← collectUpgrades profile (index + 1) groups floors
    return (units ++ restUnits, bundles ++ restBundles)

def compareUnits {U : Type} [RankedUnitUpgrade U] (left right : U) : Ordering :=
  ((compareReductionDescending (reduction left) (reduction right)).then
    (compare (group left) (group right))).then
    (compare (targetPlanes left) (targetPlanes right))

def compareBundles {B : Type} [RankedBundledUpgrade B] (left right : B) : Ordering :=
  (compareReductionDescending (reduction left) (reduction right)).then
    (compare (group left) (group right))

def buildIndexes {U B : Type} [RankedUnitUpgrade U] [RankedBundledUpgrade B] (units : List U)
    (bundles : List B) (profile : SaltV2Profile) :
    Outcome PhysicalAllocError (RegularIndexes U B) := do
  let unitSums ← ExactPrefixIndex.new units profile
  let bundleSums ← ExactPrefixIndex.new bundles profile
  let unitLex ← LexGroupIndex.new units profile
  let bundleLex ← LexGroupIndex.new bundles profile
  return { unitSums, bundleSums, unitLex, bundleLex, units, bundles }

/-- Solves the equal-cost case exactly; `none` leaves unequal costs to the bounded program. -/
def regularPlaneCounts (groups : List GroupCandidates) (floors : List Nat)
    (limit : ProfileBudget) (profile : SaltV2Profile) :
    Outcome PhysicalAllocError (Option (List Nat)) := do
  match ← scanCosts profile groups floors none 0 with
  | none => return none
  | some (none, _) => return some floors
  | some (some commonCost, availableUpgrades) => do
    let base ← minimumBytesForPrefix groups floors limit.metadata profile
    let serializedCapacity := equalCostCapacity
      (limit.maximum.serialized - base.serialized) commonCost.serialized availableUpgrades
    let residentCapacity := equalCostCapacity
      (limit.maximum.resident - base.resident) commonCost.resident availableUpgrades
    let capacity := min serializedCapacity residentCapacity
    if capacity = 0 then
      return some floors
    else if commonCost = PhysicalBytes.zero then
      return some (List.replicate groups.length saltV2Planes)
    else do
      let (unitUpgrades, bundledUpgrades) ← collectUpgrades profile 0 groups floors
      let indexes ← buildIndexes (sortBy compareUnits unitUpgrades)
        (sortBy compareBundles bundledUpgrades) profile
      let choice ← bestRegularChoice indexes profile capacity
      let planeCounts ← materializeRegularChoice indexes choice floors
      return some planeCounts

end Tritium.Allocator
