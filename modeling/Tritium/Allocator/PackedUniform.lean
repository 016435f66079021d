import Tritium.Allocator.Regular

/-!
# The packed planner for uniform costs

The compact form of the regular allocator: floors and answers are two-bit maps, curves arrive one
at a time, and what is kept of them are the ranked upgrades.
-/

namespace Tritium.Allocator

structure CompactUnitUpgrade where
  distortionReduction : ExactReduction
  group : UInt32
  targetPlanes : UInt8
deriving DecidableEq

instance : RankedUnitUpgrade CompactUnitUpgrade where
  group upgrade := upgrade.group.toNat
  reduction := CompactUnitUpgrade.distortionReduction
  targetPlanes upgrade := upgrade.targetPlanes.toNat

structure CompactBundledUpgrade where
  distortionReduction : ExactReduction
  firstPlaneReduction : ExactReduction
  group : UInt32
deriving DecidableEq

instance : RankedBundledUpgrade CompactBundledUpgrade where
  group upgrade := upgrade.group.toNat
  reduction := CompactBundledUpgrade.distortionReduction
  firstPlaneReduction := CompactBundledUpgrade.firstPlaneReduction

/-- Two-bit plane counts, four to a byte: `00` is one plane, `01` two and `10` three. -/
structure PackedPlaneCounts where
  bytes : List UInt8
  len : UInt64
  length_eq : bytes.length = (len.toNat + 3) / 4
deriving DecidableEq

namespace PackedPlaneCounts

/-- The count at one group, indexing into the bytes being checked. -/
def get (self : PackedPlaneCounts) (index : UInt64) : Option UInt8 :=
  if self.len ≤ index then
    none
  else
    (self.bytes[(index / 4).toNat]?).map fun byte =>
      ((byte >>> ((index % 4) * 2).toUInt8) &&& 3) + 1

def setByte (byte : UInt8) (shift : UInt8) (count : UInt8) : UInt8 :=
  (byte &&& ~~~((3 : UInt8) <<< shift)) ||| (count - 1) <<< shift

def set (self : PackedPlaneCounts) (index : UInt64) (count : UInt8) :
    Outcome PhysicalAllocError PackedPlaneCounts :=
  match self.bytes[(index / 4).toNat]? with
  | some byte => .ok
      { bytes := self.bytes.set (index / 4).toNat (setByte byte ((index % 4) * 2).toUInt8 count)
        len := self.len
        length_eq := List.length_set.trans self.length_eq }
  | none => .panic

def presentPlanes (self : PackedPlaneCounts) : Outcome PhysicalAllocError UInt64 :=
  (List.range self.len.toNat).foldlM
    (fun total index => do
      let count ← expect (self.get (UInt64.ofNat index))
      return total + count.toUInt64)
    0

end PackedPlaneCounts

/-- Checks the distortions of one group from its first plane on. -/
def checkDistortions (group : Nat) :
    Nat → Option F64 → List F64 → Outcome PhysicalAllocError Unit
  | _, _, [] => .ok ()
  | planes, previous, distortion :: rest =>
    if !distortion.isFinite || F64.lt distortion F64.zero then
      .err (.invalidDistortion group planes distortion)
    else if previous.any fun before => F64.lt before distortion then
      .err (.nonMonotoneDistortion group planes)
    else
      checkDistortions group (planes + 1) (some distortion) rest

/-- One validated curve of cumulative distortions. -/
structure UniformPrefixCurve where
  distortions : List F64
  length_eq : distortions.length = 3
  accepted : checkDistortions 0 1 none distortions = .ok ()

def UniformPrefixCurve.new (distortions : List F64) (length_eq : distortions.length = 3) :
    Outcome PhysicalAllocError UniformPrefixCurve :=
  match accepted : checkDistortions 0 1 none distortions with
  | .ok () => .ok ⟨distortions, length_eq, accepted⟩
  | .err error => .err error
  | .panic => .panic

def validateCurveAt (curve : UniformPrefixCurve) (group : Nat) : Outcome PhysicalAllocError Unit :=
  checkDistortions group 1 none curve.distortions

inductive UniformProfileAllocError (E : Type) where
  | source (error : E)
  | allocation (error : PhysicalAllocError)
  | floorLength (expected actual : UInt64)
  | curveSourceShort (expected actual : UInt64)
  | curveSourceLong (expected : UInt64)
  | tooManyGroups (groups : UInt64)
deriving DecidableEq

structure PackedUniformProfilePlanner where
  expectedGroups : UInt64
  floors : PackedPlaneCounts
  additionalCapacity : UInt64
  profile : SaltV2Profile
  observedGroups : UInt64
  unitUpgrades : List CompactUnitUpgrade
  bundledUpgrades : List CompactBundledUpgrade
  floorDistortion : ExactDistortion
  availableUpgrades : Nat
  ceiling : UInt8

structure PackedUniformProfileAllocation where
  planeCounts : PackedPlaneCounts
  selectedUpgrades : UInt64
  totalDistortion : F64
  presentPlanes : UInt64
deriving DecidableEq

def pushUnit (upgrades : List CompactUnitUpgrade) (group : UInt32) (targetPlanes : UInt8)
    (reduction : ExactReduction) : List CompactUnitUpgrade :=
  if reduction.isZero then upgrades else upgrades ++ [⟨reduction, group, targetPlanes⟩]

namespace PackedUniformProfilePlanner

def newWithCeiling (expectedGroups : UInt64) (floors : PackedPlaneCounts)
    (additionalCapacity : UInt64) (profile : SaltV2Profile) (ceiling : UInt8) :
    Outcome (UniformProfileAllocError Empty) PackedUniformProfilePlanner :=
  if !(1 ≤ ceiling ∧ ceiling ≤ 3) then
    .err (.allocation (.planeOrdinal 0 3 ceiling.toNat))
  else if floors.len ≠ expectedGroups then
    .err (.floorLength expectedGroups floors.len)
  else if 2 ^ 32 ≤ expectedGroups.toNat then
    .err (.tooManyGroups expectedGroups)
  else
    .ok
      { expectedGroups, floors, additionalCapacity, profile
        observedGroups := 0
        unitUpgrades := []
        bundledUpgrades := []
        floorDistortion := ExactDistortion.zero
        availableUpgrades := 0
        ceiling }

def new (expectedGroups : UInt64) (floors : PackedPlaneCounts) (additionalCapacity : UInt64)
    (profile : SaltV2Profile) :
    Outcome (UniformProfileAllocError Empty) PackedUniformProfilePlanner :=
  newWithCeiling expectedGroups floors additionalCapacity profile 3

/-- What one curve offers between its floor and the ceiling. -/
def pushUpgrades (self : PackedUniformProfilePlanner) (curve : UniformPrefixCurve) (floor : UInt8)
    (group : UInt32) :
    Outcome PhysicalAllocError (List CompactUnitUpgrade × List CompactBundledUpgrade) := do
  let first ← Outcome.index curve.distortions 0
  let second ← Outcome.index curve.distortions 1
  let third ← Outcome.index curve.distortions 2
  if floor = 1 ∧ self.ceiling = 2 then do
    let reduction ← exactReduction first second self.profile
    return (pushUnit self.unitUpgrades group 2 reduction, self.bundledUpgrades)
  else if self.ceiling ≤ floor then
    return (self.unitUpgrades, self.bundledUpgrades)
  else if floor = 1 then do
    let firstReduction ← exactReduction first second self.profile
    let secondReduction ← exactReduction second third self.profile
    if secondReduction.cmp firstReduction = .gt then do
      let both ← exactReduction first third self.profile
      return (self.unitUpgrades, self.bundledUpgrades ++ [⟨both, firstReduction, group⟩])
    else
      return (pushUnit (pushUnit self.unitUpgrades group 2 firstReduction) group 3 secondReduction,
        self.bundledUpgrades)
  else if floor = 2 then do
    let reduction ← exactReduction second third self.profile
    return (pushUnit self.unitUpgrades group 3 reduction, self.bundledUpgrades)
  else
    .panic

def push (self : PackedUniformProfilePlanner) (curve : UniformPrefixCurve) :
    Outcome (UniformProfileAllocError Empty) PackedUniformProfilePlanner :=
  if self.observedGroups = self.expectedGroups then
    .err (.curveSourceLong self.expectedGroups)
  else do
    let group := self.observedGroups.toNat
    (validateCurveAt curve group).mapErr .allocation
    let floor ← okOr (self.floors.get self.observedGroups)
      (.floorLength self.expectedGroups self.observedGroups)
    let distortion ← Outcome.index curve.distortions (floor.toNat - 1)
    let floorDistortion ← okOr (self.floorDistortion.checkedAddF64 distortion)
      (.allocation (.accountingOverflow self.profile))
    if self.ceiling < floor then
      .err (.allocation (.planeOrdinal group self.ceiling.toNat floor.toNat))
    else do
      let availableUpgrades ← okOr
        (checkedAddUsize self.availableUpgrades (self.ceiling.toNat - floor.toNat))
        (.allocation (.accountingOverflow self.profile))
      let compactGroup ← expect
        (if group < 2 ^ 32 then some (UInt32.ofNat group) else none)
      let (unitUpgrades, bundledUpgrades) ←
        (self.pushUpgrades curve floor compactGroup).mapErr .allocation
      return { self with
        floorDistortion := floorDistortion
        availableUpgrades := availableUpgrades
        unitUpgrades := unitUpgrades
        bundledUpgrades := bundledUpgrades
        observedGroups := self.observedGroups + 1 }

end PackedUniformProfilePlanner

def finishUniformProfile (floors : PackedPlaneCounts) (additionalCapacity : UInt64)
    (profile : SaltV2Profile) (floorDistortion : ExactDistortion) (availableUpgrades : Nat)
    (unitUpgrades : List CompactUnitUpgrade) (bundledUpgrades : List CompactBundledUpgrade) :
    Outcome PhysicalAllocError PackedUniformProfileAllocation := do
  let indexes ← buildIndexes unitUpgrades bundledUpgrades profile
  let capacity := min additionalCapacity.toNat availableUpgrades
  let choice ← bestRegularChoice indexes profile capacity
  let selectedUpgrades ← okOr
    (checkedAddUsize choice.hull.upgrades choice.exceptionalBundleRank.isSome.toNat)
    (.accountingOverflow profile)
  let reduction ← regularReduction indexes profile choice
  let totalDistortion ← okOr
    ((floorDistortion.checkedSub reduction).bind ExactDistortion.toF64)
    (.accountingOverflow profile)
  let planeCounts ← applyChoice indexes
    (fun planeCounts group planes =>
      PackedPlaneCounts.set planeCounts (UInt64.ofNat group) (UInt8.ofNat planes))
    choice floors
  let presentPlanes ← planeCounts.presentPlanes
  return ⟨planeCounts, UInt64.ofNat selectedUpgrades, totalDistortion, presentPlanes⟩

def PackedUniformProfilePlanner.finish (self : PackedUniformProfilePlanner) :
    Outcome (UniformProfileAllocError Empty) PackedUniformProfileAllocation :=
  if self.observedGroups ≠ self.expectedGroups then
    .err (.curveSourceShort self.expectedGroups self.observedGroups)
  else
    (finishUniformProfile self.floors self.additionalCapacity self.profile self.floorDistortion
      self.availableUpgrades (sortBy compareUnits self.unitUpgrades)
      (sortBy compareBundles self.bundledUpgrades)).mapErr .allocation

end Tritium.Allocator
