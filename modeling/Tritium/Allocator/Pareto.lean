import Tritium.Allocator.Regular

/-!
# The bounded exact program

Unequal increments keep the two-dimensional multiple-choice knapsack. The frontier holds, after
each group, the states no other state beats in both byte counters and in distortion.
-/

namespace Tritium.Allocator

def maxExactFrontierStates : Nat := 4096

structure ExactState where
  bytes : PhysicalBytes
  distortion : ExactDistortion
  planeCounts : List Nat
deriving DecidableEq

def comparePruneOrder (left right : ExactState) : Ordering :=
  (((compare left.bytes.serialized right.bytes.serialized).then
    (compare left.bytes.resident right.bytes.resident)).then
    (left.distortion.cmp right.distortion)).then
    (List.compareLex compare right.planeCounts left.planeCounts)

/-- Pushes a state, or lets it compete with the last one when both cost the same bytes. The list is
kept with the last state first. -/
def dedupPush (deduplicated : List ExactState) (state : ExactState) : List ExactState :=
  match deduplicated with
  | [] => [state]
  | previous :: rest =>
    if previous.bytes = state.bytes then
      if state.distortion.cmp previous.distortion = .lt ∨ state.distortion = previous.distortion ∧
            List.compareLex compare state.planeCounts previous.planeCounts = .gt then
        state :: rest
      else
        previous :: rest
    else
      state :: previous :: rest

def dominates (other candidate : ExactState) : Bool :=
  decide (other.bytes.serialized ≤ candidate.bytes.serialized) &&
    decide (other.bytes.resident ≤ candidate.bytes.resident) &&
    decide (other.distortion.cmp candidate.distortion ≠ .gt)

def paretoPrune (states : List ExactState) : List ExactState :=
  let deduplicated := ((sortBy comparePruneOrder states).foldl dedupPush []).reverse
  (deduplicated.zipIdx.filter fun entry =>
    !deduplicated.zipIdx.any fun other =>
      decide (other.2 ≠ entry.2) && dominates other.1 entry.1).map Prod.fst

/-- One state with the group raised from its floor to `planes`, unless it no longer fits. -/
def expandChoice (limit : ProfileBudget) (profile : SaltV2Profile) (groupIndex : Nat)
    (group : GroupCandidates) (floor : Nat) (state : ExactState) (planes : Nat) :
    Outcome PhysicalAllocError (Option ExactState) := do
  let delta ← okOr (← bundleBytes group floor planes .effective)
    (.accountingOverflow profile)
  match state.bytes.checkedAdd delta with
  | none => return none
  | some bytes =>
    if !bytes.fitsWithin limit.maximum then
      return none
    else do
      let floorDistortion ← okOr
        (ExactDistortion.fromF64 (← distortionAt group floor)) (.accountingOverflow profile)
      let planesDistortion ← distortionAt group planes
      let distortion ← okOr
        ((state.distortion.checkedSub floorDistortion).bind fun withoutGroup =>
          withoutGroup.checkedAddF64 planesDistortion)
        (.accountingOverflow profile)
      let planeCounts ← setIndex state.planeCounts groupIndex planes
      return some { bytes, distortion, planeCounts }

def expandFrontier (limit : ProfileBudget) (profile : SaltV2Profile) (groupIndex : Nat)
    (group : GroupCandidates) (floor : Nat) (frontier : List ExactState) :
    Outcome PhysicalAllocError (List ExactState) := do
  let choices := List.range' floor (saltV2Planes - floor + 1)
  let next ← (frontier.flatMap fun state => choices.map fun planes => (state, planes)).mapM
    fun entry => expandChoice limit profile groupIndex group floor entry.1 entry.2
  return next.reduceOption

def advanceFrontier (limit : ProfileBudget) (profile : SaltV2Profile) (minimum : PhysicalBytes) :
    Nat → List GroupCandidates → List Nat → List ExactState →
      Outcome PhysicalAllocError (List ExactState)
  | _, [], _, frontier => .ok frontier
  | _, _ :: _, [], _ => .panic
  | groupIndex, group :: groups, floor :: floors, frontier =>
    if floor = saltV2Planes then
      advanceFrontier limit profile minimum (groupIndex + 1) groups floors frontier
    else do
      let expanded ← okOr
        (checkedMulUsize frontier.length (saltV2Planes - floor + 1)) (.accountingOverflow profile)
      if maxExactFrontierStates < expanded then
        .err (.stateSpaceTooLarge profile expanded)
      else do
        let next ← expandFrontier limit profile groupIndex group floor frontier
        if next.isEmpty then
          .err (.budgetTooSmall profile minimum limit.maximum)
        else
          advanceFrontier limit profile minimum (groupIndex + 1) groups floors (paretoPrune next)

def compareFinalOrder (left right : ExactState) : Ordering :=
  (((left.distortion.cmp right.distortion).then
    (compare left.bytes.serialized right.bytes.serialized)).then
    (compare left.bytes.resident right.bytes.resident)).then
    (List.compareLex compare right.planeCounts left.planeCounts)

def boundedExactPlaneCounts (groups : List GroupCandidates) (floors : List Nat)
    (limit : ProfileBudget) (profile : SaltV2Profile) :
    Outcome PhysicalAllocError (List Nat) := do
  let minimum ← minimumBytesForPrefix groups floors limit.metadata profile
  let distortion ← okOr (← exactTotalDistortion groups floors)
    (.accountingOverflow profile)
  let frontier ← advanceFrontier limit profile minimum 0 groups floors
    [{ bytes := minimum, distortion, planeCounts := floors }]
  let best ← okOr (minBy compareFinalOrder frontier)
    (.budgetTooSmall profile minimum limit.maximum)
  return best.planeCounts

end Tritium.Allocator
