import Tritium.Allocator.ExactDistortion
import Mathlib.Algebra.Order.Floor.Div

/-!
# Ranked upgrades

Upgrades sorted by the distortion they remove, with two indexes over the sorted list: block
checkpoints of the exact prefix sums, and a blocked range-minimum tree over the group ordinals,
which finds the first group two prefixes disagree on.
-/

namespace Tritium.Allocator

class RankedUpgrade (α : Type) where
  group : α → Nat
  reduction : α → ExactReduction

class RankedUnitUpgrade (α : Type) extends RankedUpgrade α where
  targetPlanes : α → Nat

class RankedBundledUpgrade (α : Type) extends RankedUpgrade α where
  firstPlaneReduction : α → ExactReduction

export RankedUpgrade (group reduction)
export RankedUnitUpgrade (targetPlanes)
export RankedBundledUpgrade (firstPlaneReduction)

variable {α : Type} [RankedUpgrade α]

def checkedReductionAdd (left right : ExactDistortion) (profile : SaltV2Profile) :
    Outcome PhysicalAllocError ExactDistortion :=
  .okOr (left.checkedAdd right) (.accountingOverflow profile)

def addReductions (profile : SaltV2Profile) (total : ExactDistortion) (upgrades : List α) :
    Outcome PhysicalAllocError ExactDistortion :=
  upgrades.foldlM
    (fun total upgrade =>
      checkedReductionAdd total (reduction upgrade).exact profile) total

def exactPrefixBlock : Nat := 64

structure ExactPrefixIndex where
  checkpoints : List ExactDistortion
  len : Nat

namespace ExactPrefixIndex

/-- The running totals at the ends of the full blocks, `position` upgrades being summed already. -/
def checkpointsFrom (profile : SaltV2Profile) :
    Nat → ExactDistortion → List α → Outcome PhysicalAllocError (List ExactDistortion)
  | _, _, [] => .ok []
  | position, total, upgrade :: rest => do
    let total ← checkedReductionAdd total (reduction upgrade).exact profile
    let checkpoints ← checkpointsFrom profile (position + 1) total rest
    return if (position + 1) % exactPrefixBlock = 0 then total :: checkpoints else checkpoints

def new (upgrades : List α) (profile : SaltV2Profile) :
    Outcome PhysicalAllocError ExactPrefixIndex := do
  let _ ← okOr (checkedAddUsize (upgrades.length ⌈/⌉ exactPrefixBlock) 1)
    (.accountingOverflow profile)
  let checkpoints ← checkpointsFrom profile 0 ExactDistortion.zero upgrades
  return { checkpoints := ExactDistortion.zero :: checkpoints, len := upgrades.length }

def sum (self : ExactPrefixIndex) (upgrades : List α) (count : Nat) (profile : SaltV2Profile) :
    Outcome PhysicalAllocError ExactDistortion := do
  let block := count / exactPrefixBlock
  let total ← Outcome.index self.checkpoints block
  let rest ← slice upgrades (block * exactPrefixBlock) count
  addReductions profile total rest

end ExactPrefixIndex

def lexIndexBlock : Nat := 64

def usizeMax : Nat := 2 ^ 64 - 1

structure RankedGroup where
  group : Nat
  rank : Nat
deriving DecidableEq, Repr

/-- No group: above every group that can occur. -/
def RankedGroup.none : RankedGroup := ⟨usizeMax, usizeMax⟩

def RankedGroup.min (self other : RankedGroup) : RankedGroup :=
  if self.group < other.group ∨ self.group = other.group ∧ self.rank ≤ other.rank then self
  else other

def rankedGroup (upgrades : List α) (rank : Nat) : Outcome PhysicalAllocError RankedGroup := do
  let upgrade ← Outcome.index upgrades rank
  return ⟨group upgrade, rank⟩

def minRankedGroup (upgrades : List α) (start stop : Nat) :
    Outcome PhysicalAllocError RankedGroup :=
  (List.range' start (stop - start)).foldlM
    (fun best rank => do
      let candidate ← rankedGroup upgrades rank
      return best.min candidate) RankedGroup.none

/-- The least power of two at or above `value`, when `usize` holds it. -/
def checkedNextPowerOfTwo (value : Nat) : Option Nat :=
  if value ≤ 1 then some 1
  else if Nat.log2 (value - 1) + 1 < 64 then some (2 ^ (Nat.log2 (value - 1) + 1))
  else none

structure LexGroupIndex where
  tree : List RankedGroup
  leaves : Nat
  len : Nat

namespace LexGroupIndex

def fillLeaves (upgrades : List α) (leaves : Nat) (tree : List RankedGroup) (blocks : Nat) :
    Outcome PhysicalAllocError (List RankedGroup) :=
  (List.range blocks).foldlM
    (fun tree block => do
      let start := block * lexIndexBlock
      let stop := min (start + lexIndexBlock) upgrades.length
      let least ← minRankedGroup upgrades start stop
      setIndex tree (leaves + block) least) tree

def fillNodes (tree : List RankedGroup) (leaves : Nat) :
    Outcome PhysicalAllocError (List RankedGroup) :=
  (List.range' 1 (leaves - 1)).reverse.foldlM
    (fun tree node => do
      let left ← Outcome.index tree (node * 2)
      let right ← Outcome.index tree (node * 2 + 1)
      setIndex tree node (left.min right)) tree

def new (upgrades : List α) (profile : SaltV2Profile) :
    Outcome PhysicalAllocError LexGroupIndex := do
  let blocks := upgrades.length ⌈/⌉ lexIndexBlock
  let leaves ← okOr (checkedNextPowerOfTwo (max blocks 1)) (.accountingOverflow profile)
  let slots ← okOr (checkedMulUsize leaves 2) (.accountingOverflow profile)
  let tree ← fillLeaves upgrades leaves (List.replicate slots RankedGroup.none) blocks
  let tree ← fillNodes tree leaves
  return { tree, leaves, len := upgrades.length }

/-- Advances `start` to a block boundary, one rank at a time. -/
def scanHead (upgrades : List α) :
    Nat → Nat → Nat → RankedGroup → Outcome PhysicalAllocError (Nat × RankedGroup)
  | 0, start, _, best => .ok (start, best)
  | fuel + 1, start, stop, best =>
    if start < stop ∧ start % lexIndexBlock ≠ 0 then do
      let candidate ← rankedGroup upgrades start
      scanHead upgrades fuel (start + 1) stop (best.min candidate)
    else
      .ok (start, best)

/-- Moves `stop` back to a block boundary, one rank at a time. -/
def scanTail (upgrades : List α) :
    Nat → Nat → Nat → RankedGroup → Outcome PhysicalAllocError (Nat × RankedGroup)
  | 0, _, stop, best => .ok (stop, best)
  | fuel + 1, start, stop, best =>
    if start < stop ∧ stop % lexIndexBlock ≠ 0 then do
      let candidate ← rankedGroup upgrades (stop - 1)
      scanTail upgrades fuel start (stop - 1) (best.min candidate)
    else
      .ok (stop, best)

/-- Walks two tree nodes upwards until they meet, taking every node that hangs inside. -/
def climb (tree : List RankedGroup) :
    Nat → Nat → Nat → RankedGroup → Outcome PhysicalAllocError RankedGroup
  | 0, _, _, best => .ok best
  | fuel + 1, left, right, best =>
    if left < right then do
      let (left, best) ←
        if left % 2 ≠ 0 then do
          let node ← Outcome.index tree left
          .ok (left + 1, best.min node)
        else .ok (left, best)
      let (right, best) ←
        if right % 2 ≠ 0 then do
          let node ← Outcome.index tree (right - 1)
          .ok (right - 1, best.min node)
        else .ok (right, best)
      climb tree fuel (left / 2) (right / 2) best
    else
      .ok best

def rangeMin (self : LexGroupIndex) (upgrades : List α) (start stop : Nat) :
    Outcome PhysicalAllocError (Option RankedGroup) :=
  if start = stop then
    .ok none
  else do
    let (start, best) ← scanHead upgrades (stop - start) start stop RankedGroup.none
    let (stop, best) ← scanTail upgrades (stop - start) start stop best
    let best ←
      if start < stop then
        let left := self.leaves + start / lexIndexBlock
        let right := self.leaves + stop / lexIndexBlock
        climb self.tree right left right best
      else .ok best
    return if best ≠ RankedGroup.none then some best else none

end LexGroupIndex

def minOptionalRanked (best : Option RankedGroup) (candidate : RankedGroup) : Option RankedGroup :=
  match best with
  | none => some candidate
  | some current => some (current.min candidate)

/-- Lets a range minimum compete, when there is one. -/
def minFound (best found : Option RankedGroup) : Option RankedGroup :=
  match found with
  | some candidate => minOptionalRanked best candidate
  | none => best

/-- The least group over `start..stop` without the excluded ranks. -/
def rangeMinExcluding (lexIndex : LexGroupIndex) (upgrades : List α) (start stop : Nat)
    (excluded : Option Nat × Option Nat) : Outcome PhysicalAllocError (Option RankedGroup) := do
  let first := excluded.1.getD usizeMax
  let second := excluded.2.getD usizeMax
  let (best, cursor) ← [min first second, max first second].foldlM
    (fun (state : Option RankedGroup × Nat) rank =>
      if rank < state.2 ∨ stop ≤ rank then
        .ok state
      else do
        let found ← lexIndex.rangeMin upgrades state.2 rank
        return (minFound state.1 found, rank + 1))
    (none, start)
  let found ← lexIndex.rangeMin upgrades cursor stop
  return minFound best found

end Tritium.Allocator
