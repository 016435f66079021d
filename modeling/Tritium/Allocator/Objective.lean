import Tritium.Allocator.Types
import Mathlib.Data.List.Lex
import Mathlib.Data.Prod.Lex
import Mathlib.Algebra.BigOperators.Group.List.Basic

/-!
# What an allocation is for

The allocators trade planes for bytes. Stated without any of their data structures: a plane vector
is feasible when it lies between the floors and three planes and both ledgers fit, and the wanted
one has the least exact distortion, then the fewest serialized and the fewest resident bytes, and is
the lexicographically greatest of those that still tie.
-/

namespace Tritium.Allocator

/-- Floors for every group, each one of the three plane counts. -/
structure IsFloorVector (groups : List GroupCandidates) (floors : List Nat) : Prop where
  length_eq : floors.length = groups.length
  bounds : ∀ floor ∈ floors, 1 ≤ floor ∧ floor ≤ saltV2Planes

/-- The distortion one group is left with, in units of `2 ^ -1074`. -/
def groupDistortion (group : GroupCandidates) (planes : Nat) : Nat :=
  ((group.candidates[planes - 1]?).map fun candidate => candidate.distortion.units).getD 0

def totalDistortion (groups : List GroupCandidates) (planeCounts : List Nat) : Nat :=
  (List.zipWith groupDistortion groups planeCounts).sum

/-- The bytes of one group in one byte domain. -/
def groupBytes (domain : PhysicalBytes → UInt64) (group : GroupCandidates) (planes : Nat) : Nat :=
  ((group.candidates.take planes).map fun candidate =>
    (domain candidate.byteDelta.effective).toNat).sum

def totalBytes (domain : PhysicalBytes → UInt64) (groups : List GroupCandidates)
    (metadata : ByteDelta) (planeCounts : List Nat) : Nat :=
  (domain metadata.effective).toNat + (List.zipWith (groupBytes domain) groups planeCounts).sum

structure Feasible (groups : List GroupCandidates) (floors : List Nat) (limit : ProfileBudget)
    (planeCounts : List Nat) : Prop where
  bounds : List.Forall₂ (fun floor planes => floor ≤ planes ∧ planes ≤ saltV2Planes) floors
    planeCounts
  serialized_le : totalBytes PhysicalBytes.serialized groups limit.metadata planeCounts ≤
    limit.maximum.serialized.toNat
  resident_le : totalBytes PhysicalBytes.resident groups limit.metadata planeCounts ≤
    limit.maximum.resident.toNat

def objective (groups : List GroupCandidates) (metadata : ByteDelta) (planeCounts : List Nat) :
    ℕ ×ₗ ℕ ×ₗ ℕ :=
  toLex (totalDistortion groups planeCounts,
    toLex (totalBytes PhysicalBytes.serialized groups metadata planeCounts,
      totalBytes PhysicalBytes.resident groups metadata planeCounts))

/-- At least as good: a smaller objective, or the same one and a vector at least as great. -/
def Preferred (groups : List GroupCandidates) (metadata : ByteDelta)
    (planeCounts other : List Nat) : Prop :=
  objective groups metadata planeCounts < objective groups metadata other ∨
    objective groups metadata planeCounts = objective groups metadata other ∧ other ≤ planeCounts

/-- The optimum of the feasible plane vectors, ties going to the greatest vector. -/
structure IsOptimal (groups : List GroupCandidates) (floors : List Nat) (limit : ProfileBudget)
    (planeCounts : List Nat) : Prop where
  feasible : Feasible groups floors limit planeCounts
  preferred : ∀ other, Feasible groups floors limit other →
    Preferred groups limit.metadata planeCounts other

/-- Every increment above the floors has the effective cost `cost`. -/
def UniformDelta (groups : List GroupCandidates) (floors : List Nat) (cost : PhysicalBytes) :
    Prop :=
  ∀ entry ∈ groups.zip floors, ∀ candidate ∈ entry.1.candidates.drop entry.2,
    candidate.byteDelta.effective = cost

def EqualDeltas (groups : List GroupCandidates) (floors : List Nat) : Prop :=
  ∃ cost, UniformDelta groups floors cost

end Tritium.Allocator
