import Tritium.Lib.Binary64
import Tritium.Lib.Machine

/-!
# SALT V2 allocation inputs

Byte counters, candidates, budgets and errors of the exact physical-byte allocator, and the checks
it makes of its groups.
-/

namespace Tritium.Allocator

def saltV2Planes : Nat := 3

/-- Exact byte counts in the serialized package and in the resident runtime image. -/
structure PhysicalBytes where
  serialized : UInt64
  resident : UInt64
deriving DecidableEq, Repr

namespace PhysicalBytes

def zero : PhysicalBytes := ⟨0, 0⟩

/-- Adds both byte domains, or returns `none` rather than wrapping either counter. -/
def checkedAdd (left right : PhysicalBytes) : Option PhysicalBytes :=
  if left.serialized.toNat + right.serialized.toNat < 2 ^ 64 then
    if left.resident.toNat + right.resident.toNat < 2 ^ 64 then
      some ⟨left.serialized + right.serialized, left.resident + right.resident⟩
    else
      none
  else
    none

/-- Whether both counters are at or below `maximum`. -/
def fitsWithin (bytes maximum : PhysicalBytes) : Bool :=
  decide (bytes.serialized ≤ maximum.serialized) && decide (bytes.resident ≤ maximum.resident)

end PhysicalBytes

/-- One incremental cost: its declaration, and its measurement once materialized. -/
structure ByteDelta where
  declared : PhysicalBytes
  measured : Option PhysicalBytes
deriving DecidableEq, Repr

/-- Measured bytes when present, otherwise the declaration. -/
def ByteDelta.effective (delta : ByteDelta) : PhysicalBytes :=
  match delta.measured with
  | some measured => measured
  | none => delta.declared

/-- One nested plane-count candidate. The byte delta is the cost of appending this plane, the
distortion what is left after all planes through it. -/
structure PlaneCandidate where
  planes : Nat
  byteDelta : ByteDelta
  distortion : F64
deriving DecidableEq, Repr

structure GroupCandidates where
  candidates : List PlaneCandidate
deriving DecidableEq, Repr

structure ProfileBudget where
  maximum : PhysicalBytes
  metadata : ByteDelta
deriving DecidableEq, Repr

inductive SaltV2Profile where
  | compactV1
  | nearLosslessV1
deriving DecidableEq, Repr

inductive PhysicalAllocError where
  | emptyGroups
  | candidateCount (group count : Nat)
  | planeOrdinal (group expected actual : Nat)
  | invalidDistortion (group planes : Nat) (distortion : F64)
  | nonMonotoneDistortion (group planes : Nat)
  | budgetTooSmall (profile : SaltV2Profile) (required maximum : PhysicalBytes)
  | accountingOverflow (profile : SaltV2Profile)
  | stateSpaceTooLarge (profile : SaltV2Profile) (states : Nat)
  | workingMemoryUnavailable (profile : SaltV2Profile)
deriving DecidableEq, Repr

/-- The most bytes a slice can span. -/
def isizeMax : Nat := 2 ^ 63 - 1

/-- The bytes of one group in a slice of groups: the pointer and the length of its candidates. -/
def groupCandidatesBytes : Nat := 16

/-- `checked_add` on `usize`. -/
def checkedAddUsize (left right : Nat) : Option Nat :=
  if left + right < 2 ^ 64 then some (left + right) else none

/-- `checked_mul` on `usize`. -/
def checkedMulUsize (left right : Nat) : Option Nat :=
  if left * right < 2 ^ 64 then some (left * right) else none

/-- Checks one group's candidates, `previous` being the distortion just below. -/
def validateCandidates (group : Nat) :
    Nat → Option F64 → List PlaneCandidate → Outcome PhysicalAllocError Unit
  | _, _, [] => .ok ()
  | expected, previous, candidate :: rest =>
    if candidate.planes ≠ expected then
      .err (.planeOrdinal group expected candidate.planes)
    else if !(candidate.distortion.isFinite && F64.le F64.zero candidate.distortion) then
      .err (.invalidDistortion group candidate.planes candidate.distortion)
    else if previous.any fun distortion => F64.lt distortion candidate.distortion then
      .err (.nonMonotoneDistortion group candidate.planes)
    else
      validateCandidates group (expected + 1) (some candidate.distortion) rest

def validateGroupsFrom : Nat → List GroupCandidates → Outcome PhysicalAllocError Unit
  | _, [] => .ok ()
  | index, group :: rest =>
    if group.candidates.length ≠ saltV2Planes then
      .err (.candidateCount index group.candidates.length)
    else do
      validateCandidates index 1 none group.candidates
      validateGroupsFrom (index + 1) rest

def validateGroups (groups : List GroupCandidates) : Outcome PhysicalAllocError Unit :=
  if groups.isEmpty then .err .emptyGroups else validateGroupsFrom 0 groups

inductive ByteMode where
  | declared
  | effective
deriving DecidableEq, Repr

def ByteMode.bytes (mode : ByteMode) (delta : ByteDelta) : PhysicalBytes :=
  match mode with
  | .declared => delta.declared
  | .effective => delta.effective

/-- Ledger totals in `u128`, where addition saturates. -/
structure WideBytes where
  serialized : Nat
  resident : Nat
deriving DecidableEq, Repr

namespace WideBytes

def u128Max : Nat := 2 ^ 128 - 1

def add (total : WideBytes) (delta : PhysicalBytes) : WideBytes :=
  { serialized := min (total.serialized + delta.serialized.toNat) u128Max
    resident := min (total.resident + delta.resident.toNat) u128Max }

def toPhysical (total : WideBytes) : Option PhysicalBytes :=
  if total.serialized < 2 ^ 64 then
    if total.resident < 2 ^ 64 then
      some ⟨UInt64.ofNat total.serialized, UInt64.ofNat total.resident⟩
    else
      none
  else
    none

end WideBytes

/-- Metadata plus the deltas of the first `planes` candidates of every group. The slice
`candidates[..planes]` panics when the group has fewer. -/
def sumBytesFrom (mode : ByteMode) (total : WideBytes) :
    List GroupCandidates → List Nat → Outcome PhysicalAllocError WideBytes
  | group :: groups, planes :: planeCounts =>
    if planes ≤ group.candidates.length then
      sumBytesFrom mode
        ((group.candidates.take planes).foldl
          (fun total candidate => total.add (mode.bytes candidate.byteDelta)) total)
        groups planeCounts
    else
      .panic
  | _, _ => .ok total

def sumBytes (groups : List GroupCandidates) (planeCounts : List Nat) (metadata : ByteDelta)
    (mode : ByteMode) : Outcome PhysicalAllocError WideBytes :=
  sumBytesFrom mode ((WideBytes.mk 0 0).add (mode.bytes metadata)) groups planeCounts

def minimumBytesForPrefix (groups : List GroupCandidates) (floors : List Nat)
    (metadata : ByteDelta) (profile : SaltV2Profile) :
    Outcome PhysicalAllocError PhysicalBytes := do
  let total ← sumBytes groups floors metadata .effective
  .okOr total.toPhysical (.accountingOverflow profile)

/-- The deltas of planes `low + 1` through `high` of one group. -/
def bundleBytes (group : GroupCandidates) (low high : Nat) (mode : ByteMode) :
    Outcome PhysicalAllocError (Option PhysicalBytes) := do
  let candidates ← slice group.candidates low high
  return candidates.foldl
    (fun total candidate =>
      total.bind fun total => total.checkedAdd (mode.bytes candidate.byteDelta))
    (some PhysicalBytes.zero)

def distortionAt (group : GroupCandidates) (planes : Nat) : Outcome PhysicalAllocError F64 := do
  let last ← Outcome.sub planes 1
  let candidate ← Outcome.index group.candidates last
  return candidate.distortion

end Tritium.Allocator
