import Tritium.Lib.Cbor
import Tritium.Lib.Stateful
import Tritium.Salt.Row

/-!
# SALT bundles

A bundle names the tensors of a model and holds their rows one behind the other. The rows say
themselves where they end, so a reader has to walk them. It may read the header with the rotation
group only, decode one tensor, or keep the first planes of every row.
-/

namespace Tritium.Salt

open Cbor (utf8 fromUtf8)

/-- `*b"TSLB"` -/
def saltBundleMagic : List UInt8 := [0x54, 0x53, 0x4C, 0x42]

def saltBundleVersion : ℕ := 1

def saltBundleVersionRotated : ℕ := 2

structure SaltTensor where
  name : String
  rows : ℕ
  k : ℕ
  saltRows : List SaltRow
deriving DecidableEq

structure PackedSaltTensor where
  name : String
  rows : ℕ
  k : ℕ
  saltRows : List PackedSaltRow

structure PackedTensor where
  nameLen : ℕ
  rows : ℕ
  k : ℕ
  dataLen : ℕ
  blob : List UInt8

section Writing

variable (packRow : SaltRow → Outcome FormatError (List UInt8))

def appendRow (k : ℕ) (blob : List UInt8) (row : SaltRow) : Outcome FormatError (List UInt8) :=
  if row.k ≠ k then
    .err (.wrongBlockLen k row.k)
  else do
    let bytes ← packRow row
    return blob ++ bytes

/-- Packs one tensor; the state is the names and the packed tensors so far. -/
def packTensor (state : List String × List PackedTensor) (tensor : String × List SaltRow) :
    Outcome FormatError (List String × List PackedTensor) := do
  let (name, rows) := tensor
  if name ∈ state.1 then
    .err (.saltDuplicateTensor name)
  else do
    let nameLen ← okOr (tryInto 16 (utf8 name).length)
      (.wrongBlockLen (2 ^ 16 - 1) (utf8 name).length)
    let rowCount ← okOr (tryInto 32 rows.length) (.wrongBlockLen (2 ^ 32 - 1) rows.length)
    let k ← okOr (rows.head?.map SaltRow.k) (.wrongBlockLen 1 0)
    let encodedK ← okOr (tryInto 32 k) (.saltRowTooLong k)
    let blob ← rows.foldlM (appendRow packRow k) []
    let dataLen ← okOr (tryInto 64 blob.length) (.wrongBlockLen (2 ^ 64 - 1) blob.length)
    return (name :: state.1, state.2 ++ [⟨nameLen, rowCount, encodedK, dataLen, blob⟩])

def saltBundleHeader : Option UInt16 → List UInt8
  | none => saltBundleMagic ++ [UInt8.ofNat saltBundleVersion] ++ [0]
  | some group =>
    saltBundleMagic ++ [UInt8.ofNat saltBundleVersionRotated] ++ [0] ++ leBytes 2 group.toNat

def indexEntry (entry : (String × List SaltRow) × PackedTensor) : List UInt8 :=
  leBytes 2 entry.2.nameLen ++ utf8 entry.1.1 ++ leBytes 4 entry.2.rows ++ leBytes 4 entry.2.k ++
    leBytes 8 entry.2.dataLen

def writeSaltBundleWith (tensors : List (String × List SaltRow)) (rotationGroup : Option UInt16) :
    Outcome FormatError (List UInt8) := do
  let tensorCount ← okOr (tryInto 32 tensors.length)
    (.wrongBlockLen (2 ^ 32 - 1) tensors.length)
  let (_, packedTensors) ← tensors.foldlM (packTensor packRow) ([], [])
  Outcome.vector (saltBundleHeader rotationGroup ++ leBytes 4 tensorCount ++
    (tensors.zip packedTensors).flatMap indexEntry ++ packedTensors.flatMap PackedTensor.blob)

end Writing

def writeSaltBundle (tensors : List (String × List SaltRow)) : Outcome FormatError (List UInt8) :=
  writeSaltBundleWith packSaltRow tensors none

def writeProgressiveSaltBundle {φ : Type} (arithmetic : DensityArithmetic φ)
    (tensors : List (String × List SaltRow)) (maxSparseDensity : φ) :
    Outcome FormatError (List UInt8) :=
  writeSaltBundleWith (packProgressiveSaltRow arithmetic maxSparseDensity) tensors none

/-- `u16::next_power_of_two`, which overflows above `2 ^ 15`. -/
def nextPowerOfTwo (value : UInt16) : Outcome FormatError ℕ :=
  expect (tryInto 16 value.toNat.nextPowerOfTwo)

def writeRotatedSaltBundle (tensors : List (String × List SaltRow)) (rotationGroup : UInt16) :
    Outcome FormatError (List UInt8) :=
  if rotationGroup = 0 ∨ isPowerOfTwo rotationGroup.toNat = false then do
    let expected ← nextPowerOfTwo rotationGroup
    .err (.wrongBlockLen expected rotationGroup.toNat)
  else
    writeSaltBundleWith packSaltRow tensors (some rotationGroup)

namespace Cursor

/-- A cursor over the bytes; the state is its offset. -/
def take (bytes : List UInt8) (count : ℕ) : Stateful ℕ FormatError (List UInt8) := fun offset =>
  match checkedAdd 64 offset count with
  | none => (.err (.wrongBlockLen count 0), offset)
  | some stop =>
    if bytes.length < stop then
      (.err (.wrongBlockLen stop bytes.length), offset)
    else
      (slice bytes offset stop, stop)

def unsigned (width : ℕ) (bytes : List UInt8) : Stateful ℕ FormatError ℕ := do
  let field ← take bytes width
  return ofLeBytes field

def u16 (bytes : List UInt8) : Stateful ℕ FormatError ℕ := unsigned 2 bytes

def u32 (bytes : List UInt8) : Stateful ℕ FormatError ℕ := unsigned 4 bytes

def u64 (bytes : List UInt8) : Stateful ℕ FormatError ℕ := unsigned 8 bytes

end Cursor

section Walk

variable {α : Type}

/-- Visits one row; the state is where it starts and what the visitor keeps. -/
def walkRow (blob : List UInt8) (visit : α → List UInt8 → Outcome FormatError α) (state : ℕ × α) :
    Outcome FormatError (ℕ × α) := do
  let (offset, value) := state
  let headerEnd ← okOr (checkedAdd 64 offset saltHeaderBytes)
    (.wrongBlockLen saltHeaderBytes blob.length)
  if blob.length < headerEnd then
    .err (.wrongBlockLen headerEnd blob.length)
  else do
    let rest ← slice blob offset blob.length
    let rowLen ← packedSaltRowLen rest
    let stop ← okOr (checkedAdd 64 offset rowLen) (.wrongBlockLen rowLen blob.length)
    let encoded ← okOr (subslice blob offset stop) (.wrongBlockLen stop blob.length)
    let value ← visit value encoded
    return (stop, value)

def walkTensorRows (blob : List UInt8) (rows : ℕ)
    (visit : α → List UInt8 → Outcome FormatError α) (value : α) : Outcome FormatError α := do
  let (offset, value) ← timesM (walkRow blob visit) rows (0, value)
  if offset ≠ blob.length then
    .err (.wrongBlockLen offset blob.length)
  else
    return value

end Walk

structure SaltTensorView where
  name : String
  rows : ℕ
  k : ℕ
  blob : List UInt8
deriving DecidableEq

def keepRow (k maxPlanes : ℕ) (saltRows : List PackedSaltRow) (encoded : List UInt8) :
    Outcome FormatError (List PackedSaltRow) := do
  let row ← unpackPackedSaltRowPrefix encoded maxPlanes
  if row.k ≠ k then
    .err (.wrongBlockLen k row.k)
  else
    return saltRows ++ [row]

def SaltTensorView.decodePackedPrefix (view : SaltTensorView) (maxPlanes : ℕ) :
    Outcome FormatError PackedSaltTensor := do
  let saltRows ← walkTensorRows view.blob view.rows (keepRow view.k maxPlanes) []
  return ⟨view.name, view.rows, view.k, saltRows⟩

def SaltTensorView.decodePrefix (view : SaltTensorView) (maxPlanes : ℕ) :
    Outcome FormatError SaltTensor := do
  let packed ← view.decodePackedPrefix maxPlanes
  let saltRows ← packed.saltRows.mapM PackedSaltRow.intoDense
  return ⟨packed.name, packed.rows, packed.k, saltRows⟩

structure SaltBundleIndex where
  tensors : List SaltTensorView
  rotationGroup : Option UInt16
deriving DecidableEq

def readRotationGroup (bytes : List UInt8) (version : ℕ) : Stateful ℕ FormatError (Option UInt16) :=
  if version = saltBundleVersion then
    return none
  else if version = saltBundleVersionRotated then do
    let group ← Cursor.u16 bytes
    if group = 0 ∨ isPowerOfTwo group = false then
      lift (.err (.unsupportedSaltVersion version))
    else
      return some (UInt16.ofNat group)
  else
    lift (.err (.unsupportedSaltVersion version))

structure BundleEntry where
  name : String
  rows : ℕ
  k : ℕ
  dataLen : ℕ

def readBundleEntry (bytes : List UInt8) (entries : List BundleEntry) :
    Stateful ℕ FormatError (List BundleEntry) := do
  let nameLen ← Cursor.u16 bytes
  let content ← Cursor.take bytes nameLen
  let name ← lift (okOr (fromUtf8 content) .saltInvalidTensorName)
  let rows ← Cursor.u32 bytes
  let k ← Cursor.u32 bytes
  let dataLen ← Cursor.u64 bytes
  return entries ++ [⟨name, rows, k, dataLen⟩]

/-- The rows are all checked, and none is kept. -/
def checkRowWidth (k : ℕ) (_ : Unit) (encoded : List UInt8) : Outcome FormatError Unit := do
  let row ← unpackPackedSaltRowPrefix encoded 0
  if row.k ≠ k then
    .err (.wrongBlockLen k row.k)
  else
    return ()

def indexTensor (bytes : List UInt8) (tensors : List SaltTensorView) (entry : BundleEntry) :
    Stateful ℕ FormatError (List SaltTensorView) := do
  let blob ← Cursor.take bytes entry.dataLen
  lift (walkTensorRows blob entry.rows (checkRowWidth entry.k) ())
  if entry.name ∈ tensors.map SaltTensorView.name then
    lift (.err (.saltDuplicateTensor entry.name))
  else
    return tensors ++ [⟨entry.name, entry.rows, entry.k, blob⟩]

def readIndex (bytes : List UInt8) : Stateful ℕ FormatError SaltBundleIndex := do
  let magic ← Cursor.take bytes 4
  if magic ≠ saltBundleMagic then
    lift (.err .saltBadMagic)
  else do
    let version ← Cursor.unsigned 1 bytes
    let _ ← Cursor.take bytes 1
    let rotationGroup ← readRotationGroup bytes version
    let tensorCount ← Cursor.u32 bytes
    let entries ← timesM (readBundleEntry bytes) tensorCount []
    let tensors ← entries.foldlM (indexTensor bytes) []
    return ⟨tensors, rotationGroup⟩

/-- Nothing may follow the last tensor. -/
def SaltBundleIndex.new (bytes : List UInt8) : Outcome FormatError SaltBundleIndex := do
  let (answer, offset) := readIndex bytes 0
  let index ← answer
  if offset ≠ bytes.length then
    .err (.wrongBlockLen offset bytes.length)
  else
    return index

def SaltBundleIndex.tensor (index : SaltBundleIndex) (name : String) : Option SaltTensorView :=
  index.tensors.find? fun view => view.name = name

def readSaltBundlePrefix (bytes : List UInt8) (maxPlanes : ℕ) :
    Outcome FormatError (List SaltTensor) := do
  let index ← SaltBundleIndex.new bytes
  index.tensors.mapM fun view => view.decodePrefix maxPlanes

def readSaltBundle (bytes : List UInt8) : Outcome FormatError (List SaltTensor) :=
  readSaltBundlePrefix bytes (2 ^ 64 - 1)

end Tritium.Salt
