import Tritium.Lib.Packing
import Tritium.Package.Manifest

/-!
# Writing a package

The plan of a package fixes every byte but those of the payloads: blobs of one content share one
payload, the payloads follow each other in the order of their digests at aligned offsets, then come
the manifest, the directory and the footer. All writers carry out one plan.
-/

namespace Tritium.Package

open Cbor

/-- `BTreeMap<[u8; 32], _>`. -/
abbrev DigestMap (ν : Type) := Std.ExtTreeMap Digest ν Digest.compare

/-- `TRITIUM\0`. -/
def tritMagic : List UInt8 := [0x54, 0x52, 0x49, 0x54, 0x49, 0x55, 0x4D, 0x00]

/-- `TRITEND\0`. -/
def tritFooterMagic : List UInt8 := [0x54, 0x52, 0x49, 0x54, 0x45, 0x4E, 0x44, 0x00]

def tritHeaderBytes : ℕ := 64

def footerBytes : ℕ := 72

def tritBlobAlignment : ℕ := 256

def tritPackageMajor : ℕ := 1

def tritPackageMinor : ℕ := 0

def tritFeaturesSupported : ℕ := 0

structure TritBlob where
  kind : TritBlobKind
  bytes : List UInt8
deriving DecidableEq

structure BlobMetadata where
  id : Digest
  kind : TritBlobKind
  length : ℕ
deriving DecidableEq

def checkName (blob : BlobMetadata) : Outcome TritPackageError BlobMetadata :=
  if blob.kind = .asset "" then .err .emptyAssetName else .ok blob

def blobMetadata {β : Type} (codec : Codec) (manifest : List UInt8) (blobs : List β)
    (entry : β → BlobMetadata) : Outcome TritPackageError (List BlobMetadata) :=
  if maxManifestBytes < manifest.length ∨ maxBlobs < blobs.length then
    .err .metadataLimitExceeded
  else do
    validateCanonicalManifest codec manifest
    blobs.mapM fun blob => checkName (entry blob)

structure PayloadPlan where
  padding : ℕ
  index : ℕ

structure PackageWritePlan where
  header : List UInt8
  payloads : List PayloadPlan
  manifest : List UInt8
  directory : List UInt8
  footer : List UInt8
  size : ℕ

def alignUp (value : ℕ) : Outcome TritPackageError ℕ := do
  let sum ← okOr (checkedAdd 64 value (tritBlobAlignment - 1)) .lengthOverflow
  return sum / tritBlobAlignment * tritBlobAlignment

/-- The first blob of each digest: its index and its length. -/
def uniqueBlob (unique : DigestMap (ℕ × ℕ)) (blob : BlobMetadata × ℕ) :
    Outcome TritPackageError (DigestMap (ℕ × ℕ)) :=
  match unique[blob.1.id]? with
  | some (_, length) =>
    if length ≠ blob.1.length then .err .blobIdentityCollision else .ok unique
  | none => .ok (unique.insert blob.1.id (blob.2, blob.1.length))

def assignOffset (state : DigestMap UInt64 × ℕ) (payload : Digest × ℕ × ℕ) :
    Outcome TritPackageError (DigestMap UInt64 × ℕ) := do
  let (offsets, cursor) := state
  let (digest, _, length) := payload
  let cursor ← alignUp cursor
  let stop ← okOr (checkedAdd 64 cursor length) .lengthOverflow
  return (offsets.insert digest (UInt64.ofNat cursor), stop)

def directoryEntry (offsets : DigestMap UInt64) (blob : BlobMetadata) :
    Outcome TritPackageError TritBlobInfo := do
  let offset ← expect offsets[blob.id]?
  return ⟨blob.id, blob.kind, offset, UInt64.ofNat blob.length⟩

def sameEntry (right left : TritBlobInfo) : Bool := right.id = left.id ∧ right.kind = left.kind

def planPayload (offsets : DigestMap UInt64) (state : ℕ × List PayloadPlan)
    (payload : Digest × ℕ × ℕ) : Outcome TritPackageError (ℕ × List PayloadPlan) := do
  let (position, payloads) := state
  let (digest, index, length) := payload
  let expected ← expect offsets[digest]?
  let padding ← okOr (checkedSub expected.toNat position) .invalidDirectory
  if tritBlobAlignment ≤ padding then
    .err .invalidDirectory
  else do
    let position ← okOr (checkedAdd 64 expected.toNat length) .lengthOverflow
    return (position, payloads ++ [⟨padding, index⟩])

def packageHeader (manifestOffset manifestLength directoryOffset directoryLength : ℕ) :
    List UInt8 :=
  tritMagic ++ leBytes 2 tritPackageMajor ++ leBytes 2 tritPackageMinor ++
    leBytes 4 tritFeaturesSupported ++ leBytes 8 manifestOffset ++ leBytes 8 manifestLength ++
    leBytes 8 directoryOffset ++ leBytes 8 directoryLength ++ List.replicate 16 0

section Digest

variable (codec : Codec) (digest : List UInt8 → Digest)

def packageFooter (manifest directory : List UInt8) : List UInt8 :=
  tritFooterMagic ++ (digest manifest).bytes ++ (digest directory).bytes

def prepareLayout (manifest : List UInt8) (blobs : List BlobMetadata) (maxBytes : ℕ) :
    Outcome TritPackageError PackageWritePlan := do
  let unique ← blobs.zipIdx.foldlM uniqueBlob ∅
  let (offsets, manifestOffset) ← unique.toList.foldlM assignOffset (∅, tritHeaderBytes)
  let directoryOffset ←
    okOr (checkedAdd 64 manifestOffset manifest.length) .lengthOverflow
  let entries ← blobs.mapM (directoryEntry offsets)
  let entries := dedupBy sameEntry (sortBy compareBlobEntries entries)
  let directory ← encodeDirectory codec entries
  if maxDirectoryBytes < directory.length then
    .err .metadataLimitExceeded
  else do
    let footerOffset ←
      okOr (checkedAdd 64 directoryOffset directory.length) .lengthOverflow
    let size ← okOr (checkedAdd 64 footerOffset footerBytes) .lengthOverflow
    if maxBytes < size then
      .err (.packageLimitExceeded size maxBytes)
    else do
      let (position, payloads) ←
        unique.toList.foldlM (planPayload offsets) (tritHeaderBytes, [])
      if position ≠ manifestOffset then
        .err .invalidDirectory
      else do
        let position ← okOr (checkedAdd 64 position manifest.length) .lengthOverflow
        if position ≠ directoryOffset then
          .err .invalidDirectory
        else
          return {
            header := packageHeader manifestOffset manifest.length directoryOffset
              directory.length
            payloads
            manifest
            directory
            footer := packageFooter digest manifest directory
            size }

def checkCollision (unique : DigestMap (List UInt8)) (entry : BlobMetadata × TritBlob) :
    Outcome TritPackageError (DigestMap (List UInt8)) :=
  if unique[entry.1.id]?.any (· ≠ entry.2.bytes) then
    .err .blobIdentityCollision
  else
    .ok (unique.insert entry.1.id entry.2.bytes)

def prepareWrite (manifest : List UInt8) (blobs : List TritBlob) (maxBytes : ℕ) :
    Outcome TritPackageError PackageWritePlan := do
  let entries ← blobMetadata codec manifest blobs fun blob =>
    ⟨digest blob.bytes, blob.kind, blob.bytes.length⟩
  let _ ← (entries.zip blobs).foldlM checkCollision ∅
  prepareLayout codec digest manifest entries maxBytes

end Digest

section Emission

variable {σ ε : Type}

def emitPayload (chunk : List UInt8 → Stateful σ ε Unit) (payload : ℕ → Stateful σ ε Unit)
    (entry : PayloadPlan) : Stateful σ ε Unit := do
  let padding ← lift
    (slice (List.replicate tritBlobAlignment (0 : UInt8)) 0 entry.padding)
  chunk padding
  payload entry.index

def PackageWritePlan.emit (plan : PackageWritePlan) (chunk : List UInt8 → Stateful σ ε Unit)
    (payload : ℕ → Stateful σ ε Unit) (finish : Stateful σ ε Unit) : Stateful σ ε Unit := do
  chunk plan.header
  plan.payloads.forM (emitPayload chunk payload)
  chunk plan.manifest
  chunk plan.directory
  finish
  chunk plan.footer

end Emission

variable (codec : Codec) (digest : List UInt8 → Digest)

/-- Appends to an output vector, which never fails. -/
def extendOutput (bytes : List UInt8) : Stateful (List UInt8) Empty Unit := fun output =>
  (.ok (), output ++ bytes)

def extendPayload (blobs : List TritBlob) (index : ℕ) : Stateful (List UInt8) Empty Unit := do
  let blob ← lift (Outcome.index blobs index)
  extendOutput blob.bytes

def writeTritPackageBounded (manifest : List UInt8) (blobs : List TritBlob) (maxBytes : ℕ) :
    Outcome TritPackageError (List UInt8) := do
  let plan ← prepareWrite codec digest manifest blobs maxBytes
  match plan.emit extendOutput (extendPayload blobs) (pure ()) [] with
  | (.ok (), output) => .ok output
  | (.err never, _) => nomatch never
  | (.panic, _) => .panic

def usizeMax : ℕ := 2 ^ 64 - 1

def writeTritPackage (manifest : List UInt8) (blobs : List TritBlob) :
    Outcome TritPackageError (List UInt8) :=
  writeTritPackageBounded codec digest manifest blobs usizeMax

end Tritium.Package
