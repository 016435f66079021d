import Tritium.Package.Writer

/-!
# Reading a package

The reader takes the layout from the header, compares the digests of the metadata, decodes the
directory, and checks the range of every payload. The checks of the ranges are written once, over an
interface that hashes a range and tells whether it is zero.
-/

namespace Tritium.Package

open Cbor

structure PackageReadLayout where
  manifestStart : ℕ
  manifestStop : ℕ
  directoryStart : ℕ
  directoryStop : ℕ
deriving DecidableEq, Repr

def readField (bytes : List UInt8) (offset width : ℕ) : Outcome TritPackageError ℕ := do
  let field ← okOr (subslice bytes offset (offset + width)) .truncated
  return ofLeBytes field

def readLayout (length : ℕ) (header footer : List UInt8)
    (maxManifest maxDirectory : ℕ) : Outcome TritPackageError PackageReadLayout :=
  if length < tritHeaderBytes + footerBytes ∨ header.length ≠ tritHeaderBytes ∨
      footer.length ≠ footerBytes then
    .err .truncated
  else if header.take 8 ≠ tritMagic ∨ footer.take 8 ≠ tritFooterMagic then
    .err .badMagic
  else do
    let major ← readField header 8 2
    let minor ← readField header 10 2
    if major ≠ tritPackageMajor ∨ minor ≠ tritPackageMinor then
      .err (.unsupportedVersion major minor)
    else do
      let features ← readField header 12 4
      if features ≠ tritFeaturesSupported then
        .err (.unknownRequiredFeatures features)
      else if (header.drop 48).any (· ≠ 0) then
        .err .nonZeroReserved
      else do
        let manifestOffset ← readField header 16 8
        let manifestLength ← readField header 24 8
        let directoryOffset ← readField header 32 8
        let directoryLength ← readField header 40 8
        if min maxManifestBytes maxManifest < manifestLength ∨
            min maxDirectoryBytes maxDirectory < directoryLength then
          .err .metadataLimitExceeded
        else do
          let manifestStop ←
            okOr (checkedAdd 64 manifestOffset manifestLength) .lengthOverflow
          let directoryStop ←
            okOr (checkedAdd 64 directoryOffset directoryLength) .lengthOverflow
          let footerOffset ← Outcome.sub length footerBytes
          if manifestOffset < tritHeaderBytes ∨ manifestStop ≠ directoryOffset ∨
              directoryStop ≠ footerOffset then
            .err .invalidDirectory
          else
            return ⟨manifestOffset, manifestStop, directoryOffset, directoryStop⟩

/-- Access to the ranges of a package; `refuse` converts an error of the format. -/
structure PackageRanges (m : Type → Type) where
  digest : ℕ → ℕ → m Digest
  isZero : ℕ → ℕ → m Bool
  refuse : {α : Type} → TritPackageError → m α

section Ranges

variable {m : Type → Type} [Monad m] (package : PackageRanges m)

def checkBlob (manifestOffset : ℕ) (unique : DigestMap (ℕ × ℕ)) (blob : TritBlobInfo) :
    m (DigestMap (ℕ × ℕ)) :=
  match checkedAdd 64 blob.offset.toNat blob.length.toNat with
  | none => package.refuse .lengthOverflow
  | some stop =>
    if blob.offset.toNat < tritHeaderBytes ∨ blob.offset.toNat % tritBlobAlignment ≠ 0 ∨
        manifestOffset < stop then
      package.refuse .invalidDirectory
    else if unique[blob.id]?.any (· ≠ (blob.offset.toNat, stop)) then
      package.refuse .invalidDirectory
    else do
      let digest ← package.digest blob.offset.toNat stop
      if digest ≠ blob.id then
        package.refuse (.blobDigestMismatch blob.id)
      else
        return unique.insert blob.id (blob.offset.toNat, stop)

def compareRanges (left right : ℕ × ℕ) : Ordering :=
  (compare left.1 right.1).then (compare left.2 right.2)

def sweepRange (previousStop : ℕ) (range : ℕ × ℕ) : m ℕ :=
  if range.1 < previousStop then
    package.refuse .invalidDirectory
  else do
    let zero ← package.isZero previousStop range.1
    if zero then return range.2 else package.refuse .invalidDirectory

def validateBlobRanges (manifestOffset : ℕ) (blobs : List TritBlobInfo) : m Unit := do
  let unique ← blobs.foldlM (checkBlob package manifestOffset) ∅
  let ranges := sortBy compareRanges (unique.toList.map Prod.snd)
  let previousStop ← ranges.foldlM (sweepRange package) tritHeaderBytes
  let zero ← package.isZero previousStop manifestOffset
  if zero then return () else package.refuse .invalidDirectory

end Ranges

structure TritPackage where
  bytes : List UInt8
  manifest : List UInt8
  blobs : List TritBlobInfo
deriving DecidableEq

variable (codec : Codec) (digest : List UInt8 → Digest)

def borrowedRanges (bytes : List UInt8) : PackageRanges (Outcome TritPackageError) where
  digest start stop := do
    let payload ← okOr (subslice bytes start stop) .invalidDirectory
    return digest payload
  isZero start stop := do
    let padding ← okOr (subslice bytes start stop) .invalidDirectory
    return padding.all (· = 0)
  refuse error := .err error

def validateMetadataDigests (manifest directory footer : List UInt8) :
    Outcome TritPackageError Unit :=
  if (digest manifest).bytes ≠ (footer.take 40).drop 8 ∨
      (digest directory).bytes ≠ footer.drop 40 then
    .err .digestMismatch
  else
    .ok ()

def readTritPackageWithManifestLimit (bytes : List UInt8) (maxManifest : ℕ) :
    Outcome TritPackageError TritPackage :=
  if bytes.length < tritHeaderBytes + footerBytes then
    .err .truncated
  else do
    let footerOffset ← Outcome.sub bytes.length footerBytes
    let footer ← slice bytes footerOffset bytes.length
    let header ← slice bytes 0 tritHeaderBytes
    let layout ← readLayout bytes.length header footer maxManifest maxDirectoryBytes
    let manifest ←
      okOr (subslice bytes layout.manifestStart layout.manifestStop) .truncated
    let directory ←
      okOr (subslice bytes layout.directoryStart layout.directoryStop) .truncated
    validateMetadataDigests digest manifest directory footer
    validateCanonicalManifest codec manifest
    let blobs ← decodeDirectory codec directory
    validateBlobRanges (borrowedRanges digest bytes) layout.manifestStart blobs
    return ⟨bytes, manifest, blobs⟩

def readTritPackage (bytes : List UInt8) : Outcome TritPackageError TritPackage :=
  readTritPackageWithManifestLimit codec digest bytes maxManifestBytes

/-- The bytes of a blob by its directory entry, with its digest checked again. -/
def TritPackage.blob (package : TritPackage) (info : TritBlobInfo) :
    Outcome TritPackageError (List UInt8) := do
  let stop ←
    okOr (checkedAdd 64 info.offset.toNat info.length.toNat) .lengthOverflow
  let bytes ←
    okOr (subslice package.bytes info.offset.toNat stop) .invalidDirectory
  if digest bytes ≠ info.id then .err (.blobDigestMismatch info.id) else .ok bytes

end Tritium.Package
