import Tritium.Package.Writer

/-!
# Bounds on the size of a package

The bounds are computed from the kinds and lengths of the blobs alone, before their digests are
known. The fields of the directory are measured by encoding them.
-/

namespace Tritium.Package

open Cbor

structure EncodedSizeBounds where
  lowerBytes : ℕ
  upperBytes : ℕ
deriving DecidableEq, Repr

structure TritBlobSize where
  kind : TritBlobKind
  length : UInt64
deriving DecidableEq

structure TritPackageSizeBounds where
  manifest : EncodedSizeBounds
  directory : EncodedSizeBounds
  package : EncodedSizeBounds
deriving DecidableEq, Repr

section Codec

variable (codec : Codec)

/-- The length of an encoding, counted in 64 bits. -/
def metadataCborBytes (metadata : Item) : Option ℕ :=
  (codec.intoWriter metadata).bind fun bytes => checkedAdd 64 0 bytes.length

def encodedSize (value : Item) : Outcome TritPackageError ℕ :=
  okOr (metadataCborBytes codec value) .lengthOverflow

def addSizes (left right : ℕ) : Outcome TritPackageError ℕ :=
  okOr (checkedAdd 64 left right) .lengthOverflow

/-- `size_of::<DigestBytes>()` -/
def digestWidth : UInt64 := 32

structure BlobSizes where
  payloadSum : ℕ
  payloadMax : ℕ
  directoryUpper : ℕ

def measureBlob (sizes : BlobSizes) (blob : TritBlobSize) :
    Outcome TritPackageError BlobSizes := do
  let payloadSum ← addSizes sizes.payloadSum blob.length.toNat
  let payloadMax := max sizes.payloadMax blob.length.toNat
  let fields := directoryFields blob.kind (UInt64.ofNat usizeMax) blob.length
  let long ← encodedSize codec (unsignedItem (UInt64.ofNat (fields.length + 1)))
  let short ← encodedSize codec (unsignedItem (UInt64.ofNat fields.length))
  let headDelta ← Outcome.sub long short
  let widthBytes ← encodedSize codec (unsignedItem digestWidth)
  let idBytes ← addSizes widthBytes digestWidth.toNat
  let fieldBytes ← encodedSize codec (.array fields)
  let entryBytes ← addSizes fieldBytes headDelta
  let entryBytes ← addSizes entryBytes idBytes
  let directoryUpper ← addSizes sizes.directoryUpper entryBytes
  return ⟨payloadSum, payloadMax, directoryUpper⟩

def firstOffset (blobs : List TritBlobSize) : Outcome TritPackageError ℕ :=
  if blobs.isEmpty then .ok tritHeaderBytes else alignUp tritHeaderBytes

def tritPackageSizeBounds (manifest : EncodedSizeBounds) (blobs : List TritBlobSize) :
    Outcome TritPackageError TritPackageSizeBounds :=
  if manifest.lowerBytes = 0 ∨ manifest.upperBytes < manifest.lowerBytes ∨
      maxBlobs < blobs.length then
    .err .invalidDirectory
  else if maxManifestBytes < manifest.upperBytes then
    .err .metadataLimitExceeded
  else do
    let directoryLower ← encodedSize codec (directoryValue [])
    let counted ← encodedSize codec (unsignedItem (UInt64.ofNat blobs.length))
    let uncounted ← encodedSize codec (unsignedItem 0)
    let countDelta ← Outcome.sub counted uncounted
    let directoryUpper ← addSizes directoryLower countDelta
    let sizes ← blobs.foldlM (measureBlob codec) ⟨0, 0, directoryUpper⟩
    if maxDirectoryBytes < sizes.directoryUpper then
      .err .metadataLimitExceeded
    else do
      let padding ←
        okOr (checkedMul 64 blobs.length (tritBlobAlignment - 1)) .lengthOverflow
      let upper ← addSizes tritHeaderBytes padding
      let upper ← addSizes upper sizes.payloadSum
      let upper ← addSizes upper manifest.upperBytes
      let upper ← addSizes upper sizes.directoryUpper
      let upper ← addSizes upper footerBytes
      let first ← firstOffset blobs
      let lower ← addSizes first sizes.payloadMax
      let lower ← addSizes lower manifest.lowerBytes
      let lower ← addSizes lower directoryLower
      let lower ← addSizes lower footerBytes
      return ⟨manifest, ⟨directoryLower, sizes.directoryUpper⟩, ⟨lower, upper⟩⟩

end Codec

end Tritium.Package
