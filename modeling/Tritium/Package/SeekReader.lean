import Tritium.Package.Spool
import Tritium.Package.Reader

/-!
# Reading a package from a source

The reader keeps the manifest and the directory of a package and goes back to its source for
payloads. The source is the state of the calls. A visitor is the step of a fold over the chunks, and
an incremental hash is the bytes it was given.
-/

namespace Tritium.Package

open Cbor

def chunkBytes : ℕ := 64 * 1024

structure TritPackageReadLimits where
  maxSourceBytes : ℕ
  maxManifestBytes : ℕ
  maxDirectoryBytes : ℕ

/-- The operation that an error of the source belongs to. -/
inductive SourceOperation where
  | length
  | seek
  | read
  | readChunk
deriving DecidableEq, Repr

inductive TritPackageReadError (ι : Type) where
  | format (error : TritPackageError)
  | sourceLimitExceeded (requested limit : ℕ)
  | sourceChanged
  | io (operation : SourceOperation) (source : ι)
  /-- The `seek position` error, which the reader makes itself. -/
  | seekPosition

/-- The error of a visit, with the one of the visitor as it was. -/
inductive TritBlobVisitError (ι ε : Type) where
  | source (error : TritPackageReadError ι)
  | visitor (error : ε)

structure TritPackageReader where
  manifest : List UInt8
  blobs : List TritBlobInfo
  length : ℕ
  id : Digest

section Source

variable {σ ι : Type} (source : Seekable σ ι)

def sourceLength : Stateful σ (TritPackageReadError ι) ℕ :=
  source.seekEnd.mapErr (.io .length)

def checkLength (expected : ℕ) : Stateful σ (TritPackageReadError ι) Unit := do
  let length ← sourceLength source
  if length ≠ expected then lift (.err .sourceChanged) else return ()

def seekTo (position : ℕ) : Stateful σ (TritPackageReadError ι) Unit := do
  let actual ← (source.seekStart position).mapErr (.io .seek)
  if actual ≠ position then lift (.err .seekPosition) else return ()

def readAt (offset count : ℕ) : Stateful σ (TritPackageReadError ι) (List UInt8) := do
  seekTo source offset
  source.scan chunkBytes (.io .read) (fun bytes chunk => .ok (bytes ++ chunk)) [] count

def readBuffer (start stop : ℕ) : Stateful σ (TritPackageReadError ι) (List UInt8) :=
  readAt source start (stop - start)

def visitRange {α ε : Type} (start stop : ℕ) (visit : α → List UInt8 → Outcome ε α) (value : α) :
    Stateful σ (TritBlobVisitError ι ε) α := do
  (seekTo source start).mapErr .source
  source.scan chunkBytes (fun error => .source (.io .readChunk error))
    (fun value chunk => (visit value chunk).mapErr .visitor) value (stop - start)

def readError : TritBlobVisitError ι Empty → TritPackageReadError ι
  | .source error => error

variable (codec : Codec) (digest packageId : List UInt8 → Digest)

def packageIdentity (length : ℕ) : Stateful σ (TritPackageReadError ι) Digest := do
  checkLength source length
  let hashed ← (visitRange source 0 length (fun hashed chunk => .ok (hashed ++ chunk)) []).mapErr
    readError
  checkLength source length
  return packageId hashed

def seekRanges : PackageRanges (Stateful σ (TritPackageReadError ι)) where
  digest start stop := do
    let hashed ← (visitRange source start stop (fun hashed chunk => .ok (hashed ++ chunk))
      []).mapErr readError
    return digest hashed
  isZero start stop :=
    (visitRange source start stop (fun zero chunk => .ok (zero && chunk.all (· = 0)))
      true).mapErr readError
  refuse error := lift (.err (.format error))

def openReader (limits : TritPackageReadLimits) :
    Stateful σ (TritPackageReadError ι) TritPackageReader := do
  let length ← sourceLength source
  if limits.maxSourceBytes < length then
    lift (.err (.sourceLimitExceeded length limits.maxSourceBytes))
  else if length < tritHeaderBytes + footerBytes then
    lift (.err (.format .truncated))
  else do
    let footerOffset ← lift (Outcome.sub length footerBytes)
    let header ← readAt source 0 tritHeaderBytes
    let footer ← readAt source footerOffset footerBytes
    let layout ← lift ((readLayout length header footer limits.maxManifestBytes
      limits.maxDirectoryBytes).mapErr .format)
    let id ← packageIdentity source packageId length
    let checkHeader ← readAt source 0 tritHeaderBytes
    let checkFooter ← readAt source footerOffset footerBytes
    if header ≠ checkHeader ∨ footer ≠ checkFooter then
      lift (.err .sourceChanged)
    else do
      let manifest ← readBuffer source layout.manifestStart layout.manifestStop
      let directory ← readBuffer source layout.directoryStart layout.directoryStop
      lift ((validateMetadataDigests digest manifest directory footer).mapErr .format)
      lift ((validateCanonicalManifest codec manifest).mapErr .format)
      let blobs ← lift ((decodeDirectory codec directory).mapErr .format)
      validateBlobRanges (seekRanges source digest) layout.manifestStart blobs
      let again ← packageIdentity source packageId length
      if again ≠ id then
        lift (.err .sourceChanged)
      else
        return ⟨manifest, blobs, length, id⟩

namespace TritPackageReader

def verify (reader : TritPackageReader) : Stateful σ (TritPackageReadError ι) Unit := do
  let id ← packageIdentity source packageId reader.length
  if id ≠ reader.id then lift (.err .sourceChanged) else return ()

def readBlobRange (reader : TritPackageReader) (index offset count : ℕ) :
    Stateful σ (TritPackageReadError ι) (List UInt8) := do
  let blob ← lift (okOr reader.blobs[index]? (.format .invalidDirectory))
  let stop ← lift (okOr (checkedAdd 64 offset count) (.format .lengthOverflow))
  if blob.length.toNat < stop then
    lift (.err (.format .invalidDirectory))
  else do
    let start ← lift
      (okOr (checkedAdd 64 blob.offset.toNat offset) (.format .lengthOverflow))
    readAt source start count

end TritPackageReader

end Source

end Tritium.Package
