import Tritium.Lib.Seekable
import Tritium.Package.Writer

/-!
# Writing to a destination

The plans of the writer, carried out on a destination that takes the bytes in chunks: from blobs in
memory, and from a seekable spool that holds them. An incremental hash is the bytes it was given.
-/

namespace Tritium.Package

open Cbor

inductive TritPackageWriteError (ι : Type) where
  | package (error : TritPackageError)
  | io (error : ι)
  | source (error : ι)

section Chunks

variable {ρ ε : Type}

def updateHash (bytes : List UInt8) : Stateful (ρ × List UInt8) ε Unit := fun state =>
  (.ok (), (state.1, state.2 ++ bytes))

/-- Writes a chunk and adds it to the hash of the package. -/
def hashedChunk (write : List UInt8 → Stateful ρ ε Unit) (bytes : List UInt8) :
    Stateful (ρ × List UInt8) ε Unit := do
  Stateful.left (write bytes)
  updateHash bytes

/-- An emission with a fresh hash, and the identity of the package if it succeeds. -/
def withHash (packageId : List UInt8 → Digest) (emission : Stateful (ρ × List UInt8) ε Unit) :
    Stateful ρ ε Digest := fun state =>
  match emission (state, []) with
  | (.ok (), after) => (.ok (packageId after.2), after.1)
  | (.err error, after) => (.err error, after.1)
  | (.panic, after) => (.panic, after.1)

end Chunks

variable {σ δ ρ ι : Type} (codec : Codec) (digest packageId : List UInt8 → Digest)

def memoryPayload (writeAll : List UInt8 → Stateful δ ι Unit) (blobs : List TritBlob) (index : ℕ) :
    Stateful (δ × List UInt8) ι Unit := do
  let blob ← lift (Outcome.index blobs index)
  hashedChunk writeAll blob.bytes

def writeTritPackageTo (writeAll : List UInt8 → Stateful δ ι Unit) (manifest : List UInt8)
    (blobs : List TritBlob) (maxBytes : ℕ) : Stateful δ (TritPackageWriteError ι) Digest := do
  let plan ← lift
    ((prepareWrite codec digest manifest blobs maxBytes).mapErr .package)
  (withHash packageId (plan.emit (hashedChunk writeAll) (memoryPayload writeAll blobs)
    (pure ()))).mapErr .io

structure TritSpoolBlob where
  id : Digest
  kind : TritBlobKind
  offset : UInt64
  length : UInt64

def spoolChunkBytes : ℕ := 64 * 1024

def spoolMetadata (blob : TritSpoolBlob) : BlobMetadata :=
  ⟨blob.id, blob.kind, blob.length.toNat⟩

section Source

variable (source : Seekable ρ ι)

def seekSpool (offset : ℕ) : Stateful ρ (TritPackageWriteError ι) Unit := do
  let actual ← (source.seekStart offset).mapErr .source
  if actual ≠ offset then lift (.err (.package .invalidDirectory)) else return ()

def readSpool (count : ℕ) : Stateful ρ (TritPackageWriteError ι) (List UInt8) :=
  (source.readExact count).mapErr .source

def visitSpoolWindow (chunk : List UInt8 → Stateful ρ (TritPackageWriteError ι) Unit)
    (hashed : List UInt8) (_position count : ℕ) :
    Stateful ρ (TritPackageWriteError ι) (List UInt8) := do
  let bytes ← readSpool source count
  chunk bytes
  return hashed ++ bytes

def visitSpoolBlob (blob : TritSpoolBlob)
    (chunk : List UInt8 → Stateful ρ (TritPackageWriteError ι) Unit) :
    Stateful ρ (TritPackageWriteError ι) Unit := do
  seekSpool source blob.offset.toNat
  let hashed ← foldWindows spoolChunkBytes (visitSpoolWindow source chunk) blob.length.toNat [] 0
    blob.length.toNat
  if digest hashed ≠ blob.id then
    lift (.err (.package (.blobDigestMismatch blob.id)))
  else
    return ()

def compareSpoolWindow (other blob : TritSpoolBlob) (position count : ℕ) :
    Stateful ρ (TritPackageWriteError ι) Unit := do
  let start ← lift (Outcome.add 64 other.offset.toNat position)
  seekSpool source start
  let expected ← readSpool source count
  let start ← lift (Outcome.add 64 blob.offset.toNat position)
  seekSpool source start
  let found ← readSpool source count
  if expected ≠ found then
    lift (.err (.package .blobIdentityCollision))
  else
    return ()

def verifySpoolBlob (blobs : List TritSpoolBlob) (unique : DigestMap ℕ)
    (entry : TritSpoolBlob × ℕ) : Stateful ρ (TritPackageWriteError ι) (DigestMap ℕ) := do
  let (blob, index) := entry
  visitSpoolBlob digest source blob fun _ => return ()
  match unique[blob.id]? with
  | some other => do
    let other ← lift (Outcome.index blobs other)
    if other.length ≠ blob.length then
      lift (.err (.package .blobIdentityCollision))
    else if other.offset = blob.offset then
      return unique
    else do
      foldWindows spoolChunkBytes
        (fun _ position count => compareSpoolWindow source other blob position count)
        blob.length.toNat () 0 blob.length.toNat
      return unique
  | none => return unique.insert blob.id index

def verifySpool (blobs : List TritSpoolBlob) : Stateful ρ (TritPackageWriteError ι) Unit := do
  let _ ← blobs.zipIdx.foldlM (verifySpoolBlob digest source blobs) ∅
  return ()

def checkSpoolRange (sourceLength : ℕ) (blob : TritSpoolBlob) :
    Outcome (TritPackageWriteError ι) Unit := do
  let stop ← okOr (checkedAdd 64 blob.offset.toNat blob.length.toNat)
    (.package .lengthOverflow)
  if sourceLength < stop then .err (.package .truncated) else return ()

/-- Everything that is checked before the destination is touched. -/
def prepareSpool (manifest : List UInt8) (blobs : List TritSpoolBlob) (maxBytes : ℕ) :
    Stateful ρ (TritPackageWriteError ι) PackageWritePlan := do
  let entries ← lift
    ((blobMetadata codec manifest blobs spoolMetadata).mapErr .package)
  let plan ← lift
    ((prepareLayout codec digest manifest entries maxBytes).mapErr .package)
  let sourceLength ← source.seekEnd.mapErr .source
  lift (blobs.forM (checkSpoolRange sourceLength))
  verifySpool digest source blobs
  return plan

end Source

section Spool

variable (source : Seekable σ ι) (writeAll : List UInt8 → Stateful δ ι Unit)

def spoolChunk (bytes : List UInt8) :
    Stateful ((σ × δ) × List UInt8) (TritPackageWriteError ι) Unit :=
  hashedChunk (fun bytes => Stateful.right ((writeAll bytes).mapErr .io)) bytes

def spoolPayload (blobs : List TritSpoolBlob) (index : ℕ) :
    Stateful ((σ × δ) × List UInt8) (TritPackageWriteError ι) Unit := do
  let blob ← lift (Outcome.index blobs index)
  visitSpoolBlob digest source.left.left blob (spoolChunk writeAll)

def writeTritPackageFromSpool (manifest : List UInt8) (blobs : List TritSpoolBlob)
    (maxBytes : ℕ) : Stateful (σ × δ) (TritPackageWriteError ι) Digest := do
  let plan ← Stateful.left (prepareSpool codec digest source manifest blobs maxBytes)
  withHash packageId (plan.emit (spoolChunk writeAll) (spoolPayload digest source writeAll blobs)
    (verifySpool digest source.left.left blobs))

end Spool

end Tritium.Package
