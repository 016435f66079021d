import Tritium.Lib.CborCodec
import Tritium.Package.Cbor
import Tritium.Package.Types

/-!
# The directory of a package

One encoder and two decoders. The borrowed decoder walks over the wire ranges of a directory that the
scanner has accepted; whatever it cannot take goes to the reference decoder, which builds a value
with the general codec and compares its encoding with the bytes.
-/

namespace Tritium.Package

open Cbor

def directoryVersion : UInt64 := 1

def maxBlobs : ℕ := 1000000

def maxDirectoryBytes : ℕ := 256 * 1024 * 1024

def tritBlobKindAdditive : UInt64 := 0

def tritBlobKindDense : UInt64 := 1

def tritBlobKindAsset : UInt64 := 2

def dtypeFromStr (name : String) : Option DType :=
  tritDtypeText.findSome? fun entry => if entry.1 = name then some entry.2 else none

/-- Where the traversal stands, and the entries it has still to visit. -/
structure Directory where
  position : ℕ
  remaining : ℕ

structure DirectoryEntry where
  id : Digest
  kind : UInt64
  aux : Option String
  offset : UInt64
  length : UInt64

def unsigned (bytes : List UInt8) (position : ℕ) : Outcome ScanError (UInt64 × ℕ) := do
  let (value, position) ← head bytes position
  if value.major ≠ 0 then
    .err .invalid
  else
    return (UInt64.ofNat value.argument, position)

namespace Directory

def new (bytes : List UInt8) : Outcome ScanError Directory := do
  validateWithLimit bytes (UInt64.ofNat maxDirectoryBytes)
  let (root, position) ← head bytes 0
  if root.major ≠ 4 ∨ root.argument ≠ 2 then
    .err .invalid
  else do
    let (version, position) ← unsigned bytes position
    if version ≠ directoryVersion then
      .err .invalid
    else do
      let (entries, position) ← head bytes position
      if entries.major ≠ 4 then
        .err .invalid
      else do
        let remaining ← Outcome.sub bytes.length position
        let remaining ← count entries.argument remaining 1
        return ⟨position, remaining⟩

def readId (bytes : List UInt8) (position : ℕ) : Outcome ScanError (Digest × ℕ) := do
  let (id, position) ← head bytes position
  if id.major ≠ 2 ∨ id.argument ≠ 32 then
    .err .invalid
  else do
    let (id, position) ← take bytes position 32
    let id ← okOr (Digest.ofBytes id) .invalid
    return (id, position)

def readAux (bytes : List UInt8) (position : ℕ) : Outcome ScanError (Option String × ℕ) := do
  let (aux, position) ← head bytes position
  if aux.major = 7 ∧ aux.argument = 22 then
    return (none, position)
  else if aux.major = 3 then do
    let remaining ← Outcome.sub bytes.length position
    let length ← count aux.argument remaining 1
    let (text, position) ← take bytes position length
    let text ← okOr (fromUtf8 text) .invalid
    return (some text, position)
  else
    .err .invalid

def readEntry (bytes : List UInt8) (position : ℕ) : Outcome ScanError (DirectoryEntry × ℕ) := do
  let (fields, position) ← head bytes position
  if fields.major ≠ 4 ∨ fields.argument ≠ 5 then
    .err .invalid
  else do
    let (id, position) ← readId bytes position
    let (kind, position) ← unsigned bytes position
    let (aux, position) ← readAux bytes position
    let (offset, position) ← unsigned bytes position
    let (length, position) ← unsigned bytes position
    return (⟨id, kind, aux, offset, length⟩, position)

def next (bytes : List UInt8) (directory : Directory) :
    Outcome ScanError (Option DirectoryEntry × Directory) :=
  match directory.remaining with
  | 0 => if directory.position = bytes.length then .ok (none, directory) else .err .invalid
  | remaining + 1 => do
    let (entry, position) ← readEntry bytes directory.position
    return (some entry, ⟨position, remaining⟩)

end Directory

def borrowedKind (kind : UInt64) (aux : Option String) : Option TritBlobKind :=
  match aux with
  | none => if kind = tritBlobKindAdditive then some .additiveTensor else none
  | some name =>
    if kind = tritBlobKindDense then (dtypeFromStr name).map .denseTensor
    else if kind = tritBlobKindAsset ∧ name ≠ "" then some (.asset name)
    else none

/-- The loop over the entries. Every entry uses up one of those announced, so `announced + 1` turns
reach the end. -/
def borrowedBlobs (bytes : List UInt8) :
    ℕ → Directory → List TritBlobInfo → Outcome TritPackageError (Option (List TritBlobInfo))
  | 0, _, _ => .ok none
  | turns + 1, directory, blobs =>
    match directory.next bytes with
    | .ok (none, _) => .ok (some blobs)
    | .ok (some entry, directory) =>
      match borrowedKind entry.kind entry.aux with
      | none => .ok none
      | some kind =>
        borrowedBlobs bytes turns directory
          (blobs ++ [⟨entry.id, kind, entry.offset, entry.length⟩])
    | .err _ => .ok none
    | .panic => .panic

def outOfOrder (blobs : List TritBlobInfo) : Bool :=
  neighboursAny (fun left right => (compareBlobEntries left right).isGE) blobs

def decodeBorrowedDirectory (bytes : List UInt8) :
    Outcome TritPackageError (Option (List TritBlobInfo)) :=
  match Directory.new bytes with
  | .err _ => .ok none
  | .panic => .panic
  | .ok directory =>
    if maxBlobs < directory.remaining then
      .ok none
    else do
      let blobs ← borrowedBlobs bytes (directory.remaining + 1) directory []
      match blobs with
      | none => .ok none
      | some blobs => if outOfOrder blobs then .ok none else .ok (some blobs)

variable (codec : Codec)

def encodeCborValue (value : Item) : Outcome TritPackageError (List UInt8) :=
  okOr (codec.intoWriter value) .invalidDirectory

def unsignedItem (value : UInt64) : Item :=
  .integer (WireInteger.ofUInt64 value)

def encodeKind : TritBlobKind → UInt64 × Item
  | .additiveTensor => (tritBlobKindAdditive, .null)
  | .denseTensor dtype => (tritBlobKindDense, .text dtype.toString)
  | .asset name => (tritBlobKindAsset, .text name)

def directoryFields (kind : TritBlobKind) (offset length : UInt64) : List Item :=
  let (kind, aux) := encodeKind kind
  [unsignedItem kind, aux, unsignedItem offset, unsignedItem length]

def directoryValue (entries : List Item) : Item :=
  .array [unsignedItem directoryVersion, .array entries]

def encodeDirectory (blobs : List TritBlobInfo) : Outcome TritPackageError (List UInt8) :=
  encodeCborValue codec (directoryValue (blobs.map fun blob =>
    .array (.bytes blob.id.bytes :: directoryFields blob.kind blob.offset blob.length)))

def integer : Item → Outcome TritPackageError UInt64
  | .integer number =>
    if 0 ≤ number.value then .ok (UInt64.ofNat number.value.toNat) else .err .invalidDirectory
  | _ => .err .invalidDirectory

def decodeKind (tag : UInt64) : Item → Outcome TritPackageError TritBlobKind
  | .null => if tag = tritBlobKindAdditive then .ok .additiveTensor else .err .invalidDirectory
  | .text name =>
    if tag = tritBlobKindDense then
      okOr ((dtypeFromStr name).map .denseTensor) .invalidDirectory
    else if tag = tritBlobKindAsset ∧ name ≠ "" then
      .ok (.asset name)
    else
      .err .invalidDirectory
  | _ => .err .invalidDirectory

def referenceEntry : Item → Outcome TritPackageError TritBlobInfo
  | .array [.bytes id, tag, aux, offset, length] => do
    let id ← okOr (Digest.ofBytes id) .invalidDirectory
    let tag ← integer tag
    let kind ← decodeKind tag aux
    let offset ← integer offset
    let length ← integer length
    return ⟨id, kind, offset, length⟩
  | _ => .err .invalidDirectory

def referenceEntries : Item → Outcome TritPackageError (List Item)
  | .array [version, .array entries] => do
    let version ← integer version
    if version ≠ directoryVersion then
      .err .invalidDirectory
    else if maxBlobs < entries.length then
      .err .metadataLimitExceeded
    else
      .ok entries
  | _ => .err .invalidDirectory

def decodeReferenceDirectory (bytes : List UInt8) :
    Outcome TritPackageError (List TritBlobInfo) := do
  let value ← okOr (codec.fromReader bytes) .invalidDirectory
  let encoded ← encodeCborValue codec value
  if encoded ≠ bytes then
    .err .invalidDirectory
  else do
    let entries ← referenceEntries value
    let blobs ← entries.mapM referenceEntry
    if outOfOrder blobs then
      .err .invalidDirectory
    else do
      let encoded ← encodeDirectory codec blobs
      if encoded ≠ bytes then .err .invalidDirectory else .ok blobs

def decodeDirectory (bytes : List UInt8) : Outcome TritPackageError (List TritBlobInfo) := do
  let blobs ← decodeBorrowedDirectory bytes
  match blobs with
  | some blobs => .ok blobs
  | none => decodeReferenceDirectory codec bytes

end Tritium.Package
