import Tritium.Lib.Ranged
import Tritium.Package.SeekReader

/-!
# Typed models

The validator that both readers of a model share. It is generic over its source: it looks at the
entries of the directory and asks for ranges of the blobs. The manifest codec, its structural check
and the plans of additive payloads are parameters, as is the keyed hash. An incremental hash is the
bytes it was given.
-/

namespace Tritium.Model

open Package

def rangeBytes : ℕ := 64 * 1024

inductive ScalePrecision where
  | f16 | bf16 | f32
deriving DecidableEq

inductive ScaleAnchor where
  | group | row | tensor | channel
deriving DecidableEq

inductive PlaneRelation where
  | free
  | tied (num den : UInt32)
deriving DecidableEq

structure ScaleLaw where
  anchor : ScaleAnchor
  relation : PlaneRelation
  precision : ScalePrecision
deriving DecidableEq

inductive Basis where
  | identity
  | hadamard (block : UInt32)
  | signedRht (block : UInt32) (seed domain : UInt64)
deriving DecidableEq

inductive PlaneCodec where
  | d2 | b3 | s34
deriving DecidableEq

inductive Transport where
  | raw
  | jointHuffman (block : UInt32)
deriving DecidableEq

inductive PlaneAllocation where
  | uniform | perTile
deriving DecidableEq

structure AdditiveLayout where
  rows : UInt64
  cols : UInt64
  tile : UInt16
  group : UInt16
  maxPlanes : UInt8
  allocation : PlaneAllocation
  codec : PlaneCodec
  law : ScaleLaw
  basis : Basis
  transport : Transport
deriving DecidableEq

inductive PlaneCounts where
  | uniform (count : UInt8)
  | perTile (counts : List UInt8)
deriving DecidableEq

inductive TensorStorage where
  | dense (shape : List UInt64) (precision : ScalePrecision)
  | additive (layout : AdditiveLayout) (planes : PlaneCounts)
deriving DecidableEq

structure BlobReference where
  id : Digest
  shard : Option String

structure TensorMeta where
  name : String
  blob : BlobReference
  storage : TensorStorage

structure EvidenceReference where
  run : String
  span : String
  root : Digest

inductive LevelFit where
  | direct (evidence : List EvidenceReference)
  | importedPrefixOf (level : String)
  | imported

structure Level where
  name : String
  fit : LevelFit
  tensors : List TensorMeta

structure ManifestAsset where
  name : String
  blob : BlobReference

structure ModelShard where
  name : String
  package : Digest

structure LegacyModelIdentity where
  id : String
  level : String

structure ModelManifest where
  schema : UInt16 × UInt16
  architecture : String
  assets : List ManifestAsset
  levels : List Level
  shards : List ModelShard
  legacyIds : List LegacyModelIdentity

/-- The errors of the structural check and of additive payloads come without what they carry. -/
inductive TritModelError where
  | package (error : TritPackageError)
  | schema (text : String)
  | manifest
  | nonCanonical
  | missingOrWrongBlob (name : String)
  | missingBinding (name : String)
  | densePayload (name : String)
  | additive
  | invalidPrefix (level : String)
  | unsupportedFeature (feature : String)
deriving DecidableEq

inductive SemanticMeta where
  | dense (shape : List UInt64) (precision : ScalePrecision)
  | additive (rows cols : UInt64) (tile group : UInt16) (planes : PlaneCounts) (law : ScaleLaw)
      (basis : Basis)
  | model (architecture : String) (assets tensors : List (String × Digest))

/-- The parameters of the validator. A plan interprets a payload: its visits are programs over the
source, which return all they have visited. -/
structure ModelCode where
  decodeModelManifest : List UInt8 → Outcome TritModelError ModelManifest
  validate : ModelManifest → Outcome TritModelError Unit
  /-- The canonical encoding of the metadata. -/
  encodeMetadata : SemanticMeta → Outcome TritModelError (List UInt8)
  /-- The hash of the bytes under a context. -/
  deriveKey : String → List UInt8 → Digest
  PayloadPlan : Type
  newPlan : AdditiveLayout → PlaneCounts → ℕ → Outcome TritModelError PayloadPlan
  tritCount : PayloadPlan → ℕ
  scaleLen : PayloadPlan → ℕ
  validatePlan : PayloadPlan → ℕ → Ranged TritModelError Unit
  visitTrits : PayloadPlan → ℕ → Ranged TritModelError (List UInt8)
  visitScaleBytes : PayloadPlan → ℕ → Ranged TritModelError (List UInt8)
  isLogicalPrefixOf : PayloadPlan → ℕ → PayloadPlan → ℕ → Ranged TritModelError Bool

/-! ### Bindings

The index of the blobs by their identity is a function of the directory, which is searched in its
place.
-/

structure ModelBindings where
  manifest : ModelManifest
  tensorDigests : List (List Digest)
  modelIds : List Digest

def payloadIndex (blobs : List TritBlobInfo) (id : Digest) (kind : TritBlobKind) (name : String) :
    Outcome TritModelError ℕ :=
  okOr (blobs.findIdx? fun info => info.id = id ∧ info.kind = kind) (.missingOrWrongBlob name)

def tensorIndex (blobs : List TritBlobInfo) (tensor : TensorMeta) : Outcome TritModelError ℕ :=
  let kind := match tensor.storage with
    | .dense _ .f16 => .denseTensor .f16
    | .dense _ .bf16 => .denseTensor .bf16
    | .dense _ .f32 => .denseTensor .f32
    | .additive _ _ => .additiveTensor
  payloadIndex blobs tensor.blob.id kind tensor.name

def assetIndex (manifest : ModelManifest) (blobs : List TritBlobInfo) (name : String) :
    Outcome TritModelError ℕ := do
  let index ← okOr (binarySearchBy manifest.assets fun asset => compare asset.name name)
    (.missingBinding name)
  let asset ← Outcome.index manifest.assets index
  payloadIndex blobs asset.blob.id (.asset asset.name) name

def levelIndex (manifest : ModelManifest) (name : String) : Outcome TritModelError ℕ :=
  okOr (binarySearchBy manifest.levels fun level => compare level.name name) (.missingBinding name)

namespace ModelBindings

def modelId (binding : ModelBindings) (level : String) : Outcome TritModelError Digest := do
  let level ← levelIndex binding.manifest level
  Outcome.index binding.modelIds level

def tensorDigest (binding : ModelBindings) (level name : String) :
    Outcome TritModelError Digest := do
  let level ← levelIndex binding.manifest level
  let entry ← Outcome.index binding.manifest.levels level
  let tensor ← okOr (binarySearchBy entry.tensors fun tensor => compare tensor.name name)
    (.missingBinding name)
  let digests ← Outcome.index binding.tensorDigests level
  Outcome.index digests tensor

end ModelBindings

def validateDenseLength (name : String) (shape : List UInt64) (precision : ScalePrecision)
    (length : ℕ) : Outcome TritModelError Unit :=
  let width := match precision with
    | .f16 | .bf16 => 2
    | .f32 => 4
  if (shape.map UInt64.toNat).foldlM (checkedMul 64) width ≠ some length then
    .err (.densePayload name)
  else
    .ok ()

/-- A float is finite unless all bits of its exponent are set. -/
def denseFinite (precision : ScalePrecision) (bytes : List UInt8) : Bool :=
  let (width, exponent) := match precision with
    | .f16 => (2, 0x7C00)
    | .bf16 => (2, 0x7F80)
    | .f32 => (4, 0x7F800000)
  (asChunks width bytes).all fun chunk => ofLeBytes chunk &&& exponent ≠ exponent

def frameLength (length : ℕ) : List UInt8 := leBytes 8 length

section Validator

variable (code : ModelCode)

def metadataHasher (metadata : SemanticMeta) : Outcome TritModelError (List UInt8) := do
  let bytes ← code.encodeMetadata metadata
  return frameLength bytes.length ++ bytes

def modelDigest (manifest : ModelManifest) (level : Level) (digests : List Digest) :
    Outcome TritModelError Digest := do
  let hash ← metadataHasher code (.model manifest.architecture
    (manifest.assets.map fun asset => (asset.name, asset.blob.id))
    ((level.tensors.map (·.name)).zip digests))
  return code.deriveKey "tritium.trit.model.v1" hash

def additiveSemantics (layout : AdditiveLayout) (planes : PlaneCounts) (plan : code.PayloadPlan)
    (blob : ℕ) : Ranged TritModelError Digest := do
  let hash ← .done (metadataHasher code (.additive layout.rows layout.cols layout.tile layout.group
    planes layout.law layout.basis))
  let trits ← code.visitTrits plan blob
  let scales ← code.visitScaleBytes plan blob
  return code.deriveKey "tritium.trit.additive.v1" (hash ++ frameLength (code.tritCount plan) ++
    trits ++ frameLength (code.scaleLen plan) ++ scales)

def denseSemantics (name : String) (shape : List UInt64) (precision : ScalePrecision)
    (blob length : ℕ) : Ranged TritModelError Digest := do
  .done (validateDenseLength name shape precision length)
  let hash ← .done (metadataHasher code (.dense shape precision))
  let hashed ← foldWindows rangeBytes (fun hashed position count => do
    let scratch ← Ranged.readRange blob position count
    if denseFinite precision scratch then
      return hashed ++ scratch
    else
      .done (.err (.densePayload name))) length (hash ++ frameLength length) 0 length
  return code.deriveKey "tritium.trit.dense.v1" hashed

def isPrefix (child : TensorMeta) (childBlob childLength : ℕ) (parent : TensorMeta)
    (parentBlob parentLength : ℕ) : Ranged TritModelError Bool :=
  match child.storage, parent.storage with
  | .dense _ _, .dense _ _ =>
    if child.storage ≠ parent.storage ∨ childLength ≠ parentLength then
      return false
    else
      -- The first window that differs is the last one read.
      foldWindows rangeBytes (fun same position count => do
        if same then
          let left ← Ranged.readRange childBlob position count
          let right ← Ranged.readRange parentBlob position count
          return left = right
        else
          return false) childLength true 0 childLength
  | .additive layout planes, .additive layout' planes' =>
    let normalized := { layout' with
      maxPlanes := layout.maxPlanes
      codec := layout.codec
      allocation := layout.allocation }
    if normalized ≠ layout ∨ layout'.maxPlanes < layout.maxPlanes then
      return false
    else do
      let plan ← .done (code.newPlan layout planes childLength)
      code.validatePlan plan childBlob
      let plan' ← .done (code.newPlan layout' planes' parentLength)
      code.validatePlan plan' parentBlob
      code.isLogicalPrefixOf plan childBlob plan' parentBlob
  | _, _ => return false

def blobLength (blobs : List TritBlobInfo) (index : ℕ) : Outcome TritModelError ℕ := do
  let info ← Outcome.index blobs index
  return info.length.toNat

def tensorSemantics (blobs : List TritBlobInfo) (tensor : TensorMeta) :
    Ranged TritModelError Digest := do
  let index ← .done (tensorIndex blobs tensor)
  let length ← .done (blobLength blobs index)
  match tensor.storage with
  | .dense shape precision => denseSemantics code tensor.name shape precision index length
  | .additive layout planes =>
    if layout.transport ≠ .raw then
      .done (.err (.unsupportedFeature "entropy model payloads"))
    else do
      let plan ← .done (code.newPlan layout planes length)
      code.validatePlan plan index
      additiveSemantics code layout planes plan index

def validatePrefix (blobs : List TritBlobInfo) (level : String) (child parent : TensorMeta) :
    Ranged TritModelError Unit := do
  let childBlob ← .done (tensorIndex blobs child)
  let parentBlob ← .done (tensorIndex blobs parent)
  let childLength ← .done (blobLength blobs childBlob)
  let parentLength ← .done (blobLength blobs parentBlob)
  if ← isPrefix code child childBlob childLength parent parentBlob parentLength then
    return ()
  else
    .done (.err (.invalidPrefix level))

def validateLevel (manifest : ModelManifest) (blobs : List TritBlobInfo) (level : Level) :
    Ranged TritModelError (List Digest) := do
  let digests ← level.tensors.mapM (tensorSemantics code blobs)
  match level.fit with
  | .importedPrefixOf parent => do
    let index ← .done (levelIndex manifest parent)
    let parent ← .done (Outcome.index manifest.levels index)
    (level.tensors.zip parent.tensors).forM fun pair =>
      validatePrefix code blobs level.name pair.1 pair.2
    return digests
  | _ => return digests

def validateBindings (manifest : ModelManifest) (blobs : List TritBlobInfo) :
    Ranged TritModelError ModelBindings := do
  .done (code.validate manifest)
  if manifest.shards ≠ [] then
    .done (.err (.unsupportedFeature "sharded model payloads"))
  else do
    manifest.assets.forM fun asset => do
      let _ ← .done (assetIndex manifest blobs asset.name)
    let tensorDigests ← manifest.levels.mapM (validateLevel code manifest blobs)
    let modelIds ← .done ((manifest.levels.zip tensorDigests).mapM fun pair =>
      modelDigest code manifest pair.1 pair.2)
    return ⟨manifest, tensorDigests, modelIds⟩

end Validator

structure TritModel where
  package : TritPackage
  binding : ModelBindings

def indexedBlob (package : TritPackage) (index : ℕ) : Outcome TritPackageError (List UInt8) := do
  let info ← okOr package.blobs[index]? .invalidDirectory
  let stop ← okOr (checkedAdd 64 info.offset.toNat info.length.toNat) .lengthOverflow
  okOr (subslice package.bytes info.offset.toNat stop) .invalidDirectory

def borrowedRange (package : TritPackage) (blob offset count : ℕ) :
    Outcome TritModelError (List UInt8) := do
  let stop ← okOr (checkedAdd 64 offset count) (.package .lengthOverflow)
  let bytes ← (indexedBlob package blob).mapErr .package
  okOr (subslice bytes offset stop) (.package .invalidDirectory)

def bindTritModelPayloads (code : ModelCode) (package : TritPackage) (manifest : ModelManifest) :
    Outcome TritModelError TritModel := do
  let binding ← (validateBindings code manifest package.blobs).run (borrowedRange package)
    (·.mapErr id)
  return ⟨package, binding⟩

def readTritModel (codec : Cbor.Codec) (digest : List UInt8 → Digest) (code : ModelCode)
    (bytes : List UInt8) : Outcome TritModelError TritModel := do
  let package ← (readTritPackage codec digest bytes).mapErr .package
  let manifest ← code.decodeModelManifest package.manifest
  bindTritModelPayloads code package manifest

end Tritium.Model
