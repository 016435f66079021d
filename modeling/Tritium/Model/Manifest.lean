import Tritium.Model.Binding

/-!
# Typed manifests

The structural check of a manifest. The check of an additive layout is a parameter.
-/

namespace Tritium.Model

inductive ModelManifestError (ε : Type) where
  | unsupportedVersion (schema : UInt16 × UInt16)
  | invalidName
  | unsortedOrDuplicate (inventory : String)
  | missingAsset (name : String)
  | invalidCount
  | invalidShape
  | invalidLayout (error : ε)
  | invalidPlanes
  | missingShard
  | invalidPrefix
  | levelShapeMismatch
  | missingLegacyLevel
deriving DecidableEq

abbrev Check (ε : Type) := Outcome (ModelManifestError ε)

variable {ε : Type} (checkLayout : AdditiveLayout → Outcome ε Unit)

def isControl (char : Char) : Bool := char.toNat < 32 || 127 ≤ char.toNat && char.toNat < 160

def name (value : String) (basename : Bool) : Check ε Unit :=
  if value = "" ∨ 4096 < value.utf8ByteSize ∨ value.toList.any isControl ∨
      basename ∧ (value = "." ∨ value = ".." ∨ value.toList.any (· ∈ ['/', '\\', ':'])) then
    .err .invalidName
  else
    .ok ()

def sorted (values : List String) (inventory : String) : Check ε Unit :=
  if neighboursAny (fun previous value => compare previous value != .lt) values then
    .err (.unsortedOrDuplicate inventory)
  else
    .ok ()

def sameShape : TensorStorage → TensorStorage → Bool
  | .dense first _, .dense second _ => first = second
  | .additive first _, .additive second _ => first.rows = second.rows ∧ first.cols = second.cols
  | .dense shape _, .additive layout _ | .additive layout _, .dense shape _ =>
    shape = [layout.rows, layout.cols]

def checkStorage : TensorStorage → Check ε Unit
  | .dense shape _ =>
    if shape = [] ∨ 32 < shape.length ∨ (shape.foldlM (fun count (dim : UInt64) =>
        if dim = 0 then none else checkedMul 64 count dim.toNat) 1).isNone then
      .err .invalidShape
    else
      .ok ()
  | .additive layout planes => do
    (checkLayout layout).mapErr .invalidLayout
    let _ ← okOr (checkedMul 64 layout.rows.toNat layout.cols.toNat) .invalidShape
    match layout.allocation, planes with
    | .uniform, .uniform count => if count = layout.maxPlanes then .ok () else .err .invalidPlanes
    | .perTile, .perTile counts => do
      let tiles ← okOr (checkedMul 64 layout.rows.toNat ((layout.cols.toNat + 255) / 256))
        .invalidShape
      if counts.length ≠ tiles ∨ counts.any (layout.maxPlanes < ·) then .err .invalidPlanes
      else .ok ()
    | _, _ => .err .invalidPlanes

def checkFit : LevelFit → Check ε Unit
  | .direct evidence =>
    if evidence = [] ∨ 4096 < evidence.length then
      .err .invalidCount
    else do
      evidence.forM fun reference => do
        name reference.run false
        name reference.span false
      if neighboursAny (fun left right => (compare left.run right.run).then
          ((compare left.span right.span).then (left.root.compare right.root)) != .lt) evidence then
        .err (.unsortedOrDuplicate "evidence")
      else
        .ok ()
  | _ => .ok ()

namespace ModelManifest

variable (manifest : ModelManifest)

def reference (blob : BlobReference) : Check ε Unit :=
  match blob.shard with
  | none => .ok ()
  | some shard => do
    name shard true
    let _ ← okOr (binarySearchBy manifest.shards fun other => compare other.name shard)
      .missingShard
    return

def levelNamed (parent : String) : Option ℕ :=
  binarySearchBy manifest.levels fun level => compare level.name parent

def checkInventory : Check ε Unit :=
  if manifest.schema ≠ (1, 0) then
    .err (.unsupportedVersion manifest.schema)
  else do
    name manifest.architecture false
    sorted (manifest.assets.map (·.name)) "assets"
    sorted (manifest.levels.map (·.name)) "levels"
    sorted (manifest.shards.map (·.name)) "shards"
    sorted (manifest.legacyIds.map (·.id)) "legacy_ids"
    if manifest.levels = [] ∨ 1024 < manifest.levels.length ∨ 4096 < manifest.assets.length ∨
        1000000 < manifest.shards.length ∨ 1000000 < manifest.legacyIds.length then
      .err .invalidCount
    else do
      ["config.json", "tokenizer.json"].forM fun required =>
        if manifest.assets.all (·.name ≠ required) then .err (.missingAsset required) else .ok ()
      manifest.shards.forM fun shard => name shard.name true
      manifest.assets.forM fun asset => do
        name asset.name true
        manifest.reference asset.blob

/-- What is checked of a level before its ancestors. -/
def checkLevel (level : Level) : Check ε Unit := do
  name level.name false
  sorted (level.tensors.map (·.name)) "tensors"
  if level.tensors = [] ∨ 1000000 < level.tensors.length then
    .err .invalidCount
  else do
    checkFit level.fit
    level.tensors.forM fun tensor => do
      name tensor.name false
      manifest.reference tensor.blob
      checkStorage checkLayout tensor.storage
    let first ← Outcome.index manifest.levels 0
    if first.tensors.length ≠ level.tensors.length ∨ (first.tensors.zip level.tensors).any
        (fun (one, other) => one.name ≠ other.name ∨ ¬sameShape one.storage other.storage) then
      .err .levelShapeMismatch
    else
      .ok ()

/-- Goes up from a level, at most `left` links more. -/
def ancestors (left : ℕ) (ancestor : Level) : Check ε Unit :=
  match ancestor.fit with
  | .importedPrefixOf parent =>
    match left with
    | 0 => .err .invalidPrefix
    | left + 1 => do
      let index ← okOr (manifest.levelNamed parent) .invalidPrefix
      let ancestor ← Outcome.index manifest.levels index
      ancestors left ancestor
  | _ => .ok ()

/-- The check with `checkAncestors` for what is asked of the ancestors of a level. -/
def validateWith (checkAncestors : Level → Check ε Unit) : Check ε Unit := do
  manifest.checkInventory
  manifest.levels.forM fun level => do
    manifest.checkLevel checkLayout level
    checkAncestors level
  manifest.legacyIds.forM fun legacy => do
    name legacy.id false
    let _ ← okOr (manifest.levelNamed legacy.level) .missingLegacyLevel
    return

def validate : Check ε Unit :=
  manifest.validateWith checkLayout (manifest.ancestors manifest.levels.length)

end ModelManifest

end Tritium.Model
