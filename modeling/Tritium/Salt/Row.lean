import Tritium.Salt.Sparse

/-!
# SALT rows

A row is a sum of ternary planes. The first version stores all of them dense, one behind the other;
the progressive version has a descriptor for each plane, and every plane but the first may be
sparse. A reader may keep the first planes only, and checks all of them nevertheless.
-/

namespace Tritium.Salt

/-- `*b"TSLT"` -/
def saltMagic : List UInt8 := [0x54, 0x53, 0x4C, 0x54]

def saltVersion : ℕ := 1

def saltProgressiveVersion : ℕ := 2

def saltHeaderBytes : ℕ := 4 + 1 + 1 + 4

def planeTagDense : ℕ := 0

def planeTagSparse : ℕ := 1

def planeDescriptorBytes : ℕ := 1 + 4

/-- The planes of a row, each a row of TQ2_0 blocks. -/
structure SaltRow where
  k : ℕ
  planes : List (List UInt8)
deriving DecidableEq, Repr

def SaltRow.planeBytes (row : SaltRow) : ℕ := numBlocks row.k * tq20BlockBytes

def widthOf (rows : List SaltRow) : ℕ := (rows.head?.map SaltRow.k).getD 0

/-- A row whose planes are kept in the form they are stored in. -/
structure PackedSaltRow where
  k : ℕ
  planes : List PlaneRepr
deriving DecidableEq, Repr

def PackedSaltRow.intoDense (row : PackedSaltRow) : Outcome FormatError SaltRow := do
  let planes ← row.planes.mapM expandPlaneRepr
  return ⟨row.k, planes⟩

/-- One of the four codes of a byte is the reserved one. -/
def reservedCode (packed : UInt8) : Bool :=
  [0, 2, 4, 6].any fun shift => packed.toNat >>> shift &&& 3 = 3

def validateDensePlane (payload : List UInt8) (expectedLen : ℕ) : Outcome FormatError Unit :=
  if payload.length ≠ expectedLen then
    .err (.wrongBlockLen expectedLen payload.length)
  else if (asChunks tq20BlockBytes payload).any fun block => (block.take qsBytes).any reservedCode then
    .err (.decodedOutOfRange 2)
  else
    .ok ()

def validateSaltRow (row : SaltRow) : Outcome FormatError ℕ :=
  if 2 ^ 8 - 1 < row.planes.length then
    .err (.saltTooManyPlanes row.planes.length)
  else if 2 ^ 32 - 1 < row.k then
    .err (.saltRowTooLong row.k)
  else do
    row.planes.forM fun plane => validateDensePlane plane row.planeBytes
    return row.planeBytes

def saltHeader (version planes k : ℕ) : List UInt8 :=
  saltMagic ++ [UInt8.ofNat version] ++ [UInt8.ofNat planes] ++ leBytes 4 k

def packSaltRow (row : SaltRow) : Outcome FormatError (List UInt8) := do
  let _ ← validateSaltRow row
  return saltHeader saltVersion row.planes.length row.k ++ row.planes.flatten

section Progressive

variable {φ : Type} (arithmetic : DensityArithmetic φ) (maxSparseDensity : φ)

/-- The tag and the payload of a plane. -/
def encodePlane (k planeBytes : ℕ) (entry : List UInt8 × ℕ) :
    Outcome FormatError (ℕ × List UInt8) :=
  if entry.2 = 0 then
    .ok (planeTagDense, entry.1)
  else do
    match ← choosePlaneRepr arithmetic entry.1 k maxSparseDensity with
    | .dense bytes => return (planeTagDense, bytes)
    | .sparse sparse => do
      let bytes ← packSparsePlane sparse
      if bytes.length < planeBytes then
        return (planeTagSparse, bytes)
      else
        return (planeTagDense, entry.1)

def encodeDescriptor (entry : ℕ × List UInt8) : Outcome FormatError (List UInt8) := do
  let length ← okOr (tryInto 32 entry.2.length)
    (.wrongBlockLen (2 ^ 32 - 1) entry.2.length)
  return UInt8.ofNat entry.1 :: leBytes 4 length

def packProgressiveSaltRow (row : SaltRow) : Outcome FormatError (List UInt8) :=
  if !arithmetic.isFinite maxSparseDensity || !(arithmetic.le arithmetic.zero maxSparseDensity &&
      arithmetic.le maxSparseDensity arithmetic.one) then
    .err .invalidSparseDensity
  else do
    let planeBytes ← validateSaltRow row
    let encoded ← row.planes.zipIdx.mapM
      (encodePlane arithmetic maxSparseDensity row.k planeBytes)
    let descriptorBytes ← okOr (checkedMul 64 encoded.length planeDescriptorBytes)
      (.saltTooManyPlanes encoded.length)
    let payloadBytes ← encoded.foldlM (fun total entry =>
      okOr (checkedAdd 64 total entry.2.length) (.wrongBlockLen (2 ^ 64 - 1) total)) 0
    let _ ← okOr ((checkedAdd 64 saltHeaderBytes descriptorBytes).bind
      fun sum => checkedAdd 64 sum payloadBytes) (.wrongBlockLen (2 ^ 64 - 1) payloadBytes)
    let descriptors ← encoded.mapM encodeDescriptor
    return saltHeader saltProgressiveVersion encoded.length row.k ++ descriptors.flatten ++
      encoded.flatMap Prod.snd

end Progressive

structure SaltRowLayout where
  version : ℕ
  planes : ℕ
  k : ℕ
  planeBytes : ℕ
  payloadStart : ℕ
  encodedLen : ℕ

def readHeader (bytes : List UInt8) : Outcome FormatError (ℕ × ℕ × ℕ) :=
  if bytes.length < saltHeaderBytes then
    .err (.wrongBlockLen saltHeaderBytes bytes.length)
  else do
    let magic ← slice bytes 0 4
    if magic ≠ saltMagic then
      .err .saltBadMagic
    else do
      let version ← Outcome.index bytes 4
      let planes ← Outcome.index bytes 5
      let k ← slice bytes 6 10
      return (version.toNat, planes.toNat, ofLeBytes k)

def readPlaneDescriptor (bytes : List UInt8) (index : ℕ) : Outcome FormatError (ℕ × ℕ) := do
  let offset := saltHeaderBytes + index * planeDescriptorBytes
  let length ← slice bytes (offset + 1) (offset + planeDescriptorBytes)
  let tag ← Outcome.index bytes offset
  return (tag.toNat, ofLeBytes length)

def validatePlaneTag (tag index : ℕ) : Outcome FormatError Unit :=
  if tag = planeTagDense then
    .ok ()
  else if tag = planeTagSparse then
    if index = 0 then .err .saltSparseBasePlane else .ok ()
  else
    .err (.saltInvalidPlaneTag tag)

/-- The bytes of the payloads that the descriptors announce. -/
def addDescriptor (bytes : List UInt8) (total index : ℕ) : Outcome FormatError ℕ := do
  let (tag, length) ← readPlaneDescriptor bytes index
  validatePlaneTag tag index
  okOr (checkedAdd 64 total length) (.wrongBlockLen (2 ^ 64 - 1) bytes.length)

/-- Where the payloads start and where the row ends. -/
def payloadSpan (bytes : List UInt8) (version planes planeBytes : ℕ) :
    Outcome FormatError (ℕ × ℕ) :=
  let overflow : FormatError := .wrongBlockLen (2 ^ 64 - 1) bytes.length
  if version = saltVersion then do
    let payloadBytes ← okOr (checkedMul 64 planes planeBytes) overflow
    let encodedLen ← okOr (checkedAdd 64 saltHeaderBytes payloadBytes) overflow
    return (saltHeaderBytes, encodedLen)
  else if version = saltProgressiveVersion then do
    let descriptorBytes ← okOr (checkedMul 64 planes planeDescriptorBytes) overflow
    let payloadStart ← okOr (checkedAdd 64 saltHeaderBytes descriptorBytes) overflow
    if bytes.length < payloadStart then
      .err (.wrongBlockLen payloadStart bytes.length)
    else do
      let payloadBytes ← (List.range planes).foldlM (addDescriptor bytes) 0
      let encodedLen ← okOr (checkedAdd 64 payloadStart payloadBytes) overflow
      return (payloadStart, encodedLen)
  else
    .err (.unsupportedSaltVersion version)

def parseSaltRowLayout (bytes : List UInt8) : Outcome FormatError SaltRowLayout := do
  let (version, planes, k) ← readHeader bytes
  let planeBytes ← okOr (checkedMul 64 (numBlocks k) tq20BlockBytes)
    (.wrongBlockLen (2 ^ 64 - 1) bytes.length)
  let (payloadStart, encodedLen) ← payloadSpan bytes version planes planeBytes
  if bytes.length < encodedLen then
    .err (.wrongBlockLen encodedLen bytes.length)
  else
    return ⟨version, planes, k, planeBytes, payloadStart, encodedLen⟩

def packedSaltRowLen (bytes : List UInt8) : Outcome FormatError ℕ := do
  let layout ← parseSaltRowLayout bytes
  return layout.encodedLen

/-- A row that was checked, as it is encoded. -/
structure PackedSaltRowRef where
  bytes : List UInt8
  layout : SaltRowLayout

/-- The tag of a plane and the length of its payload. -/
def planeFrame (bytes : List UInt8) (layout : SaltRowLayout) (index : ℕ) :
    Outcome FormatError (ℕ × ℕ) :=
  if layout.version = saltVersion then
    .ok (planeTagDense, layout.planeBytes)
  else
    readPlaneDescriptor bytes index

def checkPayload (layout : SaltRowLayout) (tag : ℕ) (payload : List UInt8) :
    Outcome FormatError Unit :=
  if tag = planeTagDense then
    validateDensePlane payload layout.planeBytes
  else do
    let sparse ← SparsePlaneRef.parse payload
    if sparse.k ≠ layout.k then
      .err (.wrongBlockLen layout.k sparse.k)
    else
      .ok ()

/-- Checks one plane; the state is where its payload starts. -/
def checkPlane (bytes : List UInt8) (layout : SaltRowLayout) (payloadOffset index : ℕ) :
    Outcome FormatError ℕ := do
  let (tag, length) ← planeFrame bytes layout index
  let payload ← slice bytes payloadOffset (payloadOffset + length)
  checkPayload layout tag payload
  return payloadOffset + length

def PackedSaltRowRef.parse (bytes : List UInt8) : Outcome FormatError PackedSaltRowRef := do
  let layout ← parseSaltRowLayout bytes
  if bytes.length ≠ layout.encodedLen then
    .err (.wrongBlockLen layout.encodedLen bytes.length)
  else do
    let _ ← (List.range layout.planes).foldlM (checkPlane bytes layout) layout.payloadStart
    return ⟨bytes, layout⟩

/-- The view of a plane that was checked, made a plane of its own. -/
def ownPlane (tag : ℕ) (payload : List UInt8) : Outcome FormatError PlaneRepr :=
  if tag = planeTagDense then
    .ok (.dense payload)
  else if tag = planeTagSparse then do
    let sparse ← SparsePlaneRef.fromValidated payload
    return .sparse sparse.toOwned
  else
    .panic

/-- Keeps one plane; the state is the planes so far and where the payload of the next starts. -/
def retainPlane (row : PackedSaltRowRef) (state : List PlaneRepr × ℕ) (index : ℕ) :
    Outcome FormatError (List PlaneRepr × ℕ) := do
  let (tag, length) ← planeFrame row.bytes row.layout index
  let payload ← slice row.bytes state.2 (state.2 + length)
  let plane ← ownPlane tag payload
  return (state.1 ++ [plane], state.2 + length)

def unpackPackedSaltRowPrefix (bytes : List UInt8) (maxPlanes : ℕ) :
    Outcome FormatError PackedSaltRow := do
  let row ← PackedSaltRowRef.parse bytes
  let keep := min row.layout.planes maxPlanes
  let (planes, _) ← (List.range keep).foldlM (retainPlane row) ([], row.layout.payloadStart)
  return ⟨row.layout.k, planes⟩

def unpackSaltRowPrefix (bytes : List UInt8) (maxPlanes : ℕ) : Outcome FormatError SaltRow := do
  let row ← unpackPackedSaltRowPrefix bytes maxPlanes
  row.intoDense

/-- `usize::MAX` planes are all of them. -/
def unpackSaltRow (bytes : List UInt8) : Outcome FormatError SaltRow :=
  unpackSaltRowPrefix bytes (2 ^ 64 - 1)

end Tritium.Salt
