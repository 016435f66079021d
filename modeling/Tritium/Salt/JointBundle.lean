import Tritium.Lib.Cbor
import Tritium.Lib.Seekable
import Tritium.Salt.JointCode
import Tritium.Salt.Row

/-!
# Joint bundles

A bundle has one code for all its tensors, a directory, and for every tensor the raw scales and the
code words of its weights. The reader keeps the header and the directory and goes back to its source
for a tensor; the source is the state of its calls.
-/

namespace Tritium.Salt

open Cbor (utf8 fromUtf8)

/-- `*b"TSLJ"` -/
def saltJointBundleMagic : List UInt8 := [0x54, 0x53, 0x4C, 0x4A]

def saltJointBundleVersion : ℕ := 1

def headerBytes : ℕ := 12

def dirFixedBytes : ℕ := 2 + 4 + 4 + 8 + 8 + 8

def maxTensors : ℕ := 2 ^ 20

inductive JointBundleError (ι : Type) where
  | badMagic
  | unsupportedVersion (version : ℕ)
  | malformed (why : String)
  | mixedPlanes (tensor : String)
  | nonZeroPadding (tensor : String) (row : ℕ)
  | notFound (name : String)
  | code (error : JointCodeError)
  | format (error : FormatError)
  | io (error : ι)
deriving DecidableEq

variable {ι : Type}

structure Extracted where
  symbols : List ℕ
  scales : List UInt8

/-- Stores a trit of a row, or checks that it is padding. -/
def placeTrit (name : String) (row k start : ℕ) (digits : List ℤ) (entry : Trit × ℕ) :
    Outcome (JointBundleError ι) (List ℤ) :=
  if start + entry.2 < k then
    setIndex digits (start + entry.2) entry.1.get
  else if entry.1 ≠ .zero then
    .err (.nonZeroPadding name row)
  else
    .ok digits

def extractBlock (name : String) (row k : ℕ) (plane : List UInt8) (state : List ℤ × List UInt8)
    (block : ℕ) : Outcome (JointBundleError ι) (List ℤ × List UInt8) := do
  let bytes ← slice plane (block * tq20BlockBytes) ((block + 1) * tq20BlockBytes)
  let (trits, _) ← (unpackTq20Block bytes qkK).mapErr .format
  let digits ← trits.zipIdx.foldlM (placeTrit name row k (block * qkK)) state.1
  let scale ← slice bytes (tq20BlockBytes - 2) bytes.length
  return (digits, state.2 ++ scale)

def extractPlane (name : String) (row k : ℕ) (state : List (List ℤ) × List UInt8)
    (plane : List UInt8) : Outcome (JointBundleError ι) (List (List ℤ) × List UInt8) :=
  if plane.length ≠ numBlocks k * tq20BlockBytes then
    .err (.malformed "plane length does not match k")
  else do
    let (digits, scales) ← (List.range (numBlocks k)).foldlM (extractBlock name row k plane)
      (List.replicate k 0, state.2)
    return (state.1 ++ [digits], scales)

def extractRow (name : String) (planes : ℕ) (state : Extracted) (entry : SaltRow × ℕ) :
    Outcome (JointBundleError ι) Extracted :=
  if entry.1.planes.length ≠ planes then
    .err (.mixedPlanes name)
  else do
    let (digits, scales) ← entry.1.planes.foldlM (extractPlane name entry.2 entry.1.k)
      ([], state.scales)
    let symbols ← (jointSymbols digits).mapErr .code
    return ⟨state.symbols ++ symbols, scales⟩

def extract (name : String) (rows : List SaltRow) (planes : ℕ) :
    Outcome (JointBundleError ι) Extracted :=
  rows.zipIdx.foldlM (extractRow name planes) ⟨[], []⟩

abbrev Tensor : Type := String × List SaltRow

def countSymbol (freq : List ℕ) (symbol : ℕ) : Outcome (JointBundleError ι) (List ℕ) := do
  let count ← Outcome.index freq symbol
  let count ← Outcome.add 64 count 1
  setIndex freq symbol count

/-- Writes a directory entry; the state is the output and the offset of the next payload. -/
def writeEntry (state : List UInt8 × ℕ) (item : (Tensor × Extracted) × JointStream) :
    Outcome (JointBundleError ι) (List UInt8 × ℕ) := do
  let (((name, rows), extracted), stream) := item
  let nameLen ← okOr (tryInto 16 (utf8 name).length) (.malformed "name too long")
  let k := widthOf rows
  if rows.any (fun row => row.k ≠ k) then
    .err (.malformed "rows of one tensor disagree on k")
  else do
    let payload ← Outcome.add 64 extracted.scales.length stream.bits.length
    let next ← Outcome.add 64 state.2 payload
    -- the two counts are truncated to 32 bits
    return (state.1 ++ leBytes 2 nameLen ++ utf8 name ++ leBytes 4 rows.length ++ leBytes 4 k ++
      leBytes 8 state.2 ++ leBytes 8 extracted.scales.length ++ leBytes 8 stream.bits.length, next)

def writeJointSaltBundle (tensors : List Tensor) (rotationGroup : Option UInt16) :
    Outcome (JointBundleError ι) (List UInt8) := do
  let first ← okOr (tensors.findSome? fun tensor => tensor.2.head?)
    (.malformed "bundle has no rows")
  let planes := first.planes.length
  if maxTensors < tensors.length then
    .err (.malformed "too many tensors")
  else do
    let exponent ← okOr (tryInto 32 planes) (.malformed "planes")
    let size ← expect (tryInto 64 (3 ^ exponent))
    let extracted ← tensors.mapM fun tensor => extract tensor.1 tensor.2 planes
    let freq ← extracted.foldlM (fun freq tensor => tensor.symbols.foldlM countSymbol freq)
      (List.replicate size 0)
    let code ← (JointCode.build freq planes).mapErr .code
    let streams ← extracted.mapM fun tensor =>
      (encode code tensor.symbols (max tensor.symbols.length 1)).mapErr .code
    let dirBytes ← tensors.foldlM
      (fun total tensor => Outcome.add 64 total (dirFixedBytes + (utf8 tensor.1).length)) 0
    let offset ← Outcome.add 64 (headerBytes + size) dirBytes
    let (out, _) ← ((tensors.zip extracted).zip streams).foldlM writeEntry
      (saltJointBundleMagic ++ [UInt8.ofNat saltJointBundleVersion] ++ [UInt8.ofNat planes] ++
        leBytes 2 (rotationGroup.getD 0).toNat ++ leBytes 4 tensors.length ++
        code.lengths.map UInt8.ofNat, offset)
    return out ++ (extracted.zip streams).flatMap fun entry => entry.1.scales ++ entry.2.bits

structure JointTensorInfo where
  name : String
  rows : ℕ
  k : ℕ
  payloadOffset : ℕ
  scaleBytes : ℕ
  streamBytes : ℕ
deriving DecidableEq, Repr

structure JointSaltBundleReader where
  planes : ℕ
  rotationGroup : Option UInt16
  code : JointCode
  entries : List JointTensorInfo

/-- The entries read so far and where the next one ends at the earliest. -/
structure DirectoryState where
  entries : List JointTensorInfo
  pos : ℕ

def checkEntry (planes fileLen : ℕ) (entries : List JointTensorInfo) (info : JointTensorInfo) :
    Outcome (JointBundleError ι) Unit := do
  let expectedScales ← okOr ((checkedMul 64 info.rows (numBlocks info.k)).bind
    fun product => checkedMul 64 product (planes * 2)) (.malformed "scale size overflows")
  if info.scaleBytes ≠ expectedScales then
    .err (.malformed "scale byte count disagrees with rows, k and planes")
  else do
    let stop ← okOr ((checkedAdd 64 info.payloadOffset info.scaleBytes).bind
      fun sum => checkedAdd 64 sum info.streamBytes) (.malformed "payload size overflows")
    if fileLen < stop then
      .err (.malformed "payload runs past end of file")
    else if entries.any (fun entry => entry.name = info.name) then
      .err (.malformed "duplicate tensor name")
    else
      return ()

/-- The payloads lie one behind the other in directory order. -/
def checkPlacement (expected : ℕ) (info : JointTensorInfo) : Outcome (JointBundleError ι) ℕ :=
  if info.payloadOffset ≠ expected then
    .err (.malformed "payloads are not contiguous in directory order")
  else do
    let payload ← Outcome.add 64 info.scaleBytes info.streamBytes
    Outcome.add 64 expected payload

/-- A trit of a plane; there is padding behind the digits. -/
def tritAt (digits : List ℤ) (position : ℕ) : Outcome (JointBundleError ι) Trit :=
  match digits[position]? with
  | some digit => (Trit.fromI8 digit).mapErr .format
  | none => .ok .zero

/-- One block of a plane; the state is the plane so far and the position in the scales. -/
def packBlock (scales : List UInt8) (digits : List ℤ) (state : List UInt8 × ℕ) (block : ℕ) :
    Outcome (JointBundleError ι) (List UInt8 × ℕ) := do
  let trits ← (List.range qkK).mapM fun position => tritAt digits (block * qkK + position)
  let low ← Outcome.index scales state.2
  let high ← Outcome.index scales (state.2 + 1)
  let bytes ← (packTq20Block trits (ofLeBytes [low, high])
    (List.replicate tq20BlockBytes 0)).mapErr .format
  return (state.1 ++ bytes, state.2 + 2)

def packPlane (k : ℕ) (scales : List UInt8) (state : List (List UInt8) × ℕ) (digits : List ℤ) :
    Outcome (JointBundleError ι) (List (List UInt8) × ℕ) := do
  let (plane, scaleAt) ← (List.range (numBlocks k)).foldlM (packBlock scales digits) ([], state.2)
  return (state.1 ++ [plane], scaleAt)

def packRow (info : JointTensorInfo) (planes : ℕ) (scales : List UInt8) (symbols : List ℕ)
    (state : List SaltRow × ℕ) (row : ℕ) : Outcome (JointBundleError ι) (List SaltRow × ℕ) := do
  let part ← slice symbols (row * info.k) ((row + 1) * info.k)
  let digits ← (planesFromSymbols part planes).mapErr .code
  let (planesOut, scaleAt) ← digits.foldlM (packPlane info.k scales) ([], state.2)
  return (state.1 ++ [⟨info.k, planesOut⟩], scaleAt)

namespace JointSaltBundleReader

def tensorInfo (reader : JointSaltBundleReader) (name : String) : Option JointTensorInfo :=
  reader.entries.find? fun info => info.name = name

/-- The rows of a tensor from its scales and its stream. -/
def decodeRows (reader : JointSaltBundleReader) (info : JointTensorInfo) (scales bits : List UInt8) :
    Outcome (JointBundleError ι) (List SaltRow) := do
  let count ← okOr (checkedMul 64 info.rows info.k) (.malformed "symbol count overflows")
  let symbols ← (decode reader.code ⟨bits, [0], max count 1, count⟩).mapErr .code
  let (rows, _) ← (List.range info.rows).foldlM (packRow info reader.planes scales symbols) ([], 0)
  return rows

end JointSaltBundleReader

section Source

variable {σ : Type} (source : Seekable σ ι)

/-- `read_exact` into a buffer of the given length. -/
def readBuffer (count : ℕ) : Stateful σ (JointBundleError ι) (List UInt8) := do
  let bytes ← (source.readExact count).mapErr .io
  return bytes.takeD count 0

def readUint (width : ℕ) : Stateful σ (JointBundleError ι) ℕ := do
  let bytes ← readBuffer source width
  return ofLeBytes bytes

def readU8 : Stateful σ (JointBundleError ι) ℕ := readUint source 1

def readU16 : Stateful σ (JointBundleError ι) ℕ := readUint source 2

def readU32 : Stateful σ (JointBundleError ι) ℕ := readUint source 4

def readU64 : Stateful σ (JointBundleError ι) ℕ := readUint source 8

def readEntry (planes fileLen : ℕ) (state : DirectoryState) :
    Stateful σ (JointBundleError ι) DirectoryState := do
  let nameLen ← readU16 source
  let pos ← lift (Outcome.add 64 state.pos (dirFixedBytes + nameLen))
  if fileLen < pos then
    lift (.err (.malformed "directory runs past end of file"))
  else do
    let bytes ← readBuffer source nameLen
    let name ← lift (okOr (fromUtf8 bytes) (.malformed "tensor name is not UTF-8"))
    let rows ← readU32 source
    let k ← readU32 source
    let payloadOffset ← readU64 source
    let scaleBytes ← readU64 source
    let streamBytes ← readU64 source
    let info : JointTensorInfo := ⟨name, rows, k, payloadOffset, scaleBytes, streamBytes⟩
    lift (checkEntry planes fileLen state.entries info)
    return ⟨state.entries ++ [info], pos⟩

/-- The directory, behind the header and the code. -/
def readDirectory (planes fileLen count start : ℕ) :
    Stateful σ (JointBundleError ι) (List JointTensorInfo) := do
  let directory ← timesM (readEntry source planes fileLen) count ⟨[], start⟩
  let stop ← lift (directory.entries.foldlM checkPlacement directory.pos)
  if stop ≠ fileLen then
    lift (.err (.malformed "payloads do not end at the end of the file"))
  else
    return directory.entries

namespace JointSaltBundleReader

def newStrict : Stateful σ (JointBundleError ι) JointSaltBundleReader := do
  let fileLen ← source.seekEnd.mapErr .io
  let _ ← (source.seekStart 0).mapErr .io
  let magic ← readBuffer source 4
  if magic ≠ saltJointBundleMagic then
    lift (.err .badMagic)
  else do
    let version ← readU8 source
    if version ≠ saltJointBundleVersion then
      lift (.err (.unsupportedVersion version))
    else do
      let planes ← readU8 source
      if planes = 0 ∨ maxJointPlanes < planes then
        lift (.err (.malformed "plane count out of range"))
      else do
        let rotation ← readU16 source
        let rotationGroup := if rotation ≠ 0 then some (UInt16.ofNat rotation) else none
        let count ← readU32 source
        if maxTensors < count then
          lift (.err (.malformed "tensor count exceeds limit"))
        else do
          let lengths ← readBuffer source (3 ^ planes)
          let code ← lift
            ((JointCode.fromLengths (lengths.map UInt8.toNat) planes).mapErr .code)
          let entries ← readDirectory source planes fileLen count (headerBytes + 3 ^ planes)
          return ⟨planes, rotationGroup, code, entries⟩

def readTensor (reader : JointSaltBundleReader) (name : String) :
    Stateful σ (JointBundleError ι) (List SaltRow) := do
  let info ← lift (okOr (reader.tensorInfo name) (.notFound name))
  let _ ← (source.seekStart info.payloadOffset).mapErr .io
  let scales ← readBuffer source info.scaleBytes
  let bits ← readBuffer source info.streamBytes
  lift (reader.decodeRows info scales bits)

end JointSaltBundleReader

end Source

end Tritium.Salt
