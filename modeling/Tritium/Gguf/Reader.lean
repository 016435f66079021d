import Tritium.Lib.Cbor
import Tritium.Lib.Machine
import Tritium.Lib.Stateful
import Std.Data.ExtTreeMap

/-!
# Reading a GGUF container

The cursor of the reader is what is left of the buffer. Floats are their bits. Where the source
counts the depth of nested arrays up to its bound, the model counts the room left below it.
-/

namespace Tritium.Gguf

open Cbor (fromUtf8)

def defaultAlignment : ℕ := 32

/-- `*b"GGUF"` -/
def ggufMagic : List UInt8 := [0x47, 0x47, 0x55, 0x46]

def maxStringLen : ℕ := 64 * 1024 * 1024

def maxCount : ℕ := 2 ^ 32

def maxMetadataDepth : ℕ := 8

def maxMetadataArrayElements : ℕ := 16000000

def maxDims : ℕ := 8

inductive GgufError where
  | badMagic
  | unsupportedVersion (version : ℕ)
  | truncated
  | stringTooLong
  | dimsOverflow
  | invalidTensorShape
  | invalidAlignment
  | invalidBoolean (value : ℕ)
  | offsetOutOfBounds
  | unknownValueType (valueType : ℕ)
  | invalidUtf8
deriving DecidableEq, Repr

inductive GgufValue where
  | u8 (value : UInt8)
  | i8 (value : Int8)
  | u16 (value : UInt16)
  | i16 (value : Int16)
  | u32 (value : UInt32)
  | i32 (value : Int32)
  | f32 (bits : UInt32)
  | bool (value : Bool)
  | string (text : String)
  | array (items : List GgufValue)
  | u64 (value : UInt64)
  | i64 (value : Int64)
  | f64 (bits : UInt64)

abbrev Metadata := Std.ExtTreeMap String GgufValue

abbrev Reader := Stateful (List UInt8) GgufError

namespace Cursor

def take (count : ℕ) : Reader (List UInt8) := fun rest =>
  if rest.length < count then
    (.err .truncated, rest)
  else
    (.ok (rest.take count), rest.drop count)

def unsigned (width : ℕ) : Reader ℕ := do
  let bytes ← take width
  return ofLeBytes bytes

def ggufString : Reader String := do
  let length ← unsigned 8
  if maxStringLen < length then
    lift (.err .stringTooLong)
  else do
    let bytes ← take length
    lift (okOr (fromUtf8 bytes) .invalidUtf8)

end Cursor

def readBool : Reader GgufValue := do
  let value ← Cursor.unsigned 1
  if 1 < value then
    lift (.err (.invalidBoolean value))
  else
    return .bool (value ≠ 0)

def readScalar : ℕ → Reader GgufValue
  | 0 => do return .u8 (.ofNat (← Cursor.unsigned 1))
  | 1 => do return .i8 (UInt8.ofNat (← Cursor.unsigned 1)).toInt8
  | 2 => do return .u16 (.ofNat (← Cursor.unsigned 2))
  | 3 => do return .i16 (UInt16.ofNat (← Cursor.unsigned 2)).toInt16
  | 4 => do return .u32 (.ofNat (← Cursor.unsigned 4))
  | 5 => do return .i32 (UInt32.ofNat (← Cursor.unsigned 4)).toInt32
  | 6 => do return .f32 (.ofNat (← Cursor.unsigned 4))
  | 7 => readBool
  | 8 => do return .string (← Cursor.ggufString)
  | 10 => do return .u64 (.ofNat (← Cursor.unsigned 8))
  | 11 => do return .i64 (UInt64.ofNat (← Cursor.unsigned 8)).toInt64
  | 12 => do return .f64 (.ofNat (← Cursor.unsigned 8))
  | other => lift (.err (.unknownValueType other))

/-- Reads one element; the state is the elements before it and the number of all elements so far. -/
def readItem (readValue : ℕ → ℕ → Reader (GgufValue × ℕ)) (childType : ℕ)
    (state : List GgufValue × ℕ) : Reader (List GgufValue × ℕ) := do
  let (item, total) ← readValue childType state.2
  return (state.1 ++ [item], total)

def readArray (readValue : ℕ → ℕ → Reader (GgufValue × ℕ)) (total : ℕ) :
    Reader (GgufValue × ℕ) := do
  let childType ← Cursor.unsigned 4
  if 12 < childType then
    lift (.err (.unknownValueType childType))
  else do
    let count ← Cursor.unsigned 8
    if maxCount < count then
      lift (.err .dimsOverflow)
    else do
      let total ← lift (okOr (checkedAdd 64 total count) .dimsOverflow)
      if maxMetadataArrayElements < total then
        lift (.err .dimsOverflow)
      else do
        let (items, total) ← timesM (readItem readValue childType) count ([], total)
        return (.array items, total)

def readValue : ℕ → ℕ → ℕ → Reader (GgufValue × ℕ)
  | 0, valueType, total =>
    if valueType = 9 then
      lift (.err .dimsOverflow)
    else do
      return (← readScalar valueType, total)
  | room + 1, valueType, total =>
    if valueType = 9 then
      readArray (readValue room) total
    else do
      return (← readScalar valueType, total)

def readEntry (state : Metadata × ℕ) : Reader (Metadata × ℕ) := do
  let key ← Cursor.ggufString
  let valueType ← Cursor.unsigned 4
  let (value, total) ← readValue maxMetadataDepth valueType state.2
  return (state.1.insert key value, total)

def metadataAlignment (metadata : Metadata) : Outcome GgufError ℕ :=
  match metadata["general.alignment"]? with
  | none => .ok defaultAlignment
  | some (.u32 value) =>
    if value.toNat ≠ 0 ∧ value.toNat % 8 = 0 then .ok value.toNat else .err .invalidAlignment
  | some _ => .err .invalidAlignment

structure RawTensorInfo where
  name : String
  dims : List UInt64
  ggmlType : UInt32
  offset : ℕ

structure TensorInfo extends RawTensorInfo where
  nBytes : ℕ

structure GgufFile where
  version : ℕ
  metadata : Metadata
  tensors : List TensorInfo
  tensorDataOffset : ℕ

/-- The bytes and the elements of a block. -/
def typeBlockLayout (ggmlType : UInt32) : Option (ℕ × ℕ) :=
  match ggmlType.toNat with
  | 0 => some (4, 1)
  | 1 => some (2, 1)
  | 8 => some (34, 32)
  | 24 => some (1, 1)
  | 25 => some (2, 1)
  | 26 => some (4, 1)
  | 30 => some (2, 1)
  | 34 => some (54, 256)
  | 35 => some (66, 256)
  | 42 => some (18, 64)
  | _ => none

def multiplyDimension (product : ℕ) (dimension : UInt64) : Option ℕ :=
  checkedMul 64 product dimension.toNat

def tensorNBytes (ggmlType : UInt32) (dims : List UInt64) : Outcome GgufError ℕ :=
  match typeBlockLayout ggmlType with
  | none => .ok 0
  | some (blockSize, blockN) =>
    let rowElements := dims.head?.elim 1 UInt64.toNat
    if rowElements % blockN ≠ 0 then
      .err .invalidTensorShape
    else do
      let rows ← okOr (dims.tail.foldlM multiplyDimension 1) .dimsOverflow
      let rowBytes ← okOr (checkedMul 64 (rowElements / blockN) blockSize) .dimsOverflow
      okOr (checkedMul 64 rowBytes rows) .dimsOverflow

def alignUp (position alignment : ℕ) : Outcome GgufError ℕ :=
  if alignment = 0 then
    .ok position
  else do
    let bumped ← okOr (checkedAdd 64 position (alignment - 1)) .dimsOverflow
    return bumped - bumped % alignment

def readDims (dims : List UInt64) : Reader (List UInt64) := do
  return dims ++ [.ofNat (← Cursor.unsigned 8)]

def readTensorInfo (tensors : List RawTensorInfo) : Reader (List RawTensorInfo) := do
  let name ← Cursor.ggufString
  let nDims ← Cursor.unsigned 4
  if maxDims < nDims then
    lift (.err .dimsOverflow)
  else do
    let dims ← timesM readDims nDims []
    let ggmlType ← Cursor.unsigned 4
    let offset ← Cursor.unsigned 8
    return tensors ++ [⟨name, dims, .ofNat ggmlType, offset⟩]

def sizeTensor (dataSectionLen : ℕ) (tensor : RawTensorInfo) : Outcome GgufError TensorInfo := do
  let _ ← okOr (tensor.dims.foldlM multiplyDimension 1) .dimsOverflow
  let nBytes ← tensorNBytes tensor.ggmlType tensor.dims
  if 0 < nBytes then do
    let stop ← okOr (checkedAdd 64 tensor.offset nBytes) .dimsOverflow
    if dataSectionLen < stop then .err .offsetOutOfBounds else return ⟨tensor, nBytes⟩
  else if dataSectionLen < tensor.offset then
    .err .offsetOutOfBounds
  else
    return ⟨tensor, nBytes⟩

def readTables : Reader (ℕ × Metadata × ℕ × List RawTensorInfo) := do
  let magic ← Cursor.take 4
  if magic ≠ ggufMagic then
    lift (.err .badMagic)
  else do
    let version ← Cursor.unsigned 4
    if version ≠ 2 ∧ version ≠ 3 then
      lift (.err (.unsupportedVersion version))
    else do
      let tensorCount ← Cursor.unsigned 8
      let metadataKvCount ← Cursor.unsigned 8
      if maxCount < tensorCount ∨ maxCount < metadataKvCount then
        lift (.err .dimsOverflow)
      else do
        let (metadata, _) ← timesM readEntry metadataKvCount (∅, 0)
        let alignment ← lift (metadataAlignment metadata)
        let tensors ← timesM readTensorInfo tensorCount []
        return (version, metadata, alignment, tensors)

def readGguf (buf : List UInt8) : Outcome GgufError GgufFile := do
  let (version, metadata, alignment, rawTensors) ← (readTables buf).1
  let headerEnd := buf.length - (readTables buf).2.length
  let tensorDataOffset ← alignUp headerEnd alignment
  let tensors ← rawTensors.mapM (sizeTensor (buf.length - tensorDataOffset))
  return ⟨version, metadata, tensors, tensorDataOffset⟩

end Tritium.Gguf
