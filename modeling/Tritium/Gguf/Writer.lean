import Tritium.Gguf.Reader

/-!
# Writing a GGUF container

The batch writer lays the tensors out one after the other, each at a multiple of the alignment, and
fills the gaps with zeros. What the source appends to its buffer is here what a function returns.
-/

namespace Tritium.Gguf

open Cbor (utf8)

def ggufStringBytes (text : String) : List UInt8 := leBytes 8 (utf8 text).length ++ utf8 text

def valueTypeTag : GgufValue → ℕ
  | .u8 _ => 0
  | .i8 _ => 1
  | .u16 _ => 2
  | .i16 _ => 3
  | .u32 _ => 4
  | .i32 _ => 5
  | .f32 _ => 6
  | .bool _ => 7
  | .string _ => 8
  | .array _ => 9
  | .u64 _ => 10
  | .i64 _ => 11
  | .f64 _ => 12

def pushScalar : GgufValue → Outcome GgufError (List UInt8)
  | .u8 value => .ok (leBytes 1 value.toNat)
  | .i8 value => .ok (leBytes 1 value.toUInt8.toNat)
  | .u16 value => .ok (leBytes 2 value.toNat)
  | .i16 value => .ok (leBytes 2 value.toUInt16.toNat)
  | .u32 value => .ok (leBytes 4 value.toNat)
  | .i32 value => .ok (leBytes 4 value.toUInt32.toNat)
  | .f32 bits => .ok (leBytes 4 bits.toNat)
  | .bool value => .ok (leBytes 1 value.toNat)
  | .string text => .ok (ggufStringBytes text)
  | .u64 value => .ok (leBytes 8 value.toNat)
  | .i64 value => .ok (leBytes 8 value.toUInt64.toNat)
  | .f64 bits => .ok (leBytes 8 bits.toNat)
  | .array _ => .err (.unknownValueType 9)

/-- Adds one element; the state is the bytes and the number of all elements so far. -/
def pushItem (pushValuePayload : GgufValue → ℕ → Outcome GgufError (List UInt8 × ℕ)) (childTag : ℕ)
    (state : List UInt8 × ℕ) (item : GgufValue) : Outcome GgufError (List UInt8 × ℕ) :=
  if valueTypeTag item ≠ childTag then
    .err (.unknownValueType 9)
  else do
    let (bytes, total) ← pushValuePayload item state.2
    return (state.1 ++ bytes, total)

def pushArray (pushValuePayload : GgufValue → ℕ → Outcome GgufError (List UInt8 × ℕ))
    (items : List GgufValue) (total : ℕ) : Outcome GgufError (List UInt8 × ℕ) := do
  let total ← okOr (checkedAdd 64 total items.length) .dimsOverflow
  if maxMetadataArrayElements < total then
    .err .dimsOverflow
  else do
    let childTag := items.head?.elim 0 valueTypeTag
    let (bytes, total) ← items.foldlM (pushItem pushValuePayload childTag) ([], total)
    return (leBytes 4 childTag ++ leBytes 8 items.length ++ bytes, total)

/-- The bytes of a value behind its tag, and the number of array elements so far. -/
def pushValuePayload : ℕ → GgufValue → ℕ → Outcome GgufError (List UInt8 × ℕ)
  | 0, value, total =>
    match value with
    | .array _ => .err .dimsOverflow
    | scalar => do return (← pushScalar scalar, total)
  | room + 1, value, total =>
    match value with
    | .array items => pushArray (pushValuePayload room) items total
    | scalar => do return (← pushScalar scalar, total)

def pushEntry (state : List UInt8 × ℕ) (entry : String × GgufValue) :
    Outcome GgufError (List UInt8 × ℕ) := do
  let (payload, total) ← pushValuePayload maxMetadataDepth entry.2 state.2
  return (state.1 ++ ggufStringBytes entry.1 ++ leBytes 4 (valueTypeTag entry.2) ++ payload, total)

structure GgufTensorSpec where
  name : String
  dims : List UInt64
  ggmlType : UInt32
  dataLen : ℕ

structure TensorOut where
  name : String
  dims : List UInt64
  ggmlType : UInt32
  data : List UInt8

def TensorOut.spec (tensor : TensorOut) : GgufTensorSpec :=
  ⟨tensor.name, tensor.dims, tensor.ggmlType, tensor.data.length⟩

structure GgufLayout where
  header : List UInt8
  tensorDataOffset : ℕ
  offsets : List ℕ

/-- Places one tensor; the state is the offsets and the end of the tensors before it. -/
def placeTensor (alignment : ℕ) (state : List ℕ × ℕ) (tensor : GgufTensorSpec) :
    Outcome GgufError (List ℕ × ℕ) := do
  let expectedDataLen ← tensorNBytes tensor.ggmlType tensor.dims
  if (typeBlockLayout tensor.ggmlType).isSome ∧ tensor.dataLen ≠ expectedDataLen then
    .err .invalidTensorShape
  else do
    let offset ← alignUp state.2 alignment
    let relativeEnd ← okOr (checkedAdd 64 offset tensor.dataLen) .dimsOverflow
    return (state.1 ++ [offset], relativeEnd)

def tensorInfoBytes (entry : GgufTensorSpec × ℕ) : List UInt8 :=
  ggufStringBytes entry.1.name ++ leBytes 4 entry.1.dims.length ++
    entry.1.dims.flatMap (fun dimension => leBytes 8 dimension.toNat) ++
    leBytes 4 entry.1.ggmlType.toNat ++ leBytes 8 entry.2

def buildLayout (version : ℕ) (metadata : Metadata) (tensors : List GgufTensorSpec) :
    Outcome GgufError GgufLayout :=
  if version ≠ 2 ∧ version ≠ 3 then
    .err (.unsupportedVersion version)
  else do
    let alignment ← metadataAlignment metadata
    let (offsets, relativeEnd) ← tensors.foldlM (placeTensor alignment) ([], 0)
    let (table, _) ← metadata.toList.foldlM pushEntry ([], 0)
    let header := ggufMagic ++ leBytes 4 version ++ leBytes 8 tensors.length ++
      leBytes 8 metadata.size ++ table ++ (tensors.zip offsets).flatMap tensorInfoBytes
    let headerEnd ← okOr (tryInto 64 header.length) .dimsOverflow
    let tensorDataOffset ← alignUp headerEnd alignment
    let _ ← okOr (checkedAdd 64 tensorDataOffset relativeEnd) .dimsOverflow
    return ⟨header, tensorDataOffset, offsets⟩

/-- `Vec::resize` with zeros, to at least the present length. -/
def padTo (out : List UInt8) (length : ℕ) : List UInt8 :=
  out ++ List.replicate (length - out.length) 0

def writePayload (tensorDataOffset : ℕ) (out : List UInt8) (entry : TensorOut × ℕ) :
    Outcome GgufError (List UInt8) := do
  let absolute ← okOr (checkedAdd 64 tensorDataOffset entry.2) .dimsOverflow
  return padTo out absolute ++ entry.1.data

def writeGguf (version : ℕ) (metadata : Metadata) (tensors : List TensorOut) :
    Outcome GgufError (List UInt8) := do
  let layout ← buildLayout version metadata (tensors.map TensorOut.spec)
  (tensors.zip layout.offsets).foldlM (writePayload layout.tensorDataOffset)
    (padTo layout.header layout.tensorDataOffset)

end Tritium.Gguf
