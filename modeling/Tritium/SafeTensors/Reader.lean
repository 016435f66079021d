import Tritium.Lib.Machine
import Tritium.Lib.Ordering
import Tritium.Lib.Seekable

/-!
# Safetensors

A file is the length of a JSON header, the header, and the bytes of the tensors. One reader holds the
whole file in memory; the other keeps the header and goes back to its source for the tensors. The
JSON parser and the widening of the two half formats are parameters, and a float is its bits.
-/

namespace Tritium.Safetensors

inductive SafeTensorsError (ι : Type) where
  | tooShort
  | badHeaderLen (declared available : ℕ)
  | headerTooLarge (declared limit : ℕ)
  | json (message : String)
  | notFound (name : String)
  | outOfBounds (name : String)
  | lengthMismatch (name : String) (expected got : ℕ)
  | unsupportedDtype (name dtype : String)
  | shapeOverflow (name : String)
  | io (operation : String) (source : ι)
  | invalidLayout (message : String)
  | invalidChunkSize (requested : ℕ)

/-- The error of a visit, with the one of the byte sink as it was. -/
inductive VisitTensorBytesError (ι φ : Type) where
  | source (error : SafeTensorsError ι)
  | sink (error : φ)

structure RawTensor where
  dtype : String
  shape : List ℕ
  dataOffsets : ℕ × ℕ
deriving DecidableEq, Repr

/-- The tensors of a header, in the order of their names. -/
abbrev Table := List (String × RawTensor)

def maxHeaderLen : ℕ := 100000000

def readChunkBytes : ℕ := 64 * 1024

inductive FloatDtype where
  | bf16
  | f16
  | f32
deriving DecidableEq, Repr

def FloatDtype.byteSize : FloatDtype → ℕ
  | .bf16 | .f16 => 2
  | .f32 => 4

structure RawTensorLayout where
  offset : ℕ
  byteLen : ℕ
  numel : ℕ

structure TensorLayout extends RawTensorLayout where
  dtype : FloatDtype

section Layout

variable {ι : Type}

def storageBits (dtype : String) : Option ℕ :=
  if dtype = "F4" then some 4
  else if dtype ∈ ["F6_E2M3", "F6_E3M2"] then some 6
  else if dtype ∈ ["BOOL", "U8", "I8", "F8_E5M2", "F8_E4M3", "F8_E8M0", "F8_E4M3FNUZ",
    "F8_E5M2FNUZ"] then some 8
  else if dtype ∈ ["I16", "U16", "F16", "BF16"] then some 16
  else if dtype ∈ ["I32", "U32", "F32"] then some 32
  else if dtype ∈ ["I64", "U64", "F64", "C64"] then some 64
  else none

def rawTensorLayoutEntry (name : String) (tensor : RawTensor) (dataLen : ℕ) :
    Outcome (SafeTensorsError ι) RawTensorLayout := do
  let (start, stop) := tensor.dataOffsets
  if stop < start ∨ dataLen < stop then
    .err (.outOfBounds name)
  else do
    let byteLen := stop - start
    let bits ← okOr (storageBits tensor.dtype) (.unsupportedDtype name tensor.dtype)
    let numel ← okOr (tensor.shape.foldlM (checkedMul 64) 1) (.shapeOverflow name)
    let bitLen ← okOr (checkedMul 64 numel bits) (.shapeOverflow name)
    if bitLen % 8 ≠ 0 then
      .err (.invalidLayout s!"tensor `{name}` has a non-byte-aligned {bitLen}-bit payload")
    else if byteLen ≠ bitLen / 8 then
      .err (.lengthMismatch name (bitLen / 8) byteLen)
    else
      return ⟨start, byteLen, numel⟩

def compareOffsets (left right : String × RawTensor) : Ordering :=
  compareLex (compareOn Prod.fst) (compareOn Prod.snd) left.2.dataOffsets right.2.dataOffsets

/-- Checks one tensor; the state is the end of the span before it. -/
def checkSpan (dataLen cursor : ℕ) (entry : String × RawTensor) :
    Outcome (SafeTensorsError ι) ℕ := do
  let (name, tensor) := entry
  let (start, stop) := tensor.dataOffsets
  if start ≠ cursor ∨ stop < start then
    .err (.invalidLayout
      s!"tensor `{name}` starts at {start}, expected {cursor}, and ends at {stop}")
  else do
    let _ ← rawTensorLayoutEntry name tensor dataLen
    return stop

def validateLayout (tensors : Table) (dataLen : ℕ) : Outcome (SafeTensorsError ι) Unit := do
  let cursor ← (sortBy compareOffsets tensors).foldlM (checkSpan dataLen) 0
  if cursor ≠ dataLen then
    .err (.invalidLayout s!"tensor metadata covers {cursor} of {dataLen} data bytes")
  else
    return ()

def rawTensorLayout (tensors : Table) (name : String) (dataLen : ℕ) :
    Outcome (SafeTensorsError ι) RawTensorLayout := do
  let tensor ← okOr (tensors.lookup name) (.notFound name)
  rawTensorLayoutEntry name tensor dataLen

def floatDtype (name dtype : String) : Outcome (SafeTensorsError ι) FloatDtype :=
  if dtype = "BF16" then .ok .bf16
  else if dtype = "F16" then .ok .f16
  else if dtype = "F32" then .ok .f32
  else .err (.unsupportedDtype name dtype)

def tensorLayout (tensors : Table) (name : String) (dataLen : ℕ) :
    Outcome (SafeTensorsError ι) TensorLayout := do
  let tensor ← okOr (tensors.lookup name) (.notFound name)
  let raw ← rawTensorLayoutEntry name tensor dataLen
  let dtype ← floatDtype name tensor.dtype
  let _ ← okOr (checkedMul 64 raw.numel 4) (.shapeOverflow name)
  return ⟨raw, dtype⟩

end Layout

section Header

variable {ι : Type} (json : List UInt8 → Except String Table)

def checkedHeaderLen (declared : ℕ) : Outcome (SafeTensorsError ι) ℕ :=
  if maxHeaderLen < declared then .err (.headerTooLarge declared maxHeaderLen) else .ok declared

def parseHeader (header : List UInt8) : Outcome (SafeTensorsError ι) Table :=
  if header.head? ≠ some 0x7B then
    .err (.json "header must begin with `\x7b`")
  else
    match json header with
    | .ok tensors => .ok tensors
    | .error message => .err (.json message)

end Header

section Floats

variable (widen : FloatDtype → ℕ → UInt32)

/-- The widened values of the whole elements of a byte string. -/
def appendF32 (output : List UInt32) (dtype : FloatDtype) (raw : List UInt8) : List UInt32 :=
  output ++ (asChunks dtype.byteSize raw).map fun chunk => widen dtype (ofLeBytes chunk)

end Floats

structure SafeTensors where
  tensors : Table
  data : List UInt8

namespace SafeTensors

variable {ι : Type} (json : List UInt8 → Except String Table) (widen : FloatDtype → ℕ → UInt32)

def parse (buf : List UInt8) : Outcome (SafeTensorsError ι) SafeTensors :=
  if buf.length < 8 then
    .err .tooShort
  else do
    let declared ← slice buf 0 8
    let headerLen ← checkedHeaderLen (ofLeBytes declared)
    if buf.length < 8 + headerLen then
      .err (.badHeaderLen headerLen (buf.length - 8))
    else do
      let header ← slice buf 8 (8 + headerLen)
      let tensors ← parseHeader json header
      let data ← slice buf (8 + headerLen) buf.length
      validateLayout tensors data.length
      return ⟨tensors, data⟩

def tensorF32 (file : SafeTensors) (name : String) :
    Outcome (SafeTensorsError ι) (List UInt32) := do
  let layout ← tensorLayout file.tensors name file.data.length
  let stop ← okOr (checkedAdd 64 layout.offset layout.byteLen) (.outOfBounds name)
  let raw ← okOr (subslice file.data layout.offset stop) (.outOfBounds name)
  return appendF32 widen [] layout.dtype raw

end SafeTensors

structure SafeTensorsReader where
  tensors : Table
  dataStart : ℕ
  dataLen : ℕ

section Source

variable {σ ι : Type} (source : Seekable σ ι)

def tryVisitReaderRange {α φ : Type} (absolute byteLen maxChunkBytes : ℕ)
    (visit : α → List UInt8 → Outcome φ α) (value : α) : Stateful σ (VisitTensorBytesError ι φ) α :=
  if maxChunkBytes = 0 then
    lift (.err (.source (.invalidChunkSize maxChunkBytes)))
  else if byteLen = 0 then
    return value
  else do
    let _ ← (source.seekStart absolute).mapErr fun error =>
      .source (.io "seek to tensor payload" error)
    source.scan (min maxChunkBytes readChunkBytes)
      (fun error => .source (.io "read tensor payload" error))
      (fun value chunk => (visit value chunk).mapErr .sink) value byteLen

/-- What is left of the error of a visit whose sink cannot fail. -/
def sourceError : VisitTensorBytesError ι Empty → SafeTensorsError ι
  | .source error => error

namespace SafeTensorsReader

variable (json : List UInt8 → Except String Table) (widen : FloatDtype → ℕ → UInt32)

def new : Stateful σ (SafeTensorsError ι) SafeTensorsReader := do
  let fileLen ← source.seekEnd.mapErr (.io "seek to source end")
  let _ ← (source.seekStart 0).mapErr (.io "seek to source start")
  if fileLen < 8 then
    lift (.err .tooShort)
  else do
    let declared ← (source.readExact 8).mapErr (.io "read length prefix")
    let headerLen ← lift (checkedHeaderLen (ofLeBytes declared))
    if fileLen - 8 < headerLen then
      lift (.err (.badHeaderLen headerLen (fileLen - 8)))
    else do
      let header ← (source.readExact headerLen).mapErr (.io "read JSON header")
      let tensors ← lift (parseHeader json header)
      lift (validateLayout tensors (fileLen - (8 + headerLen)))
      return ⟨tensors, 8 + headerLen, fileLen - (8 + headerLen)⟩

variable (reader : SafeTensorsReader) (name : String)

def tryVisitTensorBytes {α φ : Type} (maxChunkBytes : ℕ) (visit : α → List UInt8 → Outcome φ α)
    (value : α) : Stateful σ (VisitTensorBytesError ι φ) α := do
  let layout ← lift ((rawTensorLayout reader.tensors name reader.dataLen).mapErr .source)
  let absolute ← lift (okOr (checkedAdd 64 reader.dataStart layout.offset)
    (.source (.outOfBounds name)))
  tryVisitReaderRange source absolute layout.byteLen maxChunkBytes visit value

/-- The state of the sink comes back with the values. -/
def tryTensorF32WithRawChunks {α φ : Type} (maxChunkBytes : ℕ)
    (visit : α → List UInt8 → Outcome φ α) (value : α) :
    Stateful σ (VisitTensorBytesError ι φ) (α × List UInt32) := do
  let layout ← lift ((tensorLayout reader.tensors name reader.dataLen).mapErr .source)
  let absolute ← lift (okOr (checkedAdd 64 reader.dataStart layout.offset)
    (.source (.outOfBounds name)))
  let bounded := min maxChunkBytes readChunkBytes
  let chunkCapacity := bounded - bounded % layout.dtype.byteSize
  if chunkCapacity = 0 then
    lift (.err (.source (.invalidChunkSize maxChunkBytes)))
  else
    tryVisitReaderRange source absolute layout.byteLen chunkCapacity
      (fun seen raw => do
        let value ← visit seen.1 raw
        return (value, appendF32 widen seen.2 layout.dtype raw)) (value, [])

def tensorF32 : Stateful σ (SafeTensorsError ι) (List UInt32) := do
  let (_, output) ← (tryTensorF32WithRawChunks source widen reader name readChunkBytes
    (fun _ _ => .ok ()) () : Stateful σ (VisitTensorBytesError ι Empty) _).mapErr sourceError
  return output

/-- The states that calls leave behind, whatever the sinks of the visits do. -/
inductive Reached (opened : σ) : σ → Prop where
  | opened : Reached opened opened
  | visited {state : σ} (hstate : Reached opened state) {α φ : Type} (name : String)
      (maxChunkBytes : ℕ) (visit : α → List UInt8 → Outcome φ α) (value : α) :
      Reached opened (reader.tryVisitTensorBytes source name maxChunkBytes visit value state).2
  | widened {state : σ} (hstate : Reached opened state) {α φ : Type} (name : String)
      (maxChunkBytes : ℕ) (visit : α → List UInt8 → Outcome φ α) (value : α) :
      Reached opened
        (reader.tryTensorF32WithRawChunks source widen name maxChunkBytes visit value state).2

end SafeTensorsReader

end Source

end Tritium.Safetensors
