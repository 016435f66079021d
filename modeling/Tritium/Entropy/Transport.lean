import Tritium.Entropy.Huffman
import Tritium.Entropy.Rans
import Tritium.Lib.Stateful
import Mathlib.Algebra.Order.Floor.Div

/-!
# The seekable transport

A fixed header, a fixed-width index entry for every chunk, and the payloads of the chunks one behind
the other. The content digest is a parameter. One reader holds the whole transport in memory, the
other reads what it needs from a seekable source.
-/

namespace Tritium.Entropy

/-- `usize::trailing_zeros`. -/
def trailingZeros (value : ℕ) : ℕ := ((List.range 64).find? fun bit => value.testBit bit).getD 64

/-- `slice::chunks`: consecutive pieces of the given size, the last one possibly shorter. -/
def chunks (bytes : List UInt8) (chunkSize : ℕ) : List (List UInt8) :=
  (List.range (bytes.length ⌈/⌉ chunkSize)).map fun index =>
    (bytes.drop (index * chunkSize)).take chunkSize

def validateChunkSize (chunkSize : ℕ) : Outcome EntropyTransportError Unit :=
  if ¬(entropyTransportMinChunkBytes ≤ chunkSize ∧ chunkSize ≤ entropyTransportMaxChunkBytes) ∨
      isPowerOfTwo chunkSize = false then
    .err (.invalidChunkSize chunkSize)
  else
    .ok ()

def encodeChunk (bytes : List UInt8) :
    Outcome EntropyTransportError (EntropyTransportChunkCodec × List UInt8) :=
  if bytes = [] then
    .err (.invalidChunkSize 0)
  else do
    let best := (EntropyTransportChunkCodec.raw, bytes)
    let huffman ← encodeHuffman bytes
    let best := if huffman.length < best.2.length then (.huffman, huffman) else best
    let rans ← encodeRans bytes
    return if rans.length < best.2.length then (.rans, rans) else best

def decodePayload (codec : EntropyTransportChunkCodec) (payload : List UInt8) (logicalLen : ℕ) :
    Outcome EntropyTransportError (List UInt8) :=
  match codec with
  | .raw => if payload.length ≠ logicalLen then .err .decodedLengthMismatch else .ok payload
  | .huffman => decodeHuffman payload logicalLen
  | .rans => decodeRans payload logicalLen

def decodeChunk (digest : List UInt8 → Digest) (info : EntropyChunkInfo)
    (codec : EntropyTransportChunkCodec) (payload : List UInt8) :
    Outcome EntropyTransportError (List UInt8) := do
  let decoded ← decodePayload codec payload info.logicalLen
  if digest decoded ≠ info.digest then
    .err .digestMismatch
  else
    return decoded

structure TransportWriter where
  infos : List EntropyChunkInfo
  codecs : List EntropyTransportChunkCodec
  encodedChunks : List (List UInt8)
  payloadLen : ℕ

def TransportWriter.add (digest : List UInt8 → Digest) (chunkSize payloadStart : ℕ)
    (writer : TransportWriter) (entry : List UInt8 × ℕ) :
    Outcome EntropyTransportError TransportWriter := do
  let (logical, index) := entry
  let (codec, payload) ← encodeChunk logical
  let payloadOffset ← okOr (checkedAdd 64 payloadStart writer.payloadLen) .lengthOverflow
  let payloadLen ← okOr (checkedAdd 64 writer.payloadLen payload.length) .lengthOverflow
  let logicalOffset ← okOr (checkedMul 64 index chunkSize) .lengthOverflow
  let logicalLen ← okOr (tryInto 32 logical.length) .lengthOverflow
  let chunkPayloadLen ← okOr (tryInto 32 payload.length) .lengthOverflow
  return {
    infos := writer.infos ++ [{
      logicalOffset, payloadOffset, logicalLen
      payloadLen := chunkPayloadLen
      huffman := codec = .huffman
      digest := digest logical }]
    codecs := writer.codecs ++ [codec]
    encodedChunks := writer.encodedChunks ++ [payload]
    payloadLen }

def modeByte : EntropyTransportChunkCodec → UInt8
  | .raw => modeRaw
  | .huffman => modeHuffman
  | .rans => modeRans

def headerFields (chunkSize logicalLen chunkCount indexBytes : ℕ) : List UInt8 :=
  entropyTransportMagic ++ [entropyTransportVersion, 0, UInt8.ofNat (trailingZeros chunkSize), 0] ++
    leBytes 8 logicalLen ++ leBytes 4 chunkCount ++ leBytes 8 headerBytes ++ leBytes 8 indexBytes

def entryFields (info : EntropyChunkInfo) (codec : EntropyTransportChunkCodec) : List UInt8 :=
  leBytes 8 info.logicalOffset ++ leBytes 8 info.payloadOffset ++ leBytes 4 info.logicalLen ++
    leBytes 4 info.payloadLen ++ [modeByte codec, 0, 0, 0] ++ info.digest.bytes

def writeEntropyTransportWithChunkSize (digest : List UInt8 → Digest) (bytes : List UInt8)
    (chunkSize : ℕ) : Outcome EntropyTransportError (List UInt8) := do
  validateChunkSize chunkSize
  let chunkCount := bytes.length ⌈/⌉ chunkSize
  let indexBytes ← okOr (checkedMul 64 chunkCount indexEntryBytes) .lengthOverflow
  let payloadStart ← okOr (checkedAdd 64 headerBytes indexBytes) .lengthOverflow
  let writer ← (chunks bytes chunkSize).zipIdx.foldlM
    (TransportWriter.add digest chunkSize payloadStart)
    { infos := [], codecs := [], encodedChunks := [], payloadLen := 0 }
  let _ ← Outcome.add 64 payloadStart writer.payloadLen
  let logicalLen ← okOr (tryInto 64 bytes.length) .lengthOverflow
  let chunkCount ← okOr (tryInto 32 chunkCount) .lengthOverflow
  return headerFields chunkSize logicalLen chunkCount indexBytes ++
    (writer.infos.zip writer.codecs).flatMap (fun entry => entryFields entry.1 entry.2) ++
    writer.encodedChunks.flatten

def readField (width : ℕ) (bytes : List UInt8) (offset : ℕ) : Outcome EntropyTransportError ℕ := do
  let stop ← okOr (checkedAdd 64 offset width) .lengthOverflow
  let field ← okOr (subslice bytes offset stop) .truncated
  return ofLeBytes field

def readU32 (bytes : List UInt8) (offset : ℕ) : Outcome EntropyTransportError ℕ :=
  readField 4 bytes offset

def readU64 (bytes : List UInt8) (offset : ℕ) : Outcome EntropyTransportError ℕ :=
  readField 8 bytes offset

structure TransportMetadata where
  logicalLen : ℕ
  chunkSize : ℕ
  chunks : List EntropyChunkInfo
  codecs : List EntropyTransportChunkCodec
deriving DecidableEq, Repr

/-- The header fields, as far as the index depends on them. -/
structure TransportHeader where
  version : UInt8
  chunkSize : ℕ
  logicalLen : ℕ
  chunkCount : ℕ
  indexOffset : ℕ
  indexBytes : ℕ
deriving DecidableEq, Repr

def parseHeader (bytes : List UInt8) : Outcome EntropyTransportError TransportHeader :=
  if bytes.length < headerBytes ∨ bytes.take 4 ≠ entropyTransportMagic then
    .err .badMagic
  else do
    let version ← Outcome.index bytes 4
    if ¬(1 ≤ version ∧ version ≤ entropyTransportVersion) then
      .err (.unsupportedVersion version)
    else do
      let flags ← Outcome.index bytes 5
      let reserved ← Outcome.index bytes 7
      if flags ≠ 0 ∨ reserved ≠ 0 then
        .err .nonZeroReserved
      else do
        let chunkLog2 ← Outcome.index bytes 6
        if 64 ≤ chunkLog2 then
          .err (.invalidChunkSize (2 ^ 64 - 1))
        else do
          let chunkSize := 1 <<< chunkLog2.toNat
          validateChunkSize chunkSize
          let logicalLen ← readU64 bytes 8
          let chunkCount ← readU32 bytes 16
          let indexOffset ← readU64 bytes 20
          let indexBytes ← readU64 bytes 28
          return { version, chunkSize, logicalLen, chunkCount, indexOffset, indexBytes }

structure EntryCursor where
  chunks : List EntropyChunkInfo
  codecs : List EntropyTransportChunkCodec
  logicalCursor : ℕ
  payloadCursor : ℕ

def codecOfMode (mode : UInt8) : Outcome EntropyTransportError EntropyTransportChunkCodec :=
  if mode = modeRaw then .ok .raw
  else if mode = modeHuffman then .ok .huffman
  else if mode = modeRans then .ok .rans
  else .err (.unknownMode mode)

def parseDigest (bytes : List UInt8) : Outcome EntropyTransportError Digest :=
  if hlength : bytes.length = 32 then .ok ⟨bytes, hlength⟩ else .err .truncated

def parseEntry (bytes : List UInt8) (sourceLen : ℕ) (header : TransportHeader)
    (cursor : EntryCursor) (index : ℕ) : Outcome EntropyTransportError EntryCursor := do
  let entry := header.indexOffset + index * indexEntryBytes
  let logicalOffset ← readU64 bytes entry
  let payloadOffset ← readU64 bytes (entry + 8)
  let logicalChunkLen ← readU32 bytes (entry + 16)
  let payloadLen ← readU32 bytes (entry + 20)
  let mode ← okOr bytes[entry + 24]? .truncated
  if subslice bytes (entry + 25) (entry + 28) ≠ some [0, 0, 0] then
    .err .nonZeroReserved
  else do
    let digestBytes ← okOr (subslice bytes (entry + 28) (entry + indexEntryBytes)) .truncated
    let digest ← parseDigest digestBytes
    let rest ← okOr (checkedSub header.logicalLen cursor.logicalCursor) .nonCanonicalIndex
    let unknown := modeRans < mode ∨ header.version = 1 ∧ mode = modeRans
    if logicalOffset ≠ cursor.logicalCursor ∨ logicalChunkLen ≠ min rest header.chunkSize ∨
        payloadOffset ≠ cursor.payloadCursor ∨ unknown then
      .err (if unknown then .unknownMode mode else .nonCanonicalIndex)
    else do
      let payloadEnd ← okOr (checkedAdd 64 payloadOffset payloadLen) .lengthOverflow
      if sourceLen < payloadEnd then
        .err .truncated
      else do
        let logicalCursor ←
          okOr (checkedAdd 64 cursor.logicalCursor logicalChunkLen) .lengthOverflow
        let codec ← codecOfMode mode
        return {
          chunks := cursor.chunks ++ [{
            logicalOffset, payloadOffset, payloadLen, digest
            logicalLen := logicalChunkLen
            huffman := mode = modeHuffman }]
          codecs := cursor.codecs ++ [codec]
          logicalCursor
          payloadCursor := payloadEnd }

def parseTransportMetadata (bytes : List UInt8) (sourceLen : ℕ) :
    Outcome EntropyTransportError TransportMetadata := do
  let header ← parseHeader bytes
  let expectedIndexBytes ←
    okOr (checkedMul 64 header.chunkCount indexEntryBytes) .lengthOverflow
  if header.indexOffset ≠ headerBytes ∨ header.indexBytes ≠ expectedIndexBytes then
    .err .nonCanonicalIndex
  else do
    let payloadStart ←
      okOr (checkedAdd 64 header.indexOffset header.indexBytes) .lengthOverflow
    if bytes.length < payloadStart then
      .err .nonCanonicalIndex
    else if header.chunkCount ≠ header.logicalLen ⌈/⌉ header.chunkSize then
      .err .nonCanonicalIndex
    else do
      let cursor ← (List.range header.chunkCount).foldlM (parseEntry bytes sourceLen header)
        { chunks := [], codecs := [], logicalCursor := 0, payloadCursor := payloadStart }
      if cursor.logicalCursor ≠ header.logicalLen ∨ cursor.payloadCursor ≠ sourceLen then
        .err .nonCanonicalIndex
      else
        return {
          logicalLen := header.logicalLen
          chunkSize := header.chunkSize
          chunks := cursor.chunks
          codecs := cursor.codecs }

def TransportMetadata.chunkInfo (metadata : TransportMetadata) (index : ℕ) :
    Outcome EntropyTransportError EntropyChunkInfo :=
  .okOr metadata.chunks[index]? (.chunkOutOfRange index)

/-- The part of a chunk that lies in the requested range. -/
def chunkPart (chunkSize offset stop index : ℕ) (chunk : List UInt8) :
    Outcome EntropyTransportError (List UInt8) := do
  let chunkStart := index * chunkSize
  let first := offset - chunkStart
  let span ← Outcome.sub stop chunkStart
  slice chunk first (min span chunk.length)

/-- `read_range` of both readers, over the way a reader reads one chunk. -/
def readRangeWith {m : Type → Type} [Monad m]
    (lift : ∀ {α : Type}, Outcome EntropyTransportError α → m α)
    (readChunk : ℕ → m (List UInt8)) (logicalLen chunkSize offset len : ℕ) : m (List UInt8) := do
  let stop ← lift (.okOr (checkedAdd 64 offset len) .rangeOutOfRange)
  if logicalLen < stop then
    lift (.err .rangeOutOfRange)
  else if len = 0 then
    lift (.ok [])
  else
    let first := offset / chunkSize
    let last := (stop - 1) / chunkSize
    (List.range' first (last + 1 - first)).foldlM
      (fun out index => do
        let chunk ← readChunk index
        let part ← lift (chunkPart chunkSize offset stop index chunk)
        pure (out ++ part))
      []

/-! ### The reader in memory -/

structure EntropyTransport extends TransportMetadata where
  bytes : List UInt8
deriving DecidableEq, Repr

def readEntropyTransport (bytes : List UInt8) :
    Outcome EntropyTransportError EntropyTransport := do
  let sourceLen ← okOr (tryInto 64 bytes.length) .lengthOverflow
  let metadata ← parseTransportMetadata bytes sourceLen
  return { metadata with bytes }

namespace EntropyTransport

variable (digest : List UInt8 → Digest) (transport : EntropyTransport)

def readChunk (index : ℕ) : Outcome EntropyTransportError (List UInt8) := do
  let info ← transport.chunkInfo index
  let stop ← okOr (checkedAdd 64 info.payloadOffset info.payloadLen) .lengthOverflow
  let payload ← okOr (subslice transport.bytes info.payloadOffset stop) .truncated
  let codec ← Outcome.index transport.codecs index
  decodeChunk digest info codec payload

def readRange (offset len : ℕ) : Outcome EntropyTransportError (List UInt8) :=
  readRangeWith id (transport.readChunk digest) transport.logicalLen transport.chunkSize offset len

def readAll : Outcome EntropyTransportError (List UInt8) :=
  transport.readRange digest 0 transport.logicalLen

end EntropyTransport

/-! ### The seekable reader -/

structure Source where
  content : List UInt8
  position : ℕ
deriving DecidableEq, Repr

namespace Source

/-- `seek(SeekFrom::End(0))`, with the length it returns. -/
def seekEnd : Stateful Source EntropyTransportError ℕ := fun source =>
  (.okOr (tryInto 64 source.content.length) .truncated,
    { source with position := source.content.length })

def seekStart (position : ℕ) : Stateful Source EntropyTransportError Unit := fun source =>
  (.ok (), { source with position })

/-- `read_exact`: the next `count` bytes, or an error that leaves the source at its end. -/
def readExact (count : ℕ) : Stateful Source EntropyTransportError (List UInt8) := fun source =>
  if count = 0 ∨ source.position + count ≤ source.content.length then
    (.ok ((source.content.drop source.position).take count),
      { source with position := source.position + count })
  else
    (.err .truncated, { source with position := source.content.length })

end Source

structure SeekableEntropyTransport extends TransportMetadata where
  source : Source
deriving DecidableEq, Repr

/-- The index behind the header, once its declared length is known to lie in the source. -/
def readSourceIndex (sourceLen : ℕ) (header : List UInt8) (indexBytes : ℕ) :
    Stateful Source EntropyTransportError TransportMetadata := do
  let indexEnd ← lift (.okOr (checkedAdd 64 headerBytes indexBytes) .lengthOverflow)
  if sourceLen < indexEnd then
    lift (.err .nonCanonicalIndex)
  else do
    let index ← Source.readExact indexBytes
    lift (parseTransportMetadata (header ++ index) sourceLen)

/-- The header and the index, read from the start of the source. -/
def readSourceMetadata : Stateful Source EntropyTransportError TransportMetadata := do
  let sourceLen ← Source.seekEnd
  Source.seekStart 0
  let header ← Source.readExact headerBytes
  let indexBytes ← lift (readU64 header 28)
  readSourceIndex sourceLen header indexBytes

def readEntropyTransportSeekable (source : Source) :
    Outcome EntropyTransportError SeekableEntropyTransport :=
  match readSourceMetadata source with
  | (.ok metadata, source) => .ok { metadata with source }
  | (.err error, _) => .err error
  | (.panic, _) => .panic

namespace SeekableEntropyTransport

variable (digest : List UInt8 → Digest)

def readChunkPayload (metadata : TransportMetadata) (index : ℕ) :
    Stateful Source EntropyTransportError (List UInt8) := do
  let info ← lift (metadata.chunkInfo index)
  Source.seekStart info.payloadOffset
  let payload ← Source.readExact info.payloadLen
  let codec ← lift (Outcome.index metadata.codecs index)
  lift (decodeChunk digest info codec payload)

def onSource {α : Type} (call : Stateful Source EntropyTransportError α) :
    Stateful SeekableEntropyTransport EntropyTransportError α := fun transport =>
  let (result, source) := call transport.source
  (result, { transport with source })

def readChunk (index : ℕ) :
    Stateful SeekableEntropyTransport EntropyTransportError (List UInt8) := fun transport =>
  onSource (readChunkPayload digest transport.toTransportMetadata index) transport

def readRange (offset len : ℕ) :
    Stateful SeekableEntropyTransport EntropyTransportError (List UInt8) := fun transport =>
  readRangeWith lift (readChunk digest) transport.logicalLen transport.chunkSize offset len
    transport

end SeekableEntropyTransport

end Tritium.Entropy
