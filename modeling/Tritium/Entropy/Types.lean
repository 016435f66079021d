import Tritium.Lib.Bytes
import Tritium.Lib.Machine

/-!
# Entropy transport

The constants, chunk codecs, index entries and errors of the seekable entropy transport, and the
byte statistics its two entropy coders start from.
-/

namespace Tritium.Entropy

/-- The file magic, `TRNS`. -/
def entropyTransportMagic : List UInt8 := [0x54, 0x52, 0x4E, 0x53]

def entropyTransportVersion : UInt8 := 2
def entropyTransportMinChunkBytes : ℕ := 64
def entropyTransportMaxChunkBytes : ℕ := 1 <<< 20
def headerBytes : ℕ := 36
def indexEntryBytes : ℕ := 60
def modeRaw : UInt8 := 0
def modeHuffman : UInt8 := 1
def modeRans : UInt8 := 2
def ransScaleBits : ℕ := 12
def ransTotal : ℕ := 1 <<< ransScaleBits
def ransLowerBound : ℕ := 1 <<< 23
def ransModelBytes : ℕ := 256 * 2

inductive EntropyTransportChunkCodec where
  | raw
  | huffman
  | rans
deriving DecidableEq, Repr

/-- The 32 bytes of a content digest. -/
structure Digest where
  bytes : List UInt8
  length_eq : bytes.length = 32
deriving DecidableEq, Repr

structure EntropyChunkInfo where
  logicalOffset : ℕ
  payloadOffset : ℕ
  logicalLen : ℕ
  payloadLen : ℕ
  huffman : Bool
  digest : Digest
deriving DecidableEq, Repr

inductive EntropyTransportError where
  | badMagic
  | unsupportedVersion (version : UInt8)
  | nonZeroReserved
  | invalidChunkSize (chunkSize : ℕ)
  | lengthOverflow
  | truncated
  | nonCanonicalIndex
  | unknownMode (mode : UInt8)
  | invalidHuffmanTable
  | invalidHuffmanStream
  | invalidRansTable
  | invalidRansStream
  | decodedLengthMismatch
  | digestMismatch
  | chunkOutOfRange (chunk : ℕ)
  | rangeOutOfRange
deriving DecidableEq, Repr

/-- Counts every byte value, with the coder's own way to count one more. -/
def countBytes (increment : ℕ → Outcome EntropyTransportError ℕ) (bytes : List UInt8) :
    Outcome EntropyTransportError (List ℕ) :=
  bytes.foldlM
    (fun counts byte => do
      let count ← Outcome.index counts byte.toNat
      let count ← increment count
      setIndex counts byte.toNat count)
    (List.replicate 256 0)

end Tritium.Entropy
