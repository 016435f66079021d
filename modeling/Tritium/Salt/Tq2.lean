import Tritium.Lib.Bytes
import Tritium.Lib.Machine

/-!
# TQ2_0 blocks and rows

A block is 256 trits of two bits each, four to a byte, and a scale of 16 bits. A scale is its bits
here: nothing looks into the float. A row is as many blocks as its trits need, the last one filled
up with zeros.
-/

namespace Tritium.Salt

def qkK : ℕ := 256

def tq20BlockBytes : ℕ := qkK / 4 + 2

inductive FormatError where
  | wrongTritCount (expected got : ℕ)
  | wrongBlockLen (expected got : ℕ)
  | decodedOutOfRange (value : ℤ)
  | saltBadMagic
  | saltInvalidTensorName
  | saltDuplicateTensor (name : String)
  | unsupportedSaltVersion (version : ℕ)
  | saltTooManyPlanes (planes : ℕ)
  | saltRowTooLong (k : ℕ)
  | saltInvalidPlaneTag (tag : ℕ)
  | saltSparseBasePlane
  | invalidSparseDensity
  | saltNonCanonicalSparseIndices
  | saltNonZeroPadding
deriving DecidableEq, Repr

inductive Trit where
  | neg
  | zero
  | pos
deriving DecidableEq, Repr

namespace Trit

def get : Trit → ℤ
  | neg => -1
  | zero => 0
  | pos => 1

def fromI8 (value : ℤ) : Outcome FormatError Trit :=
  if value = -1 then .ok neg
  else if value = 0 then .ok zero
  else if value = 1 then .ok pos
  else .err (.decodedOutOfRange value)

end Trit

def qsBytes : ℕ := qkK / 4

/-- Adds the trit of one of the four places of a byte. -/
def packPlace (trits : List Trit) (position q place : ℕ) : Outcome FormatError ℕ := do
  let trit ← Outcome.index trits (position / 32 * 128 + place * 32 + position % 32)
  return q ||| (((trit.get + 1).toNat &&& 3) <<< (2 * place))

/-- The byte `c * 32 + m` holds the trits `c * 128 + n * 32 + m`. -/
def packByte (trits : List Trit) (position : ℕ) : Outcome FormatError UInt8 := do
  let q ← (List.range 4).foldlM (packPlace trits position) 0
  return UInt8.ofNat q

/-- Overwrites the whole of a block. -/
def packTq20Block (trits : List Trit) (scale : ℕ) (out : List UInt8) :
    Outcome FormatError (List UInt8) :=
  if trits.length ≠ qkK then
    .err (.wrongTritCount qkK trits.length)
  else if out.length ≠ tq20BlockBytes then
    .err (.wrongBlockLen tq20BlockBytes out.length)
  else do
    let qs ← (List.range qsBytes).mapM (packByte trits)
    return qs ++ leBytes 2 scale

def unpackTrit (block : List UInt8) (position : ℕ) : Outcome FormatError Trit := do
  let qs ← slice block 0 qsBytes
  let byte ← Outcome.index qs (position / 128 * 32 + position % 32)
  Trit.fromI8 (((byte.toNat >>> (2 * (position % 128 / 32)) &&& 3 : ℕ) : ℤ) - 1)

/-- Fills a buffer of the given number of trits, and returns the scale with it. -/
def unpackTq20Block (block : List UInt8) (slots : ℕ) : Outcome FormatError (List Trit × ℕ) :=
  if block.length ≠ tq20BlockBytes then
    .err (.wrongBlockLen tq20BlockBytes block.length)
  else if slots ≠ qkK then
    .err (.wrongTritCount qkK slots)
  else do
    let trits ← (List.range qkK).mapM (unpackTrit block)
    return (trits, ofLeBytes (block.drop (block.length - 2)))

def numBlocks (k : ℕ) : ℕ := (k + qkK - 1) / qkK

def checkRow (k scales outLen blockBytes : ℕ) : Outcome FormatError Unit :=
  if scales ≠ numBlocks k then
    .err (.wrongBlockLen (numBlocks k) scales)
  else if outLen ≠ numBlocks k * blockBytes then
    .err (.wrongBlockLen (numBlocks k * blockBytes) outLen)
  else
    .ok ()

/-- Packs one block of a row into its place; the tail of the last block is filled up with zeros. -/
def packRowBlock (trits : List Trit) (out : List UInt8) (entry : ℕ × ℕ) :
    Outcome FormatError (List UInt8) := do
  let start := entry.2 * qkK
  let stop := min (start + qkK) trits.length
  let count ← Outcome.sub stop start
  let part ← slice trits start stop
  let place ← slice out (entry.2 * tq20BlockBytes)
    (entry.2 * tq20BlockBytes + tq20BlockBytes)
  packTq20Block (part ++ List.replicate (qkK - count) .zero) entry.1 place

/-- Overwrites the whole of a row. -/
def packTq20Row (trits : List Trit) (scales : List ℕ) (out : List UInt8) :
    Outcome FormatError (List UInt8) := do
  checkRow trits.length scales.length out.length tq20BlockBytes
  let blocks ← scales.zipIdx.mapM (packRowBlock trits out)
  return blocks.flatten

def unpackRowBlock (packed : List UInt8) (slots index : ℕ) :
    Outcome FormatError (List Trit × ℕ) := do
  let bytes ← slice packed (index * tq20BlockBytes)
    (index * tq20BlockBytes + tq20BlockBytes)
  let (block, scale) ← unpackTq20Block bytes qkK
  let count ← Outcome.sub (min (index * qkK + qkK) slots) (index * qkK)
  return (block.take count, scale)

/-- Fills buffers of the given numbers of trits and scales. -/
def unpackTq20Row (packed : List UInt8) (slots scaleSlots : ℕ) :
    Outcome FormatError (List Trit × List ℕ) := do
  checkRow slots scaleSlots packed.length tq20BlockBytes
  let blocks ← (List.range scaleSlots).mapM (unpackRowBlock packed slots)
  return (blocks.flatMap Prod.fst, blocks.map Prod.snd)

end Tritium.Salt
