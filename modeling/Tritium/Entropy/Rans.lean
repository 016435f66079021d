import Tritium.Entropy.Types
import Tritium.Lib.Ordering

/-!
# Byte rANS

The frequencies of a chunk scaled to 4096 slots, the encoder that folds the bytes into one integer
from the last to the first, and the decoder that takes them out again.
-/

namespace Tritium.Entropy

/-- The scaled frequencies so far: one for the symbol being there and its rounded down share, with
the remainders of the divisions and the sum of what was assigned. -/
structure Apportionment where
  frequencies : List ℕ
  remainders : List (ℕ × ℕ)
  assigned : ℕ

def Apportionment.assign (available length : ℕ) (current : Apportionment) (entry : ℕ × ℕ) :
    Outcome EntropyTransportError Apportionment :=
  let (count, symbol) := entry
  if count = 0 then
    .ok current
  else do
    let scaled ← okOr (checkedMul 64 available count) .lengthOverflow
    let share ← Outcome.div scaled length
    let remainder ← Outcome.rem scaled length
    let frequency ← okOr (tryInto 16 (1 + share)) .invalidRansTable
    let frequencies ← setIndex current.frequencies symbol frequency
    let assigned ← Outcome.add 64 current.assigned share
    return { frequencies, remainders := current.remainders ++ [(remainder, symbol)], assigned }

/-- The largest remainder first, ties by symbol. -/
def compareRemainders (left right : ℕ × ℕ) : Ordering :=
  (compare right.1 left.1).then (compare left.2 right.2)

def addLeftover (frequencies : List ℕ) (entry : ℕ × ℕ) :
    Outcome EntropyTransportError (List ℕ) := do
  let frequency ← Outcome.index frequencies entry.2
  let frequency ← okOr (checkedAdd 16 frequency 1) .invalidRansTable
  setIndex frequencies entry.2 frequency

def normalizedFrequencies (bytes : List UInt8) : Outcome EntropyTransportError (List ℕ) := do
  let counts ← countBytes (fun count => okOr (checkedAdd 64 count 1) .lengthOverflow) bytes
  let present := counts.countP fun count => count ≠ 0
  if present = 0 ∨ ransTotal < present then
    .err .invalidRansTable
  else do
    let available ← Outcome.sub ransTotal present
    let length ← okOr (tryInto 64 bytes.length) .lengthOverflow
    let shares ← counts.zipIdx.foldlM (Apportionment.assign available length)
      { frequencies := List.replicate 256 0, remainders := [], assigned := present }
    let remaining ← Outcome.sub ransTotal shares.assigned
    ((sortBy compareRemainders shares.remainders).take remaining).foldlM addLeftover
      shares.frequencies

/-- The running sums of the frequencies, and their total. -/
def cumulativeFrequencies (frequencies : List ℕ) : Outcome EntropyTransportError (List ℕ × ℕ) :=
  frequencies.foldlM
    (fun (current : List ℕ × ℕ) frequency => do
      let total ← okOr (checkedAdd 32 current.2 frequency) .lengthOverflow
      return (current.1 ++ [current.2], total))
    ([], 0)

/-- The `while` loop that moves the low bytes of the state out while the state is at or above
`maximum`. A `u32` is zero after four turns, so a fifth one means that the loop never ends. -/
def drain (maximum : ℕ) : ℕ → ℕ → List UInt8 → Outcome EntropyTransportError (ℕ × List UInt8)
  | 0, _, _ => .panic
  | turns + 1, state, renormalized =>
    if maximum ≤ state then
      drain maximum turns (state >>> 8) (renormalized ++ [UInt8.ofNat state])
    else
      .ok (state, renormalized)

def putSymbol (frequencies cumulative : List ℕ) (current : ℕ × List UInt8) (byte : UInt8) :
    Outcome EntropyTransportError (ℕ × List UInt8) := do
  let frequency ← Outcome.index frequencies byte.toNat
  let maximum ← okOr
    (checkedMul 32 ((ransLowerBound >>> ransScaleBits) <<< 8) frequency) .lengthOverflow
  let (state, renormalized) ← drain maximum 5 current.1 current.2
  let quotient ← Outcome.div state frequency
  let remainder ← Outcome.rem state frequency
  let start ← Outcome.index cumulative byte.toNat
  let state ← Outcome.add 32 ((quotient <<< ransScaleBits) % 2 ^ 32) remainder
  let state ← Outcome.add 32 state start
  return (state, renormalized)

def encodeRans (bytes : List UInt8) : Outcome EntropyTransportError (List UInt8) := do
  let frequencies ← normalizedFrequencies bytes
  let (cumulative, total) ← cumulativeFrequencies frequencies
  if total ≠ ransTotal then
    .err .invalidRansTable
  else do
    let (state, renormalized) ←
      bytes.reverse.foldlM (putSymbol frequencies cumulative) (ransLowerBound, [])
    return frequencies.flatMap (leBytes 2) ++ leBytes 4 state ++ renormalized.reverse

/-- The `u16::MAX` that marks a slot no symbol owns. -/
def unownedSlot : ℕ := 2 ^ 16 - 1

structure RansTable where
  frequencies : List ℕ
  cumulative : List ℕ
  lookup : List ℕ
  total : ℕ

def fillSlots (lookup : List ℕ) (symbol start stop : ℕ) : Outcome EntropyTransportError (List ℕ) :=
  (List.range' start (stop - start)).foldlM
    (fun lookup slot => setIndex lookup slot symbol) lookup

def RansTable.readSymbol (payload : List UInt8) (table : RansTable) (symbol : ℕ) :
    Outcome EntropyTransportError RansTable := do
  let offset := symbol * 2
  let low ← Outcome.index payload offset
  let high ← Outcome.index payload (offset + 1)
  let frequency := ofLeBytes [low, high]
  let stop ← okOr (checkedAdd 32 table.total frequency) .invalidRansTable
  if ransTotal < stop then
    .err .invalidRansTable
  else do
    let lookup ← fillSlots table.lookup symbol table.total stop
    return {
      frequencies := table.frequencies ++ [frequency]
      cumulative := table.cumulative ++ [table.total]
      lookup
      total := stop }

def readRansTable (payload : List UInt8) : Outcome EntropyTransportError RansTable := do
  let table ← (List.range 256).foldlM (RansTable.readSymbol payload)
    { frequencies := [], cumulative := [], lookup := List.replicate ransTotal unownedSlot,
      total := 0 }
  if table.total ≠ ransTotal ∨ unownedSlot ∈ table.lookup then
    .err .invalidRansTable
  else
    return table

/-- Reads bytes into the state until it is back at the lower bound. -/
def refill : ℕ → List UInt8 → Outcome EntropyTransportError (ℕ × List UInt8)
  | state, [] => if state < ransLowerBound then .err .invalidRansStream else .ok (state, [])
  | state, byte :: stream =>
    if state < ransLowerBound then
      refill ((state <<< 8) % 2 ^ 32 ||| byte.toNat) stream
    else
      .ok (state, byte :: stream)

def takeSymbol (table : RansTable) (state : ℕ) (stream : List UInt8) :
    Outcome EntropyTransportError (UInt8 × ℕ × List UInt8) := do
  let slot := state &&& (ransTotal - 1)
  let symbol ← Outcome.index table.lookup slot
  let frequency ← Outcome.index table.frequencies symbol
  if frequency = 0 then
    .err .invalidRansStream
  else do
    let product ← Outcome.mul 32 frequency (state >>> ransScaleBits)
    let shifted ← Outcome.add 32 product slot
    let start ← Outcome.index table.cumulative symbol
    let state ← Outcome.sub shifted start
    let (state, stream) ← refill state stream
    return (UInt8.ofNat symbol, state, stream)

def takeSymbols (table : RansTable) :
    ℕ → ℕ → List UInt8 → Outcome EntropyTransportError (List UInt8 × ℕ × List UInt8)
  | 0, state, stream => .ok ([], state, stream)
  | count + 1, state, stream => do
    let (symbol, state, stream) ← takeSymbol table state stream
    let (decoded, state, stream) ← takeSymbols table count state stream
    return (symbol :: decoded, state, stream)

def decodeRans (payload : List UInt8) (expectedLen : ℕ) :
    Outcome EntropyTransportError (List UInt8) := do
  let stateOffset := ransModelBytes
  let streamOffset := stateOffset + 4
  if payload.length < streamOffset then
    .err .invalidRansStream
  else do
    let table ← readRansTable payload
    let stateBytes ← slice payload stateOffset streamOffset
    let state := ofLeBytes stateBytes
    if state < ransLowerBound then
      .err .invalidRansStream
    else do
      let stream ← slice payload streamOffset payload.length
      let (decoded, state, stream) ← takeSymbols table expectedLen state stream
      if stream ≠ [] ∨ state ≠ ransLowerBound then
        .err .invalidRansStream
      else
        return decoded

end Tritium.Entropy
