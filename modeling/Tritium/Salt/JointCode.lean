import Tritium.Lib.Machine
import Tritium.Lib.Ordering
import Tritium.Lib.WriteAll

/-!
# Canonical Huffman over joint symbols

The trits of one weight across the planes are one symbol of an alphabet of `3 ^ t`. Its code is
canonical and limited to 15 bits, the decoder looks code words up in one flat table, and a bit
offset is recorded for every block of symbols.
-/

namespace Tritium.Salt

def maxCodeLen : ℕ := 15

def maxJointPlanes : ℕ := 9

inductive JointCodeError where
  | unsupportedPlanes (t : ℕ)
  | alphabetSize (expected got : ℕ)
  | symbolOutOfRange (symbol alphabet : ℕ)
  | badTrit (trit : ℤ)
  | planeShape
  | uncodedSymbol (symbol : ℕ)
  | corruptStream
  | badBlock
  | tooManySymbols (live capacity : ℕ)
deriving DecidableEq, Repr

def alphabet (t : ℕ) : Outcome JointCodeError ℕ :=
  if t = 0 ∨ maxJointPlanes < t then .err (.unsupportedPlanes t) else .ok (3 ^ t)

def jointDigit (position symbol : ℕ) (plane : List ℤ) : Outcome JointCodeError ℕ := do
  let trit ← Outcome.index plane position
  if trit < -1 ∨ 1 < trit then .err (.badTrit trit) else return symbol * 3 + (trit + 1).toNat

/-- The symbol of one weight; the first plane is the most significant one. -/
def jointSymbol (planes : List (List ℤ)) (position : ℕ) : Outcome JointCodeError ℕ := do
  let symbol ← planes.foldlM (jointDigit position) 0
  return symbol % 2 ^ 16

def jointSymbols (planes : List (List ℤ)) : Outcome JointCodeError (List ℕ) := do
  let _ ← alphabet planes.length
  let first ← okOr planes.head? .planeShape
  if planes.any (fun plane => plane.length ≠ first.length) then
    .err .planeShape
  else
    (List.range first.length).mapM (jointSymbol planes)

/-- The trits of a symbol, the first plane first. -/
def symbolTrits : ℕ → ℕ → List ℤ
  | 0, _ => []
  | t + 1, symbol => symbolTrits t (symbol / 3) ++ [((symbol % 3 : ℕ) : ℤ) - 1]

def planesFromSymbols (symbols : List ℕ) (t : ℕ) : Outcome JointCodeError (List (List ℤ)) := do
  let size ← alphabet t
  let columns ← symbols.mapM fun symbol =>
    if size ≤ symbol then .err (.symbolOutOfRange symbol size) else .ok (symbolTrits t symbol)
  return (List.range t).map fun plane => columns.map fun trits => trits.getD plane 0

def comparePairs (left right : ℕ × ℕ) : Ordering :=
  (compare left.1 right.1).then (compare left.2 right.2)

/-- `BinaryHeap::pop` on reversed pairs: the least pair, and the heap without it. -/
def heapPop (heap : List (ℕ × ℕ)) : Option ((ℕ × ℕ) × List (ℕ × ℕ)) :=
  (minBy comparePairs heap).map fun top => (top, heap.erase top)

/-- The leaves come first, the inner nodes are appended. A root has no parent. -/
structure Merging where
  weight : List ℕ
  parent : List (Option ℕ)
  heap : List (ℕ × ℕ)

def Merging.step (state : Merging) : Outcome JointCodeError Merging := do
  let (first, heap) ← expect (heapPop state.heap)
  let (second, heap) ← expect (heapPop heap)
  let id := state.weight.length
  let weight ← Outcome.add 64 first.1 second.1
  let parent ← setIndex (state.parent ++ [none]) first.2 (some id)
  let parent ← setIndex parent second.2 (some id)
  return ⟨state.weight ++ [weight], parent, heap ++ [(weight, id)]⟩

/-- `while heap.len() > 1`; a step removes two nodes and adds one. -/
def Merging.run : ℕ → Merging → Outcome JointCodeError Merging
  | 0, _ => .panic
  | turns + 1, state =>
    if 1 < state.heap.length then do
      let state ← state.step
      Merging.run turns state
    else
      .ok state

/-- The steps from a node up to its root. -/
def depthOf (parent : List (Option ℕ)) : ℕ → ℕ → ℕ → Outcome JointCodeError ℕ
  | 0, _, _ => .panic
  | turns + 1, node, depth => do
    let above ← Outcome.index parent node
    match above with
    | none => .ok depth
    | some next => depthOf parent turns next (depth + 1)

def liveSymbols (freq : List ℕ) : List ℕ :=
  (List.range freq.length).filter fun symbol => 0 < freq.getD symbol 0

def writeDepth (parent : List (Option ℕ)) (lengths : List ℕ) (symbol : ℕ) :
    Outcome JointCodeError (List ℕ) := do
  let depth ← depthOf parent parent.length symbol 0
  setIndex lengths symbol (min depth 255)

def mergedLengths (freq : List ℕ) : Outcome JointCodeError (List ℕ) := do
  let live := liveSymbols freq
  let state ← Merging.run live.length ⟨freq, List.replicate freq.length none,
    live.map fun symbol => (freq.getD symbol 0, symbol)⟩
  live.foldlM (writeDepth state.parent) (List.replicate freq.length 0)

/-- Code lengths without a limit; a lone symbol gets one bit. -/
def huffmanLengths (freq : List ℕ) : Outcome JointCodeError (List ℕ) :=
  match liveSymbols freq with
  | [] => .ok (List.replicate freq.length 0)
  | [symbol] => setIndex (List.replicate freq.length 0) symbol 1
  | _ => mergedLengths freq

def kraftUnits (width : ℕ) (lengths : List ℕ) : ℕ :=
  ((lengths.filter (0 < ·)).map fun length => 2 ^ (width - length)).sum

/-- `while kraft > cap`: the rarest symbol with room gets one more bit. -/
def lengthen (maxLen : ℕ) (order : List ℕ) : ℕ → ℕ → List ℕ → Outcome JointCodeError (List ℕ)
  | 0, _, _ => .panic
  | turns + 1, kraft, lengths =>
    if 2 ^ maxLen < kraft then
      match order.find? fun symbol => lengths.getD symbol 0 < maxLen with
      | none => .ok lengths
      | some symbol => do
        let length ← Outcome.index lengths symbol
        let kraft ← Outcome.sub kraft (2 ^ (maxLen - length - 1))
        lengthen maxLen order turns kraft (lengths.set symbol (length + 1))
    else
      .ok lengths

/-- Every turn adds one bit to a length, so there are at most `maxLen` turns for each symbol. -/
def limitLengths (lengths freq : List ℕ) (maxLen : ℕ) : Outcome JointCodeError (List ℕ) :=
  if lengths.all (· ≤ maxLen) then
    .ok lengths
  else
    let clamped := lengths.map (min maxLen)
    let order := sortBy (fun left right => compare (freq.getD left 0) (freq.getD right 0))
      ((List.range clamped.length).filter fun symbol => 0 < clamped.getD symbol 0)
    lengthen maxLen order (clamped.length * maxLen + 1) (kraftUnits maxLen clamped) clamped

structure JointCode where
  t : ℕ
  lengths : List ℕ
  codes : List ℕ
  tableBits : ℕ
  table : List (ℕ × ℕ)
deriving DecidableEq, Repr

def codedSymbols (lengths : List ℕ) : List (ℕ × ℕ) :=
  lengths.zipIdx.filter fun entry => 0 < entry.1

structure CodeCursor where
  codes : List ℕ
  code : ℕ
  previousLen : ℕ

def CodeCursor.next (cursor : CodeCursor) (length : ℕ) : Outcome JointCodeError ℕ :=
  if cursor.previousLen ≠ 0 then do
    let following ← Outcome.add 32 cursor.code 1
    let shift ← Outcome.sub length cursor.previousLen
    return (following <<< shift) % 2 ^ 32
  else
    .ok cursor.code

def CodeCursor.assign (cursor : CodeCursor) (entry : ℕ × ℕ) :
    Outcome JointCodeError CodeCursor := do
  let code ← cursor.next entry.1
  let codes ← setIndex cursor.codes entry.2 code
  return ⟨codes, code, entry.1⟩

def fillEntry (tableBits : ℕ) (codes : List ℕ) (table : List (ℕ × ℕ)) (entry : ℕ × ℕ) :
    Outcome JointCodeError (List (ℕ × ℕ)) := do
  let shift ← Outcome.sub tableBits entry.1
  let code ← Outcome.index codes entry.2
  return fillRange table ((code <<< shift) % 2 ^ 64) (2 ^ shift) (entry.2 % 2 ^ 16, entry.1)

def JointCode.fromLengths (lengths : List ℕ) (t : ℕ) : Outcome JointCodeError JointCode := do
  let size ← alphabet t
  if lengths.length ≠ size then
    .err (.alphabetSize size lengths.length)
  else
    let longest := lengths.foldl max 0
    if maxCodeLen < longest then
      .err .corruptStream
    else if 0 < longest ∧ 2 ^ longest < kraftUnits longest lengths then
      .err .corruptStream
    else do
      let order := sortBy comparePairs (codedSymbols lengths)
      let cursor ← order.foldlM CodeCursor.assign ⟨List.replicate size 0, 0, 0⟩
      let table ← order.foldlM (fillEntry longest cursor.codes)
        (List.replicate (2 ^ longest) (0, 0))
      return ⟨t, lengths, cursor.codes, longest, table⟩

def JointCode.build (freq : List ℕ) (t : ℕ) : Outcome JointCodeError JointCode := do
  let size ← alphabet t
  if freq.length ≠ size then
    .err (.alphabetSize size freq.length)
  else
    let live := freq.countP (0 < ·)
    if 2 ^ maxCodeLen < live then
      .err (.tooManySymbols live (2 ^ maxCodeLen))
    else do
      let lengths ← huffmanLengths freq
      let lengths ← limitLengths lengths freq maxCodeLen
      JointCode.fromLengths lengths t

structure JointStream where
  bits : List UInt8
  blockOffsets : List ℕ
  block : ℕ
  symbols : ℕ
deriving DecidableEq, Repr

/-- The bytes written and the bits that do not make a byte yet, in the low end of `acc`. -/
structure BitSink where
  bits : List UInt8
  acc : ℕ
  pending : ℕ

/-- `while n_acc >= 8` -/
def BitSink.drain : ℕ → BitSink → BitSink
  | 0, sink => sink
  | turns + 1, sink =>
    if 8 ≤ sink.pending then
      BitSink.drain turns ⟨sink.bits ++ [UInt8.ofNat (sink.acc >>> (sink.pending - 8))],
        sink.acc, sink.pending - 8⟩
    else
      sink

def BitSink.push (sink : BitSink) (length code : ℕ) : BitSink :=
  BitSink.drain (sink.pending + length)
    ⟨sink.bits, (sink.acc <<< length) % 2 ^ 64 ||| code, sink.pending + length⟩

def BitSink.finish (sink : BitSink) : List UInt8 :=
  if 0 < sink.pending then
    sink.bits ++ [UInt8.ofNat (sink.acc <<< (8 - sink.pending))]
  else
    sink.bits

structure Encoding where
  sink : BitSink
  total : ℕ
  blockOffsets : List ℕ

def encodeSymbol (code : JointCode) (block : ℕ) (state : Encoding) (entry : ℕ × ℕ) :
    Outcome JointCodeError Encoding := do
  let (symbol, position) := entry
  let blockOffsets :=
    if position % block = 0 then state.blockOffsets ++ [state.total] else state.blockOffsets
  if code.lengths.length ≤ symbol then
    .err (.symbolOutOfRange symbol code.lengths.length)
  else do
    let length ← Outcome.index code.lengths symbol
    if length = 0 then
      .err (.uncodedSymbol symbol)
    else do
      let word ← Outcome.index code.codes symbol
      let total ← Outcome.add 64 state.total length
      return ⟨state.sink.push length word, total, blockOffsets⟩

def encode (code : JointCode) (symbols : List ℕ) (block : ℕ) : Outcome JointCodeError JointStream :=
  if block = 0 then
    .err .badBlock
  else do
    let state ← symbols.zipIdx.foldlM (encodeSymbol code block) ⟨⟨[], 0, 0⟩, 0, []⟩
    return ⟨state.sink.finish, state.blockOffsets, block, symbols.length⟩

def peekBit (bits : List UInt8) (position : ℕ) : ℕ :=
  match bits[position / 8]? with
  | some byte => ((byte >>> UInt8.ofNat (7 - position % 8)) &&& 1).toNat
  | none => 0

/-- The bits from a position on, zeros past the end. -/
def peek (bits : List UInt8) (bit width : ℕ) : Outcome JointCodeError ℕ :=
  (List.range width).foldlM (fun value step => do
    let position ← Outcome.add 64 bit step
    return (value <<< 1) ||| peekBit bits position) 0

def decodeRun (code : JointCode) (bits : List UInt8) (totalBits : ℕ) :
    ℕ → ℕ → Outcome JointCodeError (List ℕ)
  | 0, _ => .ok []
  | count + 1, bit => do
    let index ← peek bits bit code.tableBits
    let (symbol, length) ← Outcome.index code.table index
    if length = 0 then
      .err .corruptStream
    else do
      let stop ← Outcome.add 64 bit length
      if totalBits < stop then
        .err .corruptStream
      else do
        let rest ← decodeRun code bits totalBits count stop
        return symbol :: rest

def decodeFrom (code : JointCode) (bits : List UInt8) (bit count : ℕ) :
    Outcome JointCodeError (List ℕ) := do
  let totalBits ← Outcome.mul 64 bits.length 8
  decodeRun code bits totalBits count bit

def decode (code : JointCode) (stream : JointStream) : Outcome JointCodeError (List ℕ) :=
  decodeFrom code stream.bits 0 stream.symbols

def decodeBlock (code : JointCode) (stream : JointStream) (index : ℕ) :
    Outcome JointCodeError (List ℕ) := do
  let start ← okOr stream.blockOffsets[index]? .badBlock
  let first ← Outcome.mul 64 index stream.block
  let left ← Outcome.sub stream.symbols first
  decodeFrom code stream.bits start (min stream.block left)

end Tritium.Salt
