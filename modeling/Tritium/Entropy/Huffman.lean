import Tritium.Entropy.Types
import Tritium.Lib.Ordering

/-!
# Canonical byte Huffman

Code lengths from a greedy merge of the two rarest subtrees, canonical codes from the lengths alone,
and a decoder that walks a trie of the codes.
-/

namespace Tritium.Entropy

structure Node where
  frequency : ℕ
  minSymbol : ℕ
  symbol : Option ℕ
  children : Option (ℕ × ℕ)
deriving DecidableEq, Repr

structure HeapNode where
  frequency : ℕ
  minSymbol : ℕ
  index : ℕ
deriving DecidableEq, Repr

/-- The order of the heap: a rarer node is greater. -/
def HeapNode.cmp (left right : HeapNode) : Ordering :=
  ((compare right.frequency left.frequency).then (compare right.minSymbol left.minSymbol)).then
    (compare right.index left.index)

/-- `BinaryHeap::pop`: the greatest node, and the heap without it. -/
def heapPop (heap : List HeapNode) : Option (HeapNode × List HeapNode) :=
  (minBy (fun left right => HeapNode.cmp right left) heap).map fun top => (top, heap.erase top)

/-- One leaf, and its heap node, for every byte value that occurs. -/
def pushLeaf (current : List Node × List HeapNode) (entry : ℕ × ℕ) : List Node × List HeapNode :=
  let (nodes, heap) := current
  let (frequency, symbol) := entry
  if frequency ≠ 0 then
    (nodes ++ [{ frequency, minSymbol := symbol, symbol := some symbol, children := none }],
      heap ++ [{ frequency, minSymbol := symbol, index := nodes.length }])
  else
    (nodes, heap)

/-- The `while` loop that merges the two rarest nodes. A merge removes two nodes and adds one, so
there are fewer turns than nodes. -/
def mergeNodes : ℕ → List Node → List HeapNode →
    Outcome EntropyTransportError (List Node × List HeapNode)
  | 0, _, _ => .panic
  | turns + 1, nodes, heap =>
    if 1 < heap.length then do
      let (left, heap) ← expect (heapPop heap)
      let (right, heap) ← expect (heapPop heap)
      let index := nodes.length
      let frequency ← okOr (checkedAdd 64 left.frequency right.frequency) .lengthOverflow
      let minSymbol := min left.minSymbol right.minSymbol
      let node : Node :=
        { frequency, minSymbol, symbol := none, children := some (left.index, right.index) }
      mergeNodes turns (nodes ++ [node]) (heap ++ [{ frequency, minSymbol, index }])
    else
      .ok (nodes, heap)

/-- The recursion over the nodes, with a bound on its depth. -/
def assignLengths (nodes : List Node) :
    ℕ → ℕ → ℕ → List UInt8 → Outcome EntropyTransportError (List UInt8)
  | 0, _, _, _ => .panic
  | turns + 1, index, depth, lengths => do
    let node ← okOr nodes[index]? .invalidHuffmanTable
    match node.symbol, node.children with
    | some symbol, _ => do
      let length ← okOr (tryInto 8 (max depth 1)) .invalidHuffmanTable
      setIndex lengths symbol (UInt8.ofNat length)
    | none, some (left, right) => do
      let lengths ← assignLengths nodes turns left (depth + 1) lengths
      assignLengths nodes turns right (depth + 1) lengths
    | none, none => .err .invalidHuffmanTable

def huffmanLengths (bytes : List UInt8) : Outcome EntropyTransportError (List UInt8) := do
  let frequencies ← countBytes (Outcome.add 64 · 1) bytes
  let (nodes, heap) := frequencies.zipIdx.foldl pushLeaf ([], [])
  if heap = [] then
    .err .invalidHuffmanTable
  else if heap.length = 1 then do
    let (top, _) ← expect (heapPop heap)
    let node ← Outcome.index nodes top.index
    let symbol ← expect node.symbol
    setIndex (List.replicate 256 0) symbol 1
  else do
    let (nodes, heap) ← mergeNodes heap.length nodes heap
    let (root, _) ← expect (heapPop heap)
    assignLengths nodes nodes.length root.index 0 (List.replicate 256 0)

/-- The bits of a code, the first one first; a symbol without a code has none. -/
structure Code where
  bits : List ℕ
deriving DecidableEq, Repr

/-- Adds one to the bits from the last one on, and says whether a zero took the carry. -/
def incrementReversed : List ℕ → Bool × List ℕ
  | [] => (false, [])
  | bit :: rest =>
    if bit = 0 then
      (true, 1 :: rest)
    else
      let (carried, rest) := incrementReversed rest
      (carried, 0 :: rest)

def incrementBits (bits : List ℕ) : Bool × List ℕ :=
  let (carried, reversed) := incrementReversed bits.reverse
  (carried, reversed.reverse)

/-- `Vec::resize` with zeros. -/
def resizeBits (bits : List ℕ) (length : ℕ) : List ℕ :=
  bits.take length ++ List.replicate (length - bits.length) 0

def codedSymbols (lengths : List UInt8) : List (ℕ × ℕ) :=
  lengths.zipIdx.filterMap fun entry =>
    if entry.1 ≠ 0 then some (entry.1.toNat, entry.2) else none

def compareCoded (left right : ℕ × ℕ) : Ordering :=
  (compare left.1 right.1).then (compare left.2 right.2)

structure CodeCursor where
  codes : List Code
  current : List ℕ
  previousLen : ℕ

def CodeCursor.assign (cursor : CodeCursor) (entry : (ℕ × ℕ) × ℕ) :
    Outcome EntropyTransportError CodeCursor := do
  let ((len, symbol), position) := entry
  let current ←
    if position ≠ 0 then
      let (carried, incremented) := incrementBits cursor.current
      if carried = false then .err .invalidHuffmanTable
      else if len < cursor.previousLen then .err .invalidHuffmanTable
      else .ok (resizeBits incremented len)
    else .ok cursor.current
  let codes ← setIndex cursor.codes symbol ⟨current⟩
  return { codes, current, previousLen := len }

def canonicalCodes (lengths : List UInt8) : Outcome EntropyTransportError (List Code) :=
  let order := codedSymbols lengths
  if order = [] then
    .err .invalidHuffmanTable
  else do
    let order := sortBy compareCoded order
    let first ← Outcome.index order 0
    let cursor ← order.zipIdx.foldlM CodeCursor.assign
      { codes := List.replicate 256 ⟨[]⟩
        current := List.replicate first.1 0
        previousLen := first.1 }
    return cursor.codes

structure TrieNode where
  children : List ℤ
  symbol : Option ℕ
deriving DecidableEq, Repr

def TrieNode.empty : TrieNode := ⟨[-1, -1], none⟩

/-- Follows one bit from a node without a symbol, adding the child when there is none. -/
def enterChild (trie : List TrieNode) (node bit : ℕ) :
    Outcome EntropyTransportError (List TrieNode × ℕ) := do
  let parent ← Outcome.index trie node
  if parent.symbol.isSome then
    .err .invalidHuffmanTable
  else if 1 < bit then
    .err .invalidHuffmanTable
  else do
    let child ← Outcome.index parent.children bit
    if child < 0 then do
      let next ← okOr (tryInto 31 trie.length) .lengthOverflow
      let children ← setIndex parent.children bit (next : ℤ)
      let trie ← setIndex trie node { parent with children }
      return (trie ++ [TrieNode.empty], next)
    else
      return (trie, child.toNat)

/-- Stores the symbol at the end of its code, where neither a symbol nor a child may be. -/
def placeSymbol (trie : List TrieNode) (node symbol : ℕ) :
    Outcome EntropyTransportError (List TrieNode) := do
  let reached ← Outcome.index trie node
  if reached.symbol.isSome ∨ reached.children ≠ [-1, -1] then
    .err .invalidHuffmanTable
  else
    setIndex trie node { reached with symbol := some symbol }

def descendBit (length symbol : ℕ) (current : List TrieNode × ℕ) (entry : ℕ × ℕ) :
    Outcome EntropyTransportError (List TrieNode × ℕ) := do
  let (bit, position) := entry
  let (trie, node) ← enterChild current.1 current.2 bit
  if position + 1 = length then do
    let trie ← placeSymbol trie node symbol
    return (trie, node)
  else
    return (trie, node)

def insertCode (trie : List TrieNode) (entry : Code × ℕ) :
    Outcome EntropyTransportError (List TrieNode) := do
  let (code, symbol) := entry
  let (trie, _) ← code.bits.zipIdx.foldlM (descendBit code.bits.length symbol) (trie, 0)
  return trie

def buildTrie (codes : List Code) : Outcome EntropyTransportError (List TrieNode) :=
  (codes.zipIdx.filter fun entry => entry.1.bits ≠ []).foldlM insertCode [TrieNode.empty]

structure BitWriter where
  bytes : List UInt8
  bits : ℕ
deriving DecidableEq, Repr

/-- Sets a bit of the last byte, the highest one first, when it is a one. -/
def storeBit (bytes : List UInt8) (position bit : ℕ) : Outcome EntropyTransportError (List UInt8) :=
  if bit ≠ 0 then do
    let last ← Outcome.sub bytes.length 1
    let byte ← Outcome.index bytes last
    setIndex bytes last (byte ||| 1 <<< UInt8.ofNat (7 - position % 8))
  else
    .ok bytes

def BitWriter.pushBit (writer : BitWriter) (bit : ℕ) : Outcome EntropyTransportError BitWriter := do
  let bytes := if writer.bits % 8 = 0 then writer.bytes ++ [0] else writer.bytes
  let bytes ← storeBit bytes writer.bits bit
  return { bytes, bits := writer.bits + 1 }

def BitWriter.push (writer : BitWriter) (code : Code) : Outcome EntropyTransportError BitWriter :=
  code.bits.foldlM BitWriter.pushBit writer

def encodeHuffman (bytes : List UInt8) : Outcome EntropyTransportError (List UInt8) := do
  let lengths ← huffmanLengths bytes
  let codes ← canonicalCodes lengths
  let stream ← bytes.foldlM
    (fun (stream : BitWriter) byte => do
      let code ← Outcome.index codes byte.toNat
      stream.push code)
    { bytes := [], bits := 0 }
  return lengths ++ leBytes 8 stream.bits ++ stream.bytes

/-- Walks from a node to a symbol, with `remaining` bits left before `bit_len`. -/
def walkSymbol (trie : List TrieNode) (stream : List UInt8) :
    ℕ → ℕ → ℕ → Outcome EntropyTransportError (ℕ × ℕ)
  | 0, _, _ => .err .invalidHuffmanStream
  | remaining + 1, node, bitPos => do
    let byte ← Outcome.index stream (bitPos / 8)
    let bit := (byte >>> UInt8.ofNat (7 - bitPos % 8)) &&& 1
    let parent ← Outcome.index trie node
    let next ← Outcome.index parent.children bit.toNat
    if next < 0 then
      .err .invalidHuffmanStream
    else do
      let reached ← Outcome.index trie next.toNat
      match reached.symbol with
      | some symbol => return (symbol, bitPos + 1)
      | none => walkSymbol trie stream remaining next.toNat (bitPos + 1)

def walkSymbols (trie : List TrieNode) (stream : List UInt8) (bitLen : ℕ) :
    ℕ → ℕ → Outcome EntropyTransportError (List UInt8 × ℕ)
  | 0, bitPos => .ok ([], bitPos)
  | count + 1, bitPos => do
    let (symbol, bitPos) ← walkSymbol trie stream (bitLen - bitPos) 0 bitPos
    let (decoded, bitPos) ← walkSymbols trie stream bitLen count bitPos
    return (UInt8.ofNat symbol :: decoded, bitPos)

def decodeHuffman (payload : List UInt8) (expectedLen : ℕ) :
    Outcome EntropyTransportError (List UInt8) :=
  if payload.length < 264 then
    .err .invalidHuffmanStream
  else do
    let lengths ← slice payload 0 256
    let bitLenBytes ← slice payload 256 264
    let bitLen := ofLeBytes bitLenBytes
    let stream ← slice payload 264 payload.length
    if min (stream.length * 8) (2 ^ 64 - 1) < bitLen then
      .err .invalidHuffmanStream
    else do
      let codes ← canonicalCodes lengths
      let trie ← buildTrie codes
      let (out, bitPos) ← walkSymbols trie stream bitLen expectedLen 0
      if bitPos ≠ bitLen then
        .err .invalidHuffmanStream
      else
        return out

end Tritium.Entropy
