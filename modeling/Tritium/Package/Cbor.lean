import Tritium.Lib.Bytes
import Tritium.Lib.Machine
import Tritium.Lib.Ordering
import Tritium.Lib.Stateful

/-!
# Scanning and ordering CBOR in place

The borrowed fast path of the manifest codec: a scanner that accepts deterministic CBOR without
building a value, and a pass that brings the maps of an encoding into key order in its own buffer. A
position stands for the cursor of the source. The recursions count the levels they may still
descend: at depth `depth` there are `65 - depth` of them, and none is left where the source refuses
a depth above 64.
-/

namespace Tritium.Package

inductive ScanError where
  | invalid
  | reference
deriving DecidableEq, Repr

def maxManifestBytes : ℕ := 256 * 1024 * 1024

/-- The levels below the root, the root included. -/
def rootLevels : ℕ := 65

structure Head where
  major : ℕ
  argument : ℕ
deriving DecidableEq, Repr

def take (bytes : List UInt8) (position count : ℕ) : Outcome ScanError (List UInt8 × ℕ) := do
  let stop ← okOr (checkedAdd 64 position count) .invalid
  let out ← okOr (subslice bytes position stop) .invalid
  return (out, stop)

/-- The width of the argument behind a head, and the least argument that needs this width. -/
def headForm : ℕ → Option (ℕ × ℕ)
  | 24 => some (1, 24)
  | 25 => some (2, 256)
  | 26 => some (4, 65536)
  | 27 => some (8, 1 <<< 32)
  | _ => none

/-- The argument of a head, the highest byte first. -/
def headArgument (field : List UInt8) : ℕ :=
  field.foldl (fun number byte => (number <<< 8) % 2 ^ 64 ||| byte.toNat) 0

def wideHead (bytes : List UInt8) (position major additional : ℕ) :
    Outcome ScanError (Head × ℕ) := do
  let form ← okOr (headForm additional) .invalid
  let (field, position) ← take bytes position form.1
  if headArgument field < form.2 then
    .err .invalid
  else
    return (⟨major, headArgument field⟩, position)

def head (bytes : List UInt8) (position : ℕ) : Outcome ScanError (Head × ℕ) := do
  let (first, position) ← take bytes position 1
  let initial ← Outcome.index first 0
  let major := initial.toNat >>> 5
  let additional := initial.toNat &&& 31
  if major = 6 then
    .err .reference
  else if major = 7 then
    if 20 ≤ additional ∧ additional ≤ 22 then .ok (⟨major, additional⟩, position)
    else .err .invalid
  else if additional ≤ 23 then
    .ok (⟨major, additional⟩, position)
  else
    wideHead bytes position major additional

def count (argument remaining minimumBytes : ℕ) : Outcome ScanError ℕ := do
  let count ← okOr (tryInto 64 argument) .invalid
  let limit ← Outcome.div remaining minimumBytes
  if limit < count then .err .invalid else return count

/-- `std::str::from_utf8(bytes).is_ok()`. -/
def validUtf8 (bytes : List UInt8) : Bool := (ByteArray.mk bytes.toArray).validateUTF8

def payload (bytes : List UInt8) (position : ℕ) (header : Head) : Outcome ScanError ℕ := do
  let remaining ← Outcome.sub bytes.length position
  let length ← count header.argument remaining 1
  let (payload, position) ← take bytes position length
  if header.major = 3 ∧ validUtf8 payload = false then
    .err .invalid
  else
    return position

/-- Whether the head is a scalar's, and the position behind the scalar if it is. -/
def scalar (bytes : List UInt8) (position : ℕ) (header : Head) : Outcome ScanError (Bool × ℕ) :=
  if header.major = 0 ∨ header.major = 1 ∨ header.major = 7 then
    .ok (true, position)
  else if header.major = 2 ∨ header.major = 3 then do
    let position ← payload bytes position header
    return (true, position)
  else
    .ok (false, position)

def compareKeys (left right : List UInt8) : Ordering :=
  (compare left.length right.length).then (compare left right)

def key (bytes : List UInt8) (levels position : ℕ) : Outcome ScanError ℕ :=
  if levels = 0 then
    .err .invalid
  else do
    let (header, position) ← head bytes position
    let (isScalar, position) ← scalar bytes position header
    if isScalar then return position else .err .reference

/-- One key of a map, which has to lie behind the previous one. -/
def nextKey (bytes : List UInt8) (levels position : ℕ) (previous : Option (List UInt8)) :
    Outcome ScanError (List UInt8 × ℕ) := do
  let stop ← key bytes levels position
  let current ← slice bytes position stop
  if previous.any fun previous => compareKeys previous current ≠ .lt then
    .err .invalid
  else
    return (current, stop)

def scanEntry (bytes : List UInt8) (levels : ℕ) (scanValue : ℕ → Outcome ScanError ℕ)
    (state : ℕ × Option (List UInt8)) : Outcome ScanError (ℕ × Option (List UInt8)) := do
  let (current, position) ← nextKey bytes levels state.1 state.2
  let position ← scanValue position
  return (position, some current)

def item (bytes : List UInt8) : ℕ → ℕ → Outcome ScanError ℕ
  | 0, _ => .err .invalid
  | levels + 1, position => do
    let (header, position) ← head bytes position
    let (isScalar, position) ← scalar bytes position header
    if isScalar then
      return position
    else if header.major = 4 then do
      let remaining ← Outcome.sub bytes.length position
      let length ← count header.argument remaining 1
      timesM (item bytes levels) length position
    else if header.major = 5 then do
      let remaining ← Outcome.sub bytes.length position
      let length ← count header.argument remaining 2
      let (position, _) ←
        timesM (scanEntry bytes levels (item bytes levels)) length (position, none)
      return position
    else
      .err .invalid

def validateWithLimit (bytes : List UInt8) (limit : UInt64) : Outcome ScanError Unit :=
  if bytes = [] ∨ limit.toNat < bytes.length then
    .err .invalid
  else do
    let position ← item bytes rootLevels 0
    if position ≠ bytes.length then .err .invalid else return ()

def validate (bytes : List UInt8) : Outcome ScanError Unit :=
  validateWithLimit bytes (UInt64.ofNat maxManifestBytes)

/-! ### Ordering in place

The buffer is part of the result: after a failure no caller reads it.
-/

structure Entry where
  start : ℕ
  keyStop : ℕ
  stop : ℕ
deriving DecidableEq, Repr

/-- `bytes[start..stop].rotate_right(count)`. -/
def rotateRight (bytes : List UInt8) (start stop count : ℕ) : Outcome ScanError (List UInt8) := do
  let part ← slice bytes start stop
  let kept ← Outcome.sub part.length count
  return bytes.take start ++ (part.drop kept ++ part.take kept) ++ bytes.drop stop

def orderEntry (levels : ℕ) (orderValue : List UInt8 × ℕ → Outcome ScanError (List UInt8 × ℕ))
    (state : (List UInt8 × ℕ) × List Entry) :
    Outcome ScanError ((List UInt8 × ℕ) × List Entry) := do
  let ((bytes, start), entries) := state
  let keyStop ← key bytes levels start
  let (bytes, stop) ← orderValue (bytes, keyStop)
  return ((bytes, stop), entries ++ [⟨start, keyStop, stop⟩])

def sortEntries (bytes : List UInt8) (entries : List Entry) :
    Outcome ScanError (List Entry) := do
  let keyed ← entries.mapM fun entry => do
    let key ← slice bytes entry.start entry.keyStop
    return (key, entry)
  let sorted := sortBy (fun left right => compareKeys left.1 right.1) keyed
  if neighboursAny (fun left right => left.1 == right.1) sorted then
    .err .invalid
  else
    return sorted.map Prod.snd

/-- The span of an entry that stood between the cursor and an entry moved to the cursor. -/
def Entry.shift (cursor start length : ℕ) (entry : Entry) : Entry :=
  if cursor ≤ entry.start ∧ entry.stop ≤ start then
    ⟨entry.start + length, entry.keyStop + length, entry.stop + length⟩
  else
    entry

/-- The loop that moves the entries: those still to be placed, and where the next one goes. -/
structure Placing where
  bytes : List UInt8
  pending : List Entry
  cursor : ℕ

def placeNext (state : Placing) : Outcome ScanError Placing :=
  match state.pending with
  | [] => .panic
  | selected :: pending => do
    let length ← Outcome.sub selected.stop selected.start
    if state.cursor ≠ selected.start then do
      let bytes ← rotateRight state.bytes state.cursor selected.stop length
      return ⟨bytes, pending.map (Entry.shift state.cursor selected.start length),
        state.cursor + length⟩
    else
      return ⟨state.bytes, pending, state.cursor + length⟩

def order : ℕ → List UInt8 × ℕ → Outcome ScanError (List UInt8 × ℕ)
  | 0, _ => .err .invalid
  | levels + 1, (bytes, position) => do
    let (header, position) ← head bytes position
    let (isScalar, position) ← scalar bytes position header
    if isScalar then
      return (bytes, position)
    else if header.major = 4 then do
      let remaining ← Outcome.sub bytes.length position
      let length ← count header.argument remaining 1
      timesM (order levels) length (bytes, position)
    else if header.major = 5 then do
      let remaining ← Outcome.sub bytes.length position
      let length ← count header.argument remaining 2
      let ((bytes, stop), entries) ←
        timesM (orderEntry levels (order levels)) length ((bytes, position), [])
      let entries ← sortEntries bytes entries
      let placed ← timesM placeNext entries.length ⟨bytes, entries, position⟩
      return (placed.bytes, stop)
    else
      .err .invalid

def canonicalizeWithLimit (bytes : List UInt8) (limit : UInt64) : Outcome ScanError (List UInt8) :=
  if bytes = [] ∨ limit.toNat < bytes.length then
    .err .invalid
  else do
    let (bytes, position) ← order rootLevels (bytes, 0)
    if position ≠ bytes.length then .err .invalid else return bytes

end Tritium.Package
