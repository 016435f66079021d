import Tritium.Lib.Machine

/-!
# The data sampler

One rank's share of a shuffled data set, epoch after epoch. The epoch is a 64-bit counter whose
overflow panics; positions in the shuffled order never leave the vector that holds it.
-/

namespace Tritium.Train

structure Cursor where
  seed : UInt64
  epoch : ℕ
  consumed : ℕ

structure DataSampler where
  nSamples : ℕ
  nRanks : ℕ
  rank : ℕ
  dropLast : Bool
  cursor : Cursor
  cache : Option (UInt64 × ℕ × List ℕ)

def epochSeed (seed epoch : UInt64) : UInt64 :=
  let z := seed + epoch * 0x9E3779B97F4A7C15
  let z := (z ^^^ (z >>> 30)) * 0xBF58476D1CE4E5B9
  let z := (z ^^^ (z >>> 27)) * 0x94D049BB133111EB
  z ^^^ (z >>> 31)

/-- The next draw, which is also the next state of the stream. -/
def nextDraw (s : UInt64) : UInt64 :=
  let s := s ^^^ (s <<< 13)
  let s := s ^^^ (s >>> 7)
  s ^^^ (s <<< 17)

def swapDrawn (state : UInt64 × Array ℕ) (i : ℕ) : Outcome Empty (UInt64 × Array ℕ) :=
  let s := nextDraw state.1
  let j := s.toNat % (i + 1)
  if h : i < state.2.size ∧ j < state.2.size then .ok (s, state.2.swap i j h.1 h.2) else .panic

namespace DataSampler

def new (nSamples nRanks rank : ℕ) (dropLast : Bool) (seed : UInt64) : Outcome Empty DataSampler :=
  if nRanks = 0 ∨ nRanks ≤ rank ∨ dropLast ∧ nSamples < nRanks then .panic
  else .ok ⟨nSamples, nRanks, rank, dropLast, ⟨seed, 0, 0⟩, none⟩

variable (self : DataSampler)

def setCursor (cursor : Cursor) : DataSampler := { self with cursor }

def samplesPerEpoch : ℕ :=
  if self.dropLast then self.nSamples / self.nRanks
  else if self.nSamples ≤ self.rank then 0
  else (self.nSamples - self.rank + (self.nRanks - 1)) / self.nRanks

def epochPermutation (epoch : ℕ) : Outcome Empty (List ℕ) := do
  let (_, perm) ← (List.range' 1 (self.nSamples - 1)).reverse.foldlM swapDrawn
    (epochSeed self.cursor.seed (.ofNat epoch) ||| 1, Array.range self.nSamples)
  return perm.toList

def epochIndices (epoch : ℕ) : Outcome Empty (List ℕ) := do
  let perm ← self.epochPermutation epoch
  (List.range self.samplesPerEpoch).mapM fun i => Outcome.index perm (self.rank + i * self.nRanks)

/-- The cursor that the next index is read at. -/
def rolledCursor : Outcome Empty Cursor :=
  if self.samplesPerEpoch ≤ self.cursor.consumed then do
    let epoch ← Outcome.add 64 self.cursor.epoch 1
    return { self.cursor with epoch, consumed := 0 }
  else
    return self.cursor

/-- The order that is kept, unless it is stale. -/
def memoised : Outcome Empty (List ℕ) :=
  match self.cache with
  | some (seed, epoch, perm) =>
      if seed = self.cursor.seed ∧ epoch = self.cursor.epoch then return perm
      else self.epochPermutation self.cursor.epoch
  | none => self.epochPermutation self.cursor.epoch

def nextIndex : Outcome Empty (Option ℕ × DataSampler) :=
  if self.samplesPerEpoch = 0 then
    return (none, self)
  else do
    let cursor ← self.rolledCursor
    let perm ← (self.setCursor cursor).memoised
    let idx ← Outcome.index perm (self.rank + cursor.consumed * self.nRanks)
    return (some idx, { self with
      cursor := { cursor with consumed := cursor.consumed + 1 }
      cache := some (cursor.seed, cursor.epoch, perm) })

/-- So many calls of `nextIndex`. -/
def nextMany : ℕ → DataSampler → Outcome Empty (List (Option ℕ) × DataSampler)
  | 0, self => return ([], self)
  | count + 1, self => do
      let first ← self.nextIndex
      let rest ← nextMany count first.2
      return (first.1 :: rest.1, rest.2)

end DataSampler

end Tritium.Train
