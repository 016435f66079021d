import Tritium.Lib.Machine

/-!
# Drafts by prompt lookup

The end of the history is looked up at earlier positions, and what followed the longest match is
drafted. Lengths and positions are `usize`.
-/

namespace Tritium.Serve

open Outcome

def maxNgram : ℕ := 8

def minNgram : ℕ := 2

/-- `history[stop - 1 - back]` -/
def tokenBack (history : List UInt32) (stop back : ℕ) : Outcome Empty UInt32 := do
  let last ← sub stop 1
  let position ← sub last back
  index history position

/-- The `while` loop, by what `nlen` is short of `maxN`. -/
def extendMatch (history : List UInt32) (maxN e : ℕ) : ℕ → Outcome Empty ℕ
  | 0 => .ok maxN
  | left + 1 =>
    let nlen := maxN - (left + 1)
    if nlen < e then do
      let earlier ← tokenBack history e nlen
      let own ← tokenBack history history.length nlen
      if earlier = own then extendMatch history maxN e left else .ok nlen
    else .ok nlen

/-- The scan over the ends `e` of earlier occurrences, down to `minNgram`; the state is `best_len`
and `best_end`. -/
def scanEnds (history : List UInt32) (maxN : ℕ) : ℕ → ℕ × ℕ → Outcome Empty (ℕ × ℕ)
  | 0, best => .ok best
  | count + 1, best => do
    let e := minNgram + count
    let earlier ← tokenBack history e 0
    let own ← tokenBack history history.length 0
    if earlier ≠ own then scanEnds history maxN count best
    else do
      let nlen ← extendMatch history maxN e (maxN - 1)
      if minNgram ≤ nlen ∧ best.1 < nlen then
        if nlen = maxN then .ok (nlen, e) else scanEnds history maxN count (nlen, e)
      else scanEnds history maxN count best

def lookupDraft (history : List UInt32) (maxDraft : ℕ) : Outcome Empty (List UInt32) :=
  let len := history.length
  if maxDraft = 0 ∨ len < minNgram + 1 then .ok []
  else do
    let maxN := min maxNgram (len - 1)
    let (bestLen, bestEnd) ← scanEnds history maxN (len - minNgram) (0, 0)
    if bestLen = 0 ∨ bestEnd = len then .ok []
    else do
      let stop ← add 64 bestEnd maxDraft
      slice history bestEnd (min stop len)

end Tritium.Serve
