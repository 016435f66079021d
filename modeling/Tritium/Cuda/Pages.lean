import Tritium.Lib.Bytes
import Tritium.Lib.Stateful
import Mathlib.Algebra.Order.Floor.Div

/-!
# Pages of the key-value cache

The slots of a batch share a pool of pages. Every slot has a row of the page table; reserving draws
pages from the pool for its first unmapped entries, and releasing returns all pages of a row.
-/

namespace Tritium.Cuda

open List Stateful

def kvPageTokens : ℕ := 256

inductive BackendError where
  | invalidInput (message : String)

/-- One row of `tstride` entries for each slot, `-1` where no page is mapped. Pages are taken from
the back of the free ones. -/
structure BatchPages where
  table : List ℤ
  tstride : ℕ
  free : List ℤ

structure BatchKv where
  n : ℕ
  maxCtx : ℕ
  pages : Option BatchPages

/-- A new batch maps no page. -/
def BatchKv.newPaged (n maxCtx : ℕ) (free : List ℤ) : BatchKv :=
  let tstride := maxCtx ⌈/⌉ kvPageTokens
  ⟨n, maxCtx, some ⟨replicate (n * tstride) (-1), tstride, free⟩⟩

/-- `for slot in slots.take(delta)`, each slot getting the page that is popped. -/
def drawPages : ℕ → List ℤ → List ℤ → Outcome BackendError (List ℤ × List ℤ)
  | 0, slots, free => .ok (slots, free)
  | _ + 1, [], free => .ok ([], free)
  | delta + 1, _ :: slots, free => do
    let page ← expect free.getLast?
    let (slots, free) ← drawPages delta slots free.dropLast
    return (page :: slots, free)

def unmapEntry (state : List ℤ × List ℤ) (entry : ℤ) : List ℤ × List ℤ :=
  if 0 ≤ entry then (state.1 ++ [-1], state.2 ++ [entry]) else (state.1 ++ [entry], state.2)

def BatchPages.setRow (pages : BatchPages) (row : ℕ) (entries free : List ℤ) : BatchPages :=
  { pages with
    table := pages.table.take (row * pages.tstride) ++ entries ++
      pages.table.drop (row * pages.tstride + pages.tstride)
    free }

def refuse (message : String) : Stateful BatchKv BackendError Unit :=
  lift (.err (.invalidInput message))

def reservePages (row tokens : ℕ) : Stateful BatchKv BackendError Unit := do
  let kv ← current
  if kv.n ≤ row then
    refuse s!"reserve_pages: row {row} >= batch n {kv.n}"
  else if kv.maxCtx < tokens then
    refuse s!"reserve_pages: {tokens} tokens > max_ctx {kv.maxCtx}"
  else
    match kv.pages with
    | none => refuse "reserve_pages: dense batch (build with new_batch_paged)"
    | some pages => do
      let need := tokens ⌈/⌉ kvPageTokens
      let trow ← lift (slice pages.table (row * pages.tstride) (row * pages.tstride + pages.tstride))
      let held := (trow.takeWhile (0 ≤ ·)).length
      let delta := need - held
      if pages.free.length < delta then
        refuse s!"reserve_pages: pool exhausted (need {delta} more pages, {pages.free.length} free)"
      else do
        let (drawn, free) ← lift (drawPages delta (trow.drop held) pages.free)
        update fun kv => { kv with pages := some (pages.setRow row (trow.take held ++ drawn) free) }

def releasePages (row : ℕ) : Stateful BatchKv BackendError Unit := do
  let kv ← current
  if kv.n ≤ row then
    refuse s!"release_pages: row {row} >= batch n {kv.n}"
  else
    match kv.pages with
    | none => refuse "release_pages: dense batch"
    | some pages => do
      let trow ← lift (slice pages.table (row * pages.tstride) (row * pages.tstride + pages.tstride))
      let (entries, free) := trow.foldl unmapEntry ([], pages.free)
      update fun kv => { kv with pages := some (pages.setRow row entries free) }

inductive PageCall where
  | reserve (row tokens : ℕ)
  | release (row : ℕ)

def PageCall.run : PageCall → Stateful BatchKv BackendError Unit
  | .reserve row tokens => reservePages row tokens
  | .release row => releasePages row

end Tritium.Cuda
