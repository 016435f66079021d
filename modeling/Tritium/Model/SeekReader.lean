import Tritium.Model.Binding

/-!
# Reading a model from a source

The validator asks for its ranges through two windows of the blobs. A window that has the byte serves
it; otherwise the window of the blob, or else the one due next, is loaded with the aligned range
around the byte.
-/

namespace Tritium.Model

open Package

inductive TritModelReadError (ι : Type) where
  | model (error : TritModelError)
  | source (error : TritPackageReadError ι)

structure TritModelReader where
  package : TritPackageReader
  binding : ModelBindings

/-- A window. Behind `length`, its buffer has what earlier loads left there. -/
structure Cache where
  blob : Option ℕ
  start : ℕ
  length : ℕ
  bytes : List UInt8

def Cache.new : Cache := ⟨none, 0, 0, List.replicate rangeBytes 0⟩

def Cache.covers (cache : Cache) (blob position : ℕ) : Bool :=
  cache.blob = some blob ∧ cache.start ≤ position ∧ position - cache.start < cache.length

structure Windows where
  cache : Fin 2 → Cache
  replace : Fin 2

namespace Windows

def new : Windows := ⟨fun _ => Cache.new, 0⟩

def position (windows : Windows) (test : Cache → Bool) : Option (Fin 2) :=
  (List.finRange 2).find? fun slot => test (windows.cache slot)

/-- The window after a load, and the other one is due next. -/
def load (windows : Windows) (slot : Fin 2) (blob start count : ℕ) (loaded : List UInt8) :
    Windows where
  cache := Function.update windows.cache slot
    ⟨some blob, start, count, loaded ++ (windows.cache slot).bytes.drop count⟩
  replace := slot + 1

end Windows

section Source

variable {σ ι : Type} (source : Seekable σ ι) (reader : TritPackageReader)

/-- The window that has the byte, loaded unless it is there. -/
def windowAt (blob length position : ℕ) :
    Stateful (σ × Windows) (TritModelReadError ι) (Fin 2) := do
  let (_, windows) ← Stateful.current
  match windows.position (·.covers blob position) with
  | some slot => return slot
  | none => do
    let slot := (windows.position (·.blob = some blob)).getD windows.replace
    let start := position / rangeBytes * rangeBytes
    let rest ← lift (Outcome.sub length start)
    let loaded ← ((reader.readBlobRange source blob start (min rest rangeBytes)).mapErr
      .source).left
    Stateful.update fun state =>
      (state.1, state.2.load slot blob start (min rest rangeBytes) loaded)
    return slot

def copyNext (blob length offset count : ℕ) (out : List UInt8) :
    Stateful (σ × Windows) (TritModelReadError ι) (List UInt8) :=
  if out.length < count then do
    let slot ← windowAt source reader blob length (offset + out.length)
    let (_, windows) ← Stateful.current
    let cache := windows.cache slot
    let start ← lift (Outcome.sub (offset + out.length) cache.start)
    let available ← lift (Outcome.sub cache.length start)
    let piece ← lift (slice cache.bytes start (start + min (count - out.length) available))
    return out ++ piece
  else
    return out

/-- The range of a blob through the windows. Every turn of the loop copies a byte at least, so
`count` turns fill the buffer. -/
def cachedRange (blob offset count : ℕ) :
    Stateful (σ × Windows) (TritModelReadError ι) (List UInt8) := do
  let info ← lift (okOr reader.blobs[blob]? (.source (.format .invalidDirectory)))
  let stop ← lift
    (okOr (checkedAdd 64 offset count) (.source (.format .lengthOverflow)))
  if info.length.toNat < stop then
    lift (.err (.source (.format .invalidDirectory)))
  else
    timesM (copyNext source reader blob info.length.toNat offset count) count []

end Source

def openModelReader {σ ι : Type} (source : Seekable σ ι) (codec : Cbor.Codec)
    (digest packageId : List UInt8 → Digest) (code : ModelCode) (limits : TritPackageReadLimits) :
    Stateful σ (TritModelReadError ι) TritModelReader := do
  let package ← (openReader source codec digest packageId limits).mapErr .source
  let manifest ← lift ((code.decodeModelManifest package.manifest).mapErr .model)
  let binding ← ((validateBindings code manifest package.blobs).run (cachedRange source package)
    fun outcome => lift (outcome.mapErr .model)).within Windows.new
  (package.verify source packageId).mapErr .source
  return ⟨package, binding⟩

end Tritium.Model
