import Tritium.Gguf.Writer

/-!
# Writing a GGUF container in pieces

The stream writer takes the payloads chunk by chunk and hands them on to a destination, which is
whatever takes bytes: a call on it succeeds or fails and leaves it in another state.
-/

namespace Tritium.Gguf

def streamWriteChunkBytes : ℕ := 8 * 1024

inductive GgufWriteError (ι : Type) where
  | gguf (error : GgufError)
  | io (error : ι)
  | tensorOutOfOrder (expected got : ℕ)
  | streamComplete (got : ℕ)
  | tensorTooLong (tensor expected attempted : ℕ)
  | tensorTooShort (tensor expected written : ℕ)
  | poisoned
deriving DecidableEq, Repr

/-- The methods of `io::Write` that the stream writer calls. -/
structure Destination (σ ι : Type) where
  writeAll : List UInt8 → σ → Except ι Unit × σ
  flush : σ → Except ι Unit × σ

structure GgufStreamWriter (σ : Type) where
  writer : σ
  tensorLengths : List ℕ
  offsets : List ℕ
  tensorDataOffset : ℕ
  position : ℕ
  nextTensor : ℕ
  tensorWritten : ℕ
  poisoned : Bool

section

variable {σ ι : Type} (destination : Destination σ ι)

/-- Writes at most 8 KiB at a time; the turns are enough if there are no fewer than bytes. -/
def writeAllBounded : ℕ → List UInt8 → σ → Except ι Unit × σ
  | 0, _, writer => (.ok (), writer)
  | turns + 1, bytes, writer =>
    if bytes = [] then
      (.ok (), writer)
    else
      match destination.writeAll (bytes.take streamWriteChunkBytes) writer with
      | (.ok (), writer) => writeAllBounded turns (bytes.drop streamWriteChunkBytes) writer
      | (.error error, writer) => (.error error, writer)

abbrev StreamCall (σ ι : Type) := Stateful (GgufStreamWriter σ) (GgufWriteError ι)

namespace GgufStreamWriter

/-- A call on the destination poisons the stream when it fails. -/
def poisoning (call : σ → Except ι Unit × σ) : StreamCall σ ι Unit := fun stream =>
  match call stream.writer with
  | (.ok (), writer) => (.ok (), { stream with writer := writer })
  | (.error error, writer) => (.err (.io error), { stream with writer := writer, poisoned := true })

def padLoop : ℕ → ℕ → StreamCall σ ι Unit
  | 0, _ => pure ()
  | turns + 1, remaining =>
    if remaining = 0 then
      pure ()
    else do
      let count := min remaining streamWriteChunkBytes
      poisoning (destination.writeAll (List.replicate count 0))
      Stateful.update fun stream => { stream with position := stream.position + count }
      padLoop turns (remaining - count)

def padTo (target : ℕ) : StreamCall σ ι Unit := do
  let stream ← Stateful.current
  if target < stream.position then
    lift (.err (.gguf .dimsOverflow))
  else
    padLoop destination (target - stream.position) (target - stream.position)

/-- Pads to the next tensor that has any bytes; every turn passes one tensor. -/
def prepareNextTensor : ℕ → StreamCall σ ι Unit
  | 0 => pure ()
  | turns + 1 => do
    let stream ← Stateful.current
    if stream.nextTensor < stream.tensorLengths.length then do
      let offset ← lift (Outcome.index stream.offsets stream.nextTensor)
      let target ← lift
        (okOr (checkedAdd 64 stream.tensorDataOffset offset) (.gguf .dimsOverflow))
      padTo destination target
      let length ← lift (Outcome.index stream.tensorLengths stream.nextTensor)
      if length ≠ 0 then
        pure ()
      else do
        Stateful.update fun stream => { stream with nextTensor := stream.nextTensor + 1 }
        prepareNextTensor turns
    else
      pure ()

def new (version : ℕ) (metadata : Metadata) (tensors : List GgufTensorSpec) (writer : σ) :
    Outcome (GgufWriteError ι) (GgufStreamWriter σ) := do
  let layout ← (buildLayout version metadata tensors).mapErr .gguf
  match writeAllBounded destination layout.header.length layout.header writer with
  | (.error error, _) => .err (.io error)
  | (.ok (), writer) =>
    let (answer, stream) := (do
      padTo destination layout.tensorDataOffset
      prepareNextTensor destination tensors.length : StreamCall σ ι Unit)
        ⟨writer, tensors.map GgufTensorSpec.dataLen, layout.offsets, layout.tensorDataOffset,
          layout.header.length, 0, 0, false⟩
    answer
    return stream

/-- Hands on a chunk that fits, and goes on to the next tensor when this one is complete. -/
def acceptChunk (chunk : List UInt8) (attempted expected : ℕ) : StreamCall σ ι Unit := do
  poisoning (writeAllBounded destination chunk.length chunk)
  let stream ← Stateful.current
  let position ← lift
    (okOr (checkedAdd 64 stream.position chunk.length) (.gguf .dimsOverflow))
  if attempted = expected then do
    Stateful.update fun stream => { stream with
      position := position, nextTensor := stream.nextTensor + 1, tensorWritten := 0 }
    prepareNextTensor destination stream.tensorLengths.length
  else
    Stateful.update fun stream => { stream with position := position, tensorWritten := attempted }

def writeTensorChunk (tensorIndex : ℕ) (chunk : List UInt8) : StreamCall σ ι Unit := do
  let stream ← Stateful.current
  if stream.poisoned then
    lift (.err .poisoned)
  else if stream.nextTensor = stream.tensorLengths.length then
    lift (.err (.streamComplete tensorIndex))
  else if tensorIndex ≠ stream.nextTensor then
    lift (.err (.tensorOutOfOrder stream.nextTensor tensorIndex))
  else do
    let expected ← lift (Outcome.index stream.tensorLengths tensorIndex)
    let attempted ← lift (okOr (checkedAdd 64 stream.tensorWritten chunk.length)
      (.tensorTooLong tensorIndex expected (2 ^ 64 - 1)))
    if expected < attempted then
      lift (.err (.tensorTooLong tensorIndex expected attempted))
    else
      acceptChunk destination chunk attempted expected

def finish (stream : GgufStreamWriter σ) : Outcome (GgufWriteError ι) σ :=
  if stream.poisoned then
    .err .poisoned
  else if stream.nextTensor < stream.tensorLengths.length then do
    let expected ← Outcome.index stream.tensorLengths stream.nextTensor
    .err (.tensorTooShort stream.nextTensor expected stream.tensorWritten)
  else
    match destination.flush stream.writer with
    | (.ok (), writer) => .ok writer
    | (.error error, _) => .err (.io error)

end GgufStreamWriter

end

end Tritium.Gguf
