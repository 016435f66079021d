import Tritium.Lib.Machine

/-!
# Streaming text

A text is the list of its characters. Positions in it are byte offsets into its UTF-8 encoding, and
slicing inside a character panics.
-/

namespace Tritium.Serve

def byteLen (text : List Char) : ℕ := (text.map Char.utf8Size).sum

/-- `text.get(start..)` -/
def sliceFrom? : List Char → ℕ → Option (List Char)
  | text, 0 => some text
  | [], _ + 1 => none
  | char :: text, start + 1 =>
    if char.utf8Size ≤ start + 1 then sliceFrom? text (start + 1 - char.utf8Size) else none

def isCharBoundary (text : List Char) (position : ℕ) : Bool := (sliceFrom? text position).isSome

def floorFrom (text : List Char) : ℕ → ℕ
  | 0 => 0
  | position + 1 =>
    if isCharBoundary text (position + 1) then position + 1 else floorFrom text position

def floorCharBoundary (text : List Char) (position : ℕ) : ℕ :=
  floorFrom text (min position (byteLen text))

def replacement : Char := '�'

/-- A character that lacks bytes, and the range in which the next one has to lie. -/
structure Incomplete where
  missing : ℕ
  value : ℕ
  low : ℕ
  high : ℕ

def startByte (byte : ℕ) : List Char × Option Incomplete :=
  if byte < 0x80 then ([Char.ofNat byte], none)
  else if 0xC2 ≤ byte ∧ byte ≤ 0xDF then ([], some ⟨1, byte % 32, 0x80, 0xBF⟩)
  else if 0xE0 ≤ byte ∧ byte ≤ 0xEF then
    ([], some ⟨2, byte % 16, if byte = 0xE0 then 0xA0 else 0x80, if byte = 0xED then 0x9F else 0xBF⟩)
  else if 0xF0 ≤ byte ∧ byte ≤ 0xF4 then
    ([], some ⟨3, byte % 8, if byte = 0xF0 then 0x90 else 0x80, if byte = 0xF4 then 0x8F else 0xBF⟩)
  else ([replacement], none)

/-- A byte that cannot continue a character replaces what there is of it and starts anew. -/
def nextByte (state : Option Incomplete) (byte : ℕ) : List Char × Option Incomplete :=
  match state with
  | none => startByte byte
  | some char =>
    if char.low ≤ byte ∧ byte ≤ char.high then
      let value := char.value * 64 + byte % 64
      if char.missing = 1 then ([Char.ofNat value], none)
      else ([], some ⟨char.missing - 1, value, 0x80, 0xBF⟩)
    else (replacement :: (startByte byte).1, (startByte byte).2)

def lossyFrom : Option Incomplete → List UInt8 → List Char
  | none, [] => []
  | some _, [] => [replacement]
  | state, byte :: bytes =>
    (nextByte state byte.toNat).1 ++ lossyFrom (nextByte state byte.toNat).2 bytes

/-- A tokenizer with the bytes of each token, whose `decode` is lossy. -/
structure Tokenizer where
  bytes : UInt32 → List UInt8
  eos : UInt32

def Tokenizer.decode (tokenizer : Tokenizer) (tokens : List UInt32) : List Char :=
  lossyFrom none (tokens.flatMap tokenizer.bytes)

structure IncrementalDetok where
  tokens : List UInt32
  emittedBytes : ℕ

namespace IncrementalDetok

def new : IncrementalDetok := ⟨[], 0⟩

variable (tokenizer : Tokenizer)

def push (detok : IncrementalDetok) (token : UInt32) :
    Outcome Empty (List Char × IncrementalDetok) :=
  if token = tokenizer.eos then
    .ok ([], detok)
  else do
    let tokens := detok.tokens ++ [token]
    let full := tokenizer.decode tokens
    let start := floorCharBoundary full detok.emittedBytes
    let text ← expect (sliceFrom? full start)
    return (text, ⟨tokens, byteLen full⟩)

/-- The texts that a sequence of tokens gives. -/
def pushAll : IncrementalDetok → List UInt32 → Outcome Empty (List (List Char))
  | _, [] => .ok []
  | detok, token :: tokens => do
    let (text, detok) ← detok.push tokenizer token
    let texts ← detok.pushAll tokens
    return text :: texts

end IncrementalDetok

end Tritium.Serve
