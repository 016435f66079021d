import Tritium.Salt.Tq2

/-!
# Sparse planes

A plane that is mostly zeros is stored as its nonzeros: the columns in increasing order, each with a
sign in its top bit, and the scales of the blocks. The switch between the two forms compares a
density in `f32`; the arithmetic is a parameter, since the hardware has it and not this code.
-/

namespace Tritium.Salt

/-- `*b"TSSP"` -/
def sparseMagic : List UInt8 := [0x54, 0x53, 0x53, 0x50]

def sparseVersion : ℕ := 1

def sparseHeaderBytes : ℕ := 4 + 1 + 1 + 4 + 4

def signBit : ℕ := 2 ^ 31

structure SparsePlane where
  k : ℕ
  scales : List ℕ
  idx : List ℕ
  sign : List ℤ
deriving DecidableEq, Repr

/-- The operations of `f32` that the density switch uses. -/
structure DensityArithmetic (φ : Type) where
  zero : φ
  one : φ
  ofUsize : ℕ → φ
  div : φ → φ → φ
  isFinite : φ → Bool
  le : φ → φ → Bool
  lt : φ → φ → Bool

def SparsePlane.density {φ : Type} (arithmetic : DensityArithmetic φ) (plane : SparsePlane) : φ :=
  if plane.k = 0 then
    arithmetic.zero
  else
    arithmetic.div (arithmetic.ofUsize plane.idx.length) (arithmetic.ofUsize plane.k)

/-- The scales and the entries as they are stored. -/
structure SparsePlaneRef where
  k : ℕ
  scales : List UInt8
  entries : List UInt8

def entryColumn (encoded : ℕ) : ℕ := encoded % signBit

def SparsePlaneRef.encodedEntries (plane : SparsePlaneRef) : List ℕ :=
  (asChunks 4 plane.entries).map ofLeBytes

/-- One entry of the check; the state is the column before it. -/
def checkColumn (k : ℕ) (previous : Option ℕ) (encoded : ℕ) : Outcome FormatError (Option ℕ) :=
  if k ≤ entryColumn encoded then
    .err (.decodedOutOfRange (entryColumn encoded))
  else if previous.any (entryColumn encoded ≤ ·) then
    .err .saltNonCanonicalSparseIndices
  else
    .ok (some (entryColumn encoded))

def SparsePlaneRef.parse (bytes : List UInt8) : Outcome FormatError SparsePlaneRef :=
  if bytes.length < sparseHeaderBytes then
    .err (.wrongBlockLen sparseHeaderBytes bytes.length)
  else do
    let magic ← slice bytes 0 4
    if magic ≠ sparseMagic then
      .err .saltBadMagic
    else do
      let version ← Outcome.index bytes 4
      if version.toNat ≠ sparseVersion then
        .err (.unsupportedSaltVersion version.toNat)
      else do
        let k ← slice bytes 6 10
        let k := ofLeBytes k
        if signBit ≤ k then
          .err (.saltRowTooLong k)
        else do
          let nnz ← slice bytes 10 14
          let overflow : FormatError := .wrongBlockLen (2 ^ 64 - 1) bytes.length
          let scaleBytes ← okOr (checkedMul 64 (numBlocks k) 2) overflow
          let entryBytes ← okOr (checkedMul 64 (ofLeBytes nnz) 4) overflow
          let entriesStart ← okOr (checkedAdd 64 sparseHeaderBytes scaleBytes) overflow
          let required ← okOr (checkedAdd 64 entriesStart entryBytes) overflow
          if bytes.length ≠ required then
            .err (.wrongBlockLen required bytes.length)
          else do
            let scales ← slice bytes sparseHeaderBytes entriesStart
            let entries ← slice bytes entriesStart bytes.length
            let _ ← (SparsePlaneRef.mk k scales entries).encodedEntries.foldlM (checkColumn k) none
            return ⟨k, scales, entries⟩

def SparsePlaneRef.fromValidated (bytes : List UInt8) : Outcome FormatError SparsePlaneRef := do
  let k ← slice bytes 6 10
  let k := ofLeBytes k
  let entriesStart := sparseHeaderBytes + numBlocks k * 2
  let scales ← slice bytes sparseHeaderBytes entriesStart
  let entries ← slice bytes entriesStart bytes.length
  return ⟨k, scales, entries⟩

def SparsePlaneRef.toOwned (plane : SparsePlaneRef) : SparsePlane :=
  ⟨plane.k, (asChunks 2 plane.scales).map ofLeBytes, plane.encodedEntries.map entryColumn,
    plane.encodedEntries.map fun encoded => if encoded / signBit % 2 ≠ 0 then -1 else 1⟩

/-- The trits behind the row in its last block. -/
def validateZeroPadding (packed : List UInt8) (k : ℕ) : Outcome FormatError Unit :=
  if k % qkK = 0 then
    .ok ()
  else do
    let blocks ← Outcome.sub (numBlocks k) 1
    let offset := blocks * tq20BlockBytes
    let bytes ← slice packed offset (offset + tq20BlockBytes)
    let (trits, _) ← unpackTq20Block bytes qkK
    let padding ← slice trits (k % qkK) trits.length
    if padding.any (· ≠ .zero) then
      .err .saltNonZeroPadding
    else
      return ()

def sparseFromTq20 (packed : List UInt8) (k : ℕ) : Outcome FormatError SparsePlane :=
  if signBit ≤ k then
    .err (.saltRowTooLong k)
  else do
    let (trits, scales) ← unpackTq20Row packed k (numBlocks k)
    validateZeroPadding packed k
    let nonzeros := trits.zipIdx.filter fun entry => entry.1.get ≠ 0
    return ⟨k, scales, nonzeros.map fun entry => entry.2 % 2 ^ 32,
      nonzeros.map fun entry => entry.1.get⟩

/-- `as i32` of a `u32`. -/
def asI32 (value : ℕ) : ℤ := if value < 2 ^ 31 then value else value - 2 ^ 32

/-- The columns are below the width, and the signs are signs. -/
def checkSignedColumn (k : ℕ) (entry : ℕ × ℤ) : Outcome FormatError Unit :=
  if k ≤ entry.1 then
    .err (.decodedOutOfRange (asI32 entry.1))
  else if entry.2 ≠ -1 ∧ entry.2 ≠ 1 then
    .err (.decodedOutOfRange entry.2)
  else
    .ok ()

def validateSparsePlane (plane : SparsePlane) : Outcome FormatError ℕ :=
  if signBit ≤ plane.k then
    .err (.saltRowTooLong plane.k)
  else if plane.scales.length ≠ numBlocks plane.k then
    .err (.wrongBlockLen (numBlocks plane.k) plane.scales.length)
  else if plane.idx.length ≠ plane.sign.length then
    .err (.wrongBlockLen plane.idx.length plane.sign.length)
  else if (plane.idx.zip plane.idx.tail).any fun pair => pair.2 ≤ pair.1 then
    .err .saltNonCanonicalSparseIndices
  else do
    (plane.idx.zip plane.sign).forM (checkSignedColumn plane.k)
    return numBlocks plane.k

def placeSign (k : ℕ) (trits : List Trit) (entry : ℕ × ℤ) : Outcome FormatError (List Trit) :=
  if k ≤ entry.1 then
    .err (.wrongBlockLen k entry.1)
  else do
    let trit ← Trit.fromI8 entry.2
    setIndex trits entry.1 trit

def sparseToTq20 (plane : SparsePlane) : Outcome FormatError (List UInt8) := do
  let blocks ← validateSparsePlane plane
  let trits ← (plane.idx.zip plane.sign).foldlM (placeSign plane.k)
    (List.replicate plane.k .zero)
  packTq20Row trits plane.scales (List.replicate (blocks * tq20BlockBytes) 0)

inductive PlaneRepr where
  | dense (bytes : List UInt8)
  | sparse (plane : SparsePlane)
deriving DecidableEq, Repr

def choosePlaneRepr {φ : Type} (arithmetic : DensityArithmetic φ) (packed : List UInt8) (k : ℕ)
    (maxDensity : φ) : Outcome FormatError PlaneRepr :=
  match sparseFromTq20 packed k with
  | .ok sparse =>
    if arithmetic.lt (sparse.density arithmetic) maxDensity then
      .ok (.sparse sparse)
    else
      .ok (.dense packed)
  | .err .saltNonZeroPadding => .ok (.dense packed)
  | .err error => .err error
  | .panic => .panic

def expandPlaneRepr : PlaneRepr → Outcome FormatError (List UInt8)
  | .dense bytes => .ok bytes
  | .sparse plane => sparseToTq20 plane

def encodeEntry (k : ℕ) (entry : ℕ × ℤ) : Outcome FormatError (List UInt8) :=
  if k ≤ entry.1 then
    .err (.decodedOutOfRange (asI32 entry.1))
  else if entry.2 = 1 then
    .ok (leBytes 4 entry.1)
  else if entry.2 = -1 then
    .ok (leBytes 4 (entry.1 ||| signBit))
  else
    .err (.decodedOutOfRange entry.2)

def packSparsePlane (plane : SparsePlane) : Outcome FormatError (List UInt8) :=
  if signBit ≤ plane.k then
    .err (.saltRowTooLong plane.k)
  else do
    let _ ← validateSparsePlane plane
    let entries ← (plane.idx.zip plane.sign).mapM (encodeEntry plane.k)
    return sparseMagic ++ [UInt8.ofNat sparseVersion] ++ [0] ++ leBytes 4 plane.k ++
      leBytes 4 plane.idx.length ++ plane.scales.flatMap (leBytes 2) ++ entries.flatten

def unpackSparsePlane (bytes : List UInt8) : Outcome FormatError SparsePlane := do
  let plane ← SparsePlaneRef.parse bytes
  return plane.toOwned

end Tritium.Salt
