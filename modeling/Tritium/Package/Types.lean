import Tritium.Lib.Cbor
import Tritium.Lib.Machine

/-!
# Packages of content-addressed blobs

The vocabulary of the `.trit` envelope. A digest function stands for BLAKE3 throughout, so nothing
below depends on which function it is.
-/

namespace Tritium.Package

/-- `[u8; 32]`: the digest of a byte string, and the identity of a blob. -/
@[ext]
structure Digest where
  bytes : List UInt8
  length_eq : bytes.length = 32

namespace Digest

instance : DecidableEq Digest := fun left right =>
  decidable_of_iff (left.bytes = right.bytes) Digest.ext_iff.symm

def ofBytes (bytes : List UInt8) : Option Digest :=
  if hlength : bytes.length = 32 then some ⟨bytes, hlength⟩ else none

protected def compare (left right : Digest) : Ordering := compare left.bytes right.bytes

theorem ofBytes_eq_some_iff {bytes : List UInt8} {digest : Digest} :
    ofBytes bytes = some digest ↔ digest.bytes = bytes := by
  obtain ⟨stored, hlength⟩ := digest
  rw [ofBytes]
  constructor
  · intro heq
    split at heq
    · rw [Option.some.injEq, mk.injEq] at heq
      exact heq.symm
    · cases heq
  · rintro rfl
    exact dif_pos hlength

instance : Std.TransCmp Digest.compare := transCmp_comap compare Digest.bytes

instance : Std.LawfulEqCmp Digest.compare where
  eq_of_compare {left right} heq := by
    rw [mk.injEq]
    exact Std.LawfulEqCmp.eq_of_compare heq

end Digest

inductive DType where
  | ternary | i4 | i8 | u8 | f8e4m3 | f8e5m2 | f4e2m1 | f16 | bf16 | f32
deriving DecidableEq, Repr

namespace DType

protected def toString : DType → String
  | ternary => "ternary"
  | i4 => "i4"
  | i8 => "i8"
  | u8 => "u8"
  | f8e4m3 => "f8e4m3"
  | f8e5m2 => "f8e5m2"
  | f4e2m1 => "f4e2m1"
  | f16 => "f16"
  | bf16 => "bf16"
  | f32 => "f32"

end DType

def tritDtypeText : List (String × DType) :=
  [("ternary", .ternary), ("i4", .i4), ("i8", .i8), ("u8", .u8), ("f8e4m3", .f8e4m3),
    ("f8e5m2", .f8e5m2), ("f4e2m1", .f4e2m1), ("f16", .f16), ("bf16", .bf16), ("f32", .f32)]

inductive TritBlobKind where
  | additiveTensor
  | denseTensor (dtype : DType)
  | asset (name : String)
deriving DecidableEq

structure TritBlobInfo where
  id : Digest
  kind : TritBlobKind
  offset : UInt64
  length : UInt64
deriving DecidableEq

inductive TritPackageError where
  | truncated
  | badMagic
  | unsupportedVersion (major minor : ℕ)
  | unknownRequiredFeatures (bits : ℕ)
  | nonZeroReserved
  | lengthOverflow
  | metadataLimitExceeded
  | packageLimitExceeded (requested limit : ℕ)
  | nonCanonicalManifest
  | invalidDirectory
  | digestMismatch
  | blobDigestMismatch (id : Digest)
  | blobIdentityCollision
  | emptyAssetName
deriving DecidableEq

def kindSortKey : TritBlobKind → ℕ × List UInt8
  | .additiveTensor => (0, [])
  | .denseTensor dtype => (1, Cbor.utf8 dtype.toString)
  | .asset name => (2, Cbor.utf8 name)

def compareKinds (left right : TritBlobKind) : Ordering :=
  (compare (kindSortKey left).1 (kindSortKey right).1).then
    (compare (kindSortKey left).2 (kindSortKey right).2)

def compareBlobEntries (left right : TritBlobInfo) : Ordering :=
  (Digest.compare left.id right.id).then (compareKinds left.kind right.kind)

end Tritium.Package
