import Tritium.Package.Directory

/-!
# Canonical manifests

The scanner decides about a manifest on its own unless it meets a tag or a compound key. Such a
manifest goes to the reference path: decode it with the general codec, order it, encode it again and
compare.
-/

namespace Tritium.Package

open Cbor

variable (codec : Codec)

/-- `canonicalize_value`, with the levels it may still descend. -/
def canonicalizeValue : ℕ → Item → Outcome TritPackageError Item
  | 0, _ => .err .nonCanonicalManifest
  | levels + 1, .array items => do
    let items ← items.mapM (canonicalizeValue levels)
    return .array items
  | levels + 1, .map entries => do
    let entries ← entries.mapM fun entry => do
      let key ← canonicalizeValue levels entry.1
      let value ← canonicalizeValue levels entry.2
      return (key, value)
    let sorted := sortBy (fun left right => codec.compareCanonical left.1 right.1) entries
    if neighboursAny (fun left right => left.1.same right.1) sorted then
      .err .nonCanonicalManifest
    else
      return .map sorted
  | levels + 1, .tag number inner => do
    let inner ← canonicalizeValue levels inner
    return .tag number inner
  | _ + 1, .float _ => .err .nonCanonicalManifest
  | _ + 1, value => .ok value

def parseCanonicalManifest (bytes : List UInt8) : Outcome TritPackageError Item :=
  if bytes = [] ∨ maxManifestBytes < bytes.length then
    .err .nonCanonicalManifest
  else do
    let value ← okOr (codec.fromReader bytes) .nonCanonicalManifest
    let value ← canonicalizeValue codec rootLevels value
    let encoded ← encodeCborValue codec value
    if encoded ≠ bytes then .err .nonCanonicalManifest else .ok value

def validateCanonicalManifest (bytes : List UInt8) : Outcome TritPackageError Unit :=
  match validate bytes with
  | .ok () => .ok ()
  | .err .reference => do
    let _ ← parseCanonicalManifest codec bytes
    return ()
  | .err .invalid => .err .nonCanonicalManifest
  | .panic => .panic

end Tritium.Package
