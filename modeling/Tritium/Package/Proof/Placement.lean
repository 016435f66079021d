import Tritium.Package.Proof.RoundTrip

/-!
# The placement of the payloads

The reader asks for aligned payloads with zeros between them. The layout specification also fixes
their order and their gaps: ascending digests, each payload at the first aligned offset behind the
one before it. An accepted package comes out of the writer again exactly where it keeps that rule.
-/

namespace Tritium.Package

open Cbor Packing

def readBlob (digest : List UInt8 → Digest) (package : TritPackage) (info : TritBlobInfo) :
    Outcome TritPackageError TritBlob := do
  let bytes ← package.blob digest info
  return ⟨info.kind, bytes⟩

/-- Writes the manifest and the blobs that were read from a package. -/
def rewriteTritPackage (codec : Codec) (digest : List UInt8 → Digest) (package : TritPackage) :
    Outcome TritPackageError (List UInt8) := do
  let blobs ← package.blobs.mapM (readBlob digest package)
  writeTritPackage codec digest package.manifest blobs

variable {codec : Codec} {digest : List UInt8 → Digest} {info : TritBlobInfo}

def rangeContent (bytes : List UInt8) (range : ℕ × ℕ) : List UInt8 :=
  (subslice bytes range.1 range.2).getD []

def blobOf (bytes : List UInt8) (info : TritBlobInfo) : TritBlob :=
  ⟨info.kind, rangeContent bytes (blobRange info)⟩

section Accounted

variable {bytes : List UInt8} {manifestOffset : ℕ} {infos : List TritBlobInfo}
  (haccounted : Accounted digest bytes manifestOffset infos)

include haccounted

theorem subslice_of_mem (hinfo : info ∈ infos) :
    subslice bytes (blobRange info).1 (blobRange info).2 =
      some (rangeContent bytes (blobRange info)) := by
  obtain ⟨content, hcontent, _⟩ := haccounted.holds info hinfo
  rw [rangeContent, hcontent]
  rfl

theorem digest_of_mem (hinfo : info ∈ infos) :
    digest (rangeContent bytes (blobRange info)) = info.id := by
  obtain ⟨content, hcontent, hdigest⟩ := haccounted.holds info hinfo
  rw [rangeContent, hcontent]
  exact hdigest

theorem blobOf_collisionFree : CollisionFree digest (infos.map (blobOf bytes)) := by
  intro left hleft right hright hdigest
  obtain ⟨info, hinfo, rfl⟩ := List.mem_map.mp hleft
  obtain ⟨other, hother, rfl⟩ := List.mem_map.mp hright
  have hid : info.id = other.id := by
    rw [← digest_of_mem haccounted hinfo, ← digest_of_mem haccounted hother]
    exact hdigest
  exact congrArg (rangeContent bytes) (haccounted.shared info hinfo other hother hid)

theorem payloadsOf_blobOf :
    payloadsOf digest (infos.map (blobOf bytes)) =
      (collect Digest.compare TritBlobInfo.id blobRange infos).toList.map
        (Prod.map id (rangeContent bytes)) := by
  have hcollect : collect Digest.compare (fun blob => digest blob.bytes) TritBlob.bytes
      (infos.map (blobOf bytes)) = (collect Digest.compare TritBlobInfo.id blobRange infos).map
          fun _ range => rangeContent bytes range := by
    rw [map_collect Digest.compare haccounted.shared, collect_map]
    apply List.foldl_ext
    intro found info hinfo
    exact congrArg (found.insert · _) (digest_of_mem haccounted hinfo)
  simp [payloadsOf, hcollect]

theorem collected_content :
    ∀ piece ∈ (collect Digest.compare TritBlobInfo.id blobRange infos).toList,
      subslice bytes piece.2.1 piece.2.2 = some (rangeContent bytes piece.2) := by
  rintro ⟨id, range⟩ hpiece
  obtain ⟨info, hinfo, _, rfl⟩ := (getElem?_collect_iff Digest.compare haccounted.shared).mp
    (Std.ExtTreeMap.mem_toList_iff_getElem?_eq_some.mp hpiece)
  exact subslice_of_mem haccounted hinfo

section Tight

variable (htight : Tight tritBlobAlignment manifestOffset tritHeaderBytes (payloadRanges infos))

include htight

theorem region_of_tight :
    subslice bytes tritHeaderBytes manifestOffset = some (region tritBlobAlignment tritHeaderBytes
        (payloadsOf digest (infos.map (blobOf bytes)))) := by
  have hcontent := collected_content haccounted
  have hranges : ∀ range ∈ payloadRanges infos, range.1 ≤ range.2 := by
    intro range hrange
    obtain ⟨piece, hpiece, rfl⟩ := List.mem_map.mp hrange
    exact (subslice_eq_some_iff.mp (hcontent piece hpiece)).1
  have hswept := haccounted.swept
  rw [sortBy_ranges_eq_self hranges (htight.pairwise tritBlobAlignment_pos hranges).2] at hswept
  rw [payloadsOf_blobOf haccounted]
  exact htight.subslice_eq hcontent hswept

theorem placedPayloads_of_tight :
    placedPayloads digest (infos.map (blobOf bytes)) =
      (collect Digest.compare TritBlobInfo.id blobRange infos).toList.map
        fun piece => (piece.1, piece.2.1, rangeContent bytes piece.2) := by
  rw [placedPayloads, payloadsOf_blobOf haccounted]
  exact (htight.layout_eq (collected_content haccounted)).1

/-- The writer gives every blob the offset it was read from. -/
theorem entryOf_of_tight (hinfo : info ∈ infos) :
    entryOf ((infos.map (blobOf bytes)).map (metadataOf digest))
      (metadataOf digest (blobOf bytes info)) = info := by
  obtain ⟨placed, hplaced, hid, _, hentry⟩ := exists_placed_of_blob
    (blobOf_collisionFree haccounted) (List.mem_map_of_mem (f := blobOf bytes) hinfo)
  rw [placedPayloads_of_tight haccounted htight] at hplaced
  obtain ⟨⟨id, range⟩, hpiece, rfl⟩ := List.mem_map.mp hplaced
  rw [blobOf, digest_of_mem haccounted hinfo] at hid
  obtain ⟨other, hother, hotherId, rfl⟩ :=
    (getElem?_collect_iff Digest.compare haccounted.shared).mp
      (Std.ExtTreeMap.mem_toList_iff_getElem?_eq_some.mp hpiece)
  have hrange := haccounted.shared other hother info hinfo (hotherId.trans hid)
  have hlength := length_of_subslice (subslice_of_mem haccounted hinfo)
  rw [hentry, placedEntry, hid, hrange]
  rw [hlength, blobRange, Nat.add_sub_cancel_left, UInt64.ofNat_toNat, UInt64.ofNat_toNat]
  rfl

theorem directoryOf_of_tight (hsorted : Sorted infos) :
    directoryOf digest (infos.map (blobOf bytes)) = infos := by
  refine eq_of_mem_iff compareBlobEntries entriesOf_sorted hsorted fun info => ?_
  rw [directoryOf, mem_entriesOf_iff (blobOf_collisionFree haccounted).lengths]
  simp only [List.mem_map]
  constructor
  · rintro ⟨_, ⟨_, ⟨other, hother, rfl⟩, rfl⟩, rfl⟩
    rw [entryOf_of_tight haccounted htight hother]
    exact hother
  · intro hinfo
    exact ⟨_, ⟨_, ⟨info, hinfo, rfl⟩, rfl⟩, entryOf_of_tight haccounted htight hinfo⟩

end Tight

end Accounted

/-! ### The rule of the layout specification -/

/-- The payloads stand in the order of their digests, each at the first aligned offset behind the
one before it, and the manifest follows at once. -/
def WellPlaced (bytes : List UInt8) (package : TritPackage) : Prop :=
  ∃ manifestOffset, readField bytes 16 8 = .ok manifestOffset ∧
    Tight tritBlobAlignment manifestOffset tritHeaderBytes (payloadRanges package.blobs)

variable {bytes payloads directory : List UInt8} {package : TritPackage}

section Readable

variable (hreadable : Readable codec digest maxManifestBytes bytes payloads directory package)

include hreadable

theorem wellPlaced_iff : WellPlaced bytes package ↔ Tight tritBlobAlignment
    (tritHeaderBytes + payloads.length) tritHeaderBytes (payloadRanges package.blobs) := by
  simp [WellPlaced, hreadable.manifestOffset, ok.injEq]

theorem readBlob_eq (hinfo : info ∈ package.blobs) :
    readBlob digest package info = .ok (blobOf bytes info) := by
  have hslice := subslice_of_mem hreadable.accounted hinfo
  have hdigest := digest_of_mem hreadable.accounted hinfo
  rw [← hreadable.whole] at hslice hdigest ⊢
  rw [readBlob, blob_eq_ok_iff.mpr ⟨(hreadable.accounted.placed info hinfo).small, hslice, hdigest⟩]
  rfl

theorem mem_map_blobOf_iff {blob : TritBlob} :
    blob ∈ package.blobs.map (blobOf bytes) ↔
      ∃ info ∈ package.blobs, readBlob digest package info = .ok blob := by
  rw [List.mem_map]
  refine exists_congr fun info => and_congr_right fun hinfo => ?_
  rw [readBlob_eq hreadable hinfo, ok.injEq]

theorem rewriteTritPackage_eq :
    rewriteTritPackage codec digest package =
      writeTritPackage codec digest package.manifest (package.blobs.map (blobOf bytes)) := by
  rw [rewriteTritPackage, mapM_of_forall_mem fun info hinfo => readBlob_eq hreadable hinfo, ok_bind]

theorem packageOf_of_wellPlaced (hwrites : codec.WritesMinimal)
    (hplaced : WellPlaced bytes package) :
    packageOf digest package.manifest (package.blobs.map (blobOf bytes)) = bytes := by
  have htight := (wellPlaced_iff hreadable).mp hplaced
  have hregion := region_of_tight hreadable.accounted htight
  obtain ⟨_, hpayloads, _⟩ := packageBytes_slices hreadable.parts
  rw [hpayloads, Option.some.injEq] at hregion
  obtain ⟨hlistable, hdirectory⟩ := decodeDirectory_sound hwrites hreadable.directory_valid
  rw [packageOf, ← hregion, directoryOf_of_tight hreadable.accounted htight hlistable.sorted,
    hdirectory, ← hreadable.parts]

theorem writable_of_wellPlaced (hwrites : codec.WritesMinimal) (hsmall : bytes.length < 2 ^ 64)
    (hplaced : WellPlaced bytes package) :
    Writable codec digest package.manifest (package.blobs.map (blobOf bytes)) usizeMax := by
  have htight := (wellPlaced_iff hreadable).mp hplaced
  have hfree := blobOf_collisionFree hreadable.accounted
  obtain ⟨hlistable, hdirectory⟩ := decodeDirectory_sound hwrites hreadable.directory_valid
  have hsize : (planOf digest package.manifest
      ((package.blobs.map (blobOf bytes)).map (metadataOf digest))).size = bytes.length := by
    rw [← packageOf_length hfree, packageOf_of_wellPlaced hreadable hwrites hplaced]
  refine ⟨⟨hreadable.manifest_limit.trans (min_le_left _ _), ?_, hreadable.manifest_valid, ?_⟩,
    hfree, ?_, ?_, ?_⟩
  · rw [List.length_map]
    exact hlistable.count_le
  · exact List.forall_mem_map.mpr hlistable.named
  · change (directoryItem (directoryOf digest (package.blobs.map (blobOf bytes)))).encode.length ≤ _
    rw [directoryOf_of_tight hreadable.accounted htight hlistable.sorted, hdirectory]
    exact hreadable.directory_limit
  · rw [hsize]
    exact hsmall
  · rw [hsize]
    exact Nat.le_sub_one_of_lt hsmall

theorem wellPlaced_of_packageOf
    (hwritable : Writable codec digest package.manifest (package.blobs.map (blobOf bytes)) usizeMax)
    (hpackage : packageOf digest package.manifest (package.blobs.map (blobOf bytes)) = bytes) :
    WellPlaced bytes package := by
  have hfree := hwritable.collision_free
  have hoffset := hwritable.manifestOffset_lt
  have hwritten := readable_packageOf hwritable
  have hread := readTritPackageWithManifestLimit_eq_ok_iff.mpr ⟨_, _, hreadable⟩
  have hreread := readTritPackageWithManifestLimit_eq_ok_iff.mpr ⟨_, _, hwritten⟩
  rw [hpackage, hread, ok.injEq] at hreread
  have hblobs : package.blobs = directoryOf digest (package.blobs.map (blobOf bytes)) :=
    congrArg TritPackage.blobs hreread
  have hranges := payloadRanges_directoryOf hfree hoffset
  rw [← hblobs] at hranges
  refine ⟨_, hpackage ▸ hwritten.manifestOffset, ?_⟩
  rw [hranges, region_length tritBlobAlignment_pos]
  exact tight_layout _ _

end Readable

/-- **Canonical placement.** An accepted package comes out of the writer again exactly where its
payloads are placed by the rule of the layout specification, and two such packages with one manifest
and one set of blobs are one. -/
theorem rewriteTritPackage_eq_ok_iff (codec : Codec) (hwrites : codec.WritesMinimal)
    (digest : List UInt8 → Digest) (bytes : List UInt8) (hsmall : bytes.length < 2 ^ 64)
    (package : TritPackage) (hread : readTritPackage codec digest bytes = .ok package) :
    (rewriteTritPackage codec digest package = .ok bytes ↔ WellPlaced bytes package) ∧
    ∀ bytes' package', readTritPackage codec digest bytes' = .ok package' →
      package'.manifest = package.manifest →
      (∀ blob, (∃ info ∈ package'.blobs, readBlob digest package' info = .ok blob) ↔
        ∃ info ∈ package.blobs, readBlob digest package info = .ok blob) →
      WellPlaced bytes package → WellPlaced bytes' package' → bytes' = bytes := by
  obtain ⟨payloads, directory, hreadable⟩ := readTritPackageWithManifestLimit_eq_ok_iff.mp hread
  constructor
  · rw [rewriteTritPackage_eq hreadable, writeTritPackage,
      writeTritPackageBounded_eq_ok_iff hwrites]
    constructor
    · rintro ⟨hwritable, hpackage⟩
      exact wellPlaced_of_packageOf hreadable hwritable hpackage
    · intro hplaced
      exact ⟨writable_of_wellPlaced hreadable hwrites hsmall hplaced,
        packageOf_of_wellPlaced hreadable hwrites hplaced⟩
  · intro bytes' package' hread' hmanifest hcontents hplaced hplaced'
    obtain ⟨payloads', directory', hreadable'⟩ :=
      readTritPackageWithManifestLimit_eq_ok_iff.mp hread'
    have hmem : ∀ blob, blob ∈ package'.blobs.map (blobOf bytes') ↔
        blob ∈ package.blobs.map (blobOf bytes) := by
      intro blob
      rw [mem_map_blobOf_iff hreadable, mem_map_blobOf_iff hreadable']
      exact hcontents blob
    rw [← packageOf_of_wellPlaced hreadable hwrites hplaced,
      ← packageOf_of_wellPlaced hreadable' hwrites hplaced', hmanifest]
    exact packageOf_congr hmem (blobOf_collisionFree hreadable.accounted)

/-! ### Two packages of the same blobs -/

def orderedBlobs : List TritBlob := [⟨.additiveTensor, [1, 2]⟩, ⟨.additiveTensor, [3]⟩]

theorem orderedBlobs_writable :
    Writable profileCodec headDigest sampleManifest orderedBlobs usizeMax := by
  refine ⟨⟨by decide, by decide, validateCanonicalManifest_sample, ?_⟩, ?_, ?_, ?_, ?_⟩
  · simp [orderedBlobs, metadataOf, TritBlobKind.Named]
  · rw [CollisionFree, Consistent]
    decide +kernel
  · decide +kernel
  · decide +kernel
  · decide +kernel

theorem rewriteTritPackage_eq_ok_iff_ordered :
    ∃ package, readTritPackage profileCodec headDigest
        (packageOf headDigest sampleManifest orderedBlobs) = .ok package ∧
      rewriteTritPackage profileCodec headDigest package =
        .ok (packageOf headDigest sampleManifest orderedBlobs) := by
  have hread := readTritPackageWithManifestLimit_eq_ok_iff.mpr
    ⟨_, _, readable_packageOf orderedBlobs_writable⟩
  refine ⟨_, hread, (rewriteTritPackage_eq_ok_iff profileCodec profileCodec_writesMinimal headDigest
    _ (by decide +kernel) _ hread).1.mpr ⟨513, by decide +kernel, by decide +kernel⟩⟩

def misplacedBlobs : List TritBlobInfo :=
  [⟨headDigest [1, 2], .additiveTensor, 512, 2⟩, ⟨headDigest [3], .additiveTensor, 256, 1⟩]

/-- The same payloads in descending order of their digests. -/
def misplacedPackage : List UInt8 :=
  packageBytes headDigest (List.replicate 192 0 ++ [3] ++ List.replicate 255 0 ++ [1, 2])
    sampleManifest (directoryItem misplacedBlobs).encode

theorem misplacedPackage_accepted :
    readTritPackage profileCodec headDigest misplacedPackage =
      .ok ⟨misplacedPackage, sampleManifest, misplacedBlobs⟩ := by
  decide +kernel

/-- The reader accepts both placements, and the writer turns the one into the other. -/
theorem rewriteTritPackage_misplaced :
    ∃ package package',
      readTritPackage profileCodec headDigest misplacedPackage = .ok package ∧
      readTritPackage profileCodec headDigest
        (packageOf headDigest sampleManifest orderedBlobs) = .ok package' ∧
      package'.manifest = package.manifest ∧
      (∀ blob, (∃ info ∈ package'.blobs, readBlob headDigest package' info = .ok blob) ↔
        ∃ info ∈ package.blobs, readBlob headDigest package info = .ok blob) ∧
      rewriteTritPackage profileCodec headDigest package =
        .ok (packageOf headDigest sampleManifest orderedBlobs) ∧
      packageOf headDigest sampleManifest orderedBlobs ≠ misplacedPackage := by
  have hordered := readable_packageOf orderedBlobs_writable
  obtain ⟨payloads, directory, hmisplaced⟩ :=
    readTritPackageWithManifestLimit_eq_ok_iff.mp misplacedPackage_accepted
  have hblobs : misplacedBlobs.map (blobOf misplacedPackage) = orderedBlobs := by decide +kernel
  have hblobs' : (directoryOf headDigest orderedBlobs).map
      (blobOf (packageOf headDigest sampleManifest orderedBlobs)) = orderedBlobs := by
    decide +kernel
  refine ⟨_, _, misplacedPackage_accepted,
    readTritPackageWithManifestLimit_eq_ok_iff.mpr ⟨_, _, hordered⟩, rfl, fun blob => ?_, ?_,
    by decide +kernel⟩
  · rw [← mem_map_blobOf_iff hordered, ← mem_map_blobOf_iff hmisplaced]
    rw [hblobs, hblobs']
  · rw [rewriteTritPackage_eq hmisplaced]
    rw [hblobs]
    exact (writeTritPackageBounded_eq_ok_iff profileCodec_writesMinimal).mpr
      ⟨orderedBlobs_writable, rfl⟩

end Tritium.Package
