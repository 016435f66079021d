import Tritium.Package.Proof.Ranges

/-!
# What the reader accepts

An accepted package is the header, a region of payloads, the manifest, the directory and the footer,
one behind the other. The description is exact, so it serves for the soundness of the reader and for
the round trip alike.
-/

namespace Tritium.Package

open List
open Cbor Packing

variable {bytes footer : List UInt8} {directoryOffset directoryLength manifestLength : ℕ}
  {digest : List UInt8 → Digest} {payloads manifest directory : List UInt8} {maxManifest : ℕ}
  {manifest directory : List UInt8}

theorem packageHeader_length (manifestOffset manifestLength directoryOffset directoryLength : ℕ) :
    (packageHeader manifestOffset manifestLength directoryOffset directoryLength).length =
      tritHeaderBytes := by
  simp [packageHeader, tritMagic, tritHeaderBytes]

theorem packageFooter_length (digest : List UInt8 → Digest) (manifest directory : List UInt8) :
    (packageFooter digest manifest directory).length = footerBytes := by
  simp [packageFooter, tritFooterMagic, footerBytes, Digest.length_eq]

theorem readField_eq_ok_iff {offset width value : ℕ} :
    readField bytes offset width = .ok value ↔
      value < 256 ^ width ∧ subslice bytes offset (offset + width) = some (leBytes width value) := by
  rw [readField, bind_eq_ok_iff]
  simp only [okOr_eq_ok_iff, pure_eq_ok, ok.injEq]
  constructor
  · rintro ⟨field, hfield, rfl⟩
    obtain rfl := Nat.add_left_cancel (add_length_of_subslice hfield)
    rw [leBytes_ofLeBytes rfl]
    exact ⟨ofLeBytes_lt field, hfield⟩
  · rintro ⟨hvalue, hfield⟩
    exact ⟨_, hfield, ofLeBytes_leBytes width hvalue⟩

/-- The fields the reader takes from a header are those the writer puts there. -/
theorem header_eq_iff {header : List UInt8} {manifestOffset : ℕ} :
    header = packageHeader manifestOffset manifestLength directoryOffset directoryLength ↔
      header.length = tritHeaderBytes ∧ header.take 8 = tritMagic ∧
      subslice header 8 10 = some (leBytes 2 tritPackageMajor) ∧
      subslice header 10 12 = some (leBytes 2 tritPackageMinor) ∧
      subslice header 12 16 = some (leBytes 4 tritFeaturesSupported) ∧
      subslice header 16 24 = some (leBytes 8 manifestOffset) ∧
      subslice header 24 32 = some (leBytes 8 manifestLength) ∧
      subslice header 32 40 = some (leBytes 8 directoryOffset) ∧
      subslice header 40 48 = some (leBytes 8 directoryLength) ∧
      header.drop 48 = replicate 16 0 := by
  have hwhole : header = packageHeader manifestOffset manifestLength directoryOffset
      directoryLength ↔ header.length = tritHeaderBytes ∧ subslice header 0 tritHeaderBytes =
        some (packageHeader manifestOffset manifestLength directoryOffset directoryLength) := by
    constructor
    · rintro rfl
      have hlength :=
        packageHeader_length manifestOffset manifestLength directoryOffset directoryLength
      refine ⟨hlength, ?_⟩
      exact subslice_whole_iff.mpr rfl
    · rintro ⟨hlength, hheader⟩
      rw [← hlength] at hheader
      exact (subslice_whole_iff.mp hheader).symm
  rw [hwhole]
  refine and_congr_right fun hlength => ?_
  rw [tritHeaderBytes] at hlength
  have hmagic : subslice header 0 8 = some tritMagic ↔ header.take 8 = tritMagic := by
    rw [subslice, if_pos ⟨Nat.zero_le 8, by omega⟩, Option.some.injEq, drop_zero]
  have hreserved : subslice header 48 64 = some (replicate 16 0) ↔
      header.drop 48 = replicate 16 0 := by
    rw [subslice, if_pos ⟨by decide, by omega⟩, Option.some.injEq, ← hlength, take_length]
  have hmagicLength : tritMagic.length = 8 := rfl
  rw [← hmagic, ← hreserved, packageHeader]
  simp [subslice_append_iff_of_length, leBytes_length, hmagicLength, tritHeaderBytes]

theorem readField_of_header {manifestOffset : ℕ} (hheader : subslice bytes 0 tritHeaderBytes =
      some (packageHeader manifestOffset manifestLength directoryOffset directoryLength))
    (hmanifest : manifestOffset + manifestLength < 2 ^ 64)
    (hdirectory : directoryOffset + directoryLength < 2 ^ 64) :
    readField bytes 16 8 = .ok manifestOffset ∧ readField bytes 24 8 = .ok manifestLength ∧
      readField bytes 32 8 = .ok directoryOffset ∧ readField bytes 40 8 = .ok directoryLength := by
  have hmagic : tritMagic.length = 8 := rfl
  rw [packageHeader] at hheader
  simp only [append_assoc, subslice_append_iff_of_length, leBytes_length, hmagic,
    Nat.reduceAdd] at hheader
  obtain ⟨_, _, _, _, hmanifestOffset, hmanifestLength, hdirectoryOffset, hdirectoryLength, _⟩ :=
    hheader
  exact ⟨readField_eq_ok_iff.mpr ⟨by omega, hmanifestOffset⟩,
    readField_eq_ok_iff.mpr ⟨by omega, hmanifestLength⟩,
    readField_eq_ok_iff.mpr ⟨by omega, hdirectoryOffset⟩,
    readField_eq_ok_iff.mpr ⟨by omega, hdirectoryLength⟩⟩

/-- The lengths and offsets of the header fit each other and the length of the package. -/
structure LayoutFits (length maxManifest maxDirectory : ℕ) (layout : PackageReadLayout) :
    Prop where
  long : tritHeaderBytes + footerBytes ≤ length
  behind_header : tritHeaderBytes ≤ layout.manifestStart
  manifest_le : layout.manifestStart ≤ layout.manifestStop
  adjacent : layout.manifestStop = layout.directoryStart
  directory_le : layout.directoryStart ≤ layout.directoryStop
  before_footer : layout.directoryStop + footerBytes = length
  manifest_limit : layout.manifestStop - layout.manifestStart ≤ min maxManifestBytes maxManifest
  directory_limit :
    layout.directoryStop - layout.directoryStart ≤ min maxDirectoryBytes maxDirectory
  small : layout.directoryStop < 2 ^ 64

def PackageReadLayout.header (layout : PackageReadLayout) : List UInt8 :=
  packageHeader layout.manifestStart (layout.manifestStop - layout.manifestStart)
    layout.directoryStart (layout.directoryStop - layout.directoryStart)

theorem any_ne_zero_iff (bytes : List UInt8) :
    ¬ bytes.any (· ≠ 0) = true ↔ bytes = replicate bytes.length 0 := by
  rw [eq_replicate_iff]
  simp

theorem readLayout_eq_ok_iff {length : ℕ} {header : List UInt8} {maxManifest maxDirectory : ℕ}
    {layout : PackageReadLayout} :
    readLayout length header footer maxManifest maxDirectory = .ok layout ↔
      LayoutFits length maxManifest maxDirectory layout ∧ header = layout.header ∧
        footer.length = footerBytes ∧ footer.take 8 = tritFooterMagic := by
  simp only [readLayout, refuse_eq_ok_iff, bind_eq_ok_iff, readField_eq_ok_iff, okOr_eq_ok_iff,
    checkedAdd_eq_some_iff, sub_eq_ok_iff, pure_eq_ok, ok.injEq, any_ne_zero_iff, not_or, not_lt,
    ne_eq, not_not]
  constructor
  · rintro ⟨⟨hlong, hlength, hfooterLength⟩, ⟨hmagic, hfooterMagic⟩, _, ⟨_, hmajor⟩, _, ⟨_, hminor⟩,
      ⟨rfl, rfl⟩, _, ⟨_, hfeatures⟩, rfl, hreserved, manifestOffset, ⟨_, hmanifestOffset⟩,
      manifestLength, ⟨_, hmanifestLength⟩, directoryOffset, ⟨_, hdirectoryOffset⟩,
      directoryLength, ⟨_, hdirectoryLength⟩, ⟨hmanifestLimit, hdirectoryLimit⟩, _, ⟨_, rfl⟩, _,
      ⟨hsmall, rfl⟩, _, ⟨_, rfl⟩, ⟨hheader, rfl, hfooter⟩, rfl⟩
    refine ⟨?_, ?_, hfooterLength, hfooterMagic⟩
    · refine ⟨hlong, hheader, Nat.le_add_right _ _, rfl, Nat.le_add_right _ _, ?_, ?_, ?_, hsmall⟩
      · dsimp only
        omega
      · rwa [Nat.add_sub_cancel_left]
      · rwa [Nat.add_sub_cancel_left]
    · rw [PackageReadLayout.header]
      rw [Nat.add_sub_cancel_left, Nat.add_sub_cancel_left]
      rw [length_drop, hlength] at hreserved
      exact header_eq_iff.mpr ⟨hlength, hmagic, hmajor, hminor, hfeatures, hmanifestOffset,
        hmanifestLength, hdirectoryOffset, hdirectoryLength, hreserved⟩
  · rintro ⟨hfits, hheader, hfooterLength, hfooterMagic⟩
    obtain ⟨manifestStart, manifestStop, directoryStart, directoryStop⟩ := layout
    obtain ⟨hlong, hbehind, hmanifest, hadjacent, hdirectory, hfooter, hmanifestLimit,
      hdirectoryLimit, hsmall⟩ := hfits
    rw [PackageReadLayout.header] at hheader
    dsimp only at hbehind hmanifest hadjacent hdirectory hfooter hmanifestLimit hdirectoryLimit
    dsimp only at hsmall hheader
    obtain ⟨hlength, hmagic, hmajor, hminor, hfeatures, hmanifestOffset, hmanifestLength,
      hdirectoryOffset, hdirectoryLength, hreserved⟩ := header_eq_iff.mp hheader
    refine ⟨⟨hlong, hlength, hfooterLength⟩, ⟨hmagic, hfooterMagic⟩, _, ⟨by decide, hmajor⟩, _,
      ⟨by decide, hminor⟩, ⟨rfl, rfl⟩, _, ⟨by decide, hfeatures⟩, rfl, ?_, _,
      ⟨by omega, hmanifestOffset⟩, _, ⟨by omega, hmanifestLength⟩, _,
      ⟨by omega, hdirectoryOffset⟩, _, ⟨by omega, hdirectoryLength⟩,
      ⟨hmanifestLimit, hdirectoryLimit⟩, _, ⟨by omega, rfl⟩, _, ⟨by omega, rfl⟩, _,
      ⟨by omega, rfl⟩, ⟨hbehind, by omega, by omega⟩, ?_⟩
    · rw [hreserved, length_replicate]
    · rw [Nat.add_sub_cancel' hmanifest, Nat.add_sub_cancel' hdirectory]

def packageBytes (digest : List UInt8 → Digest) (payloads manifest directory : List UInt8) :
    List UInt8 :=
  packageHeader (tritHeaderBytes + payloads.length) manifest.length
      (tritHeaderBytes + payloads.length + manifest.length) directory.length ++
    (payloads ++ (manifest ++ (directory ++ packageFooter digest manifest directory)))

theorem packageBytes_length (digest : List UInt8 → Digest)
    (payloads manifest directory : List UInt8) :
    (packageBytes digest payloads manifest directory).length =
      tritHeaderBytes + payloads.length + manifest.length + directory.length + footerBytes := by
  simp only [packageBytes, length_append, packageHeader_length, packageFooter_length, add_assoc]

def layoutOf (payloads manifest directory : List UInt8) : PackageReadLayout where
  manifestStart := tritHeaderBytes + payloads.length
  manifestStop := tritHeaderBytes + payloads.length + manifest.length
  directoryStart := tritHeaderBytes + payloads.length + manifest.length
  directoryStop := tritHeaderBytes + payloads.length + manifest.length + directory.length

theorem layoutOf_header (payloads manifest directory : List UInt8) :
    (layoutOf payloads manifest directory).header =
      packageHeader (tritHeaderBytes + payloads.length) manifest.length
        (tritHeaderBytes + payloads.length + manifest.length) directory.length := by
  rw [PackageReadLayout.header]
  dsimp only [layoutOf]
  simp

theorem layoutOf_fits (hmanifest : manifest.length ≤ min maxManifestBytes maxManifest)
    (hdirectory : directory.length ≤ maxDirectoryBytes)
    (hsmall : tritHeaderBytes + payloads.length + manifest.length + directory.length < 2 ^ 64) :
    LayoutFits (packageBytes digest payloads manifest directory).length maxManifest
      maxDirectoryBytes (layoutOf payloads manifest directory) := by
  rw [packageBytes_length]
  refine ⟨by omega, Nat.le_add_right _ _, Nat.le_add_right _ _, rfl, Nat.le_add_right _ _, rfl, ?_,
    ?_, hsmall⟩
  · dsimp only [layoutOf]
    rwa [Nat.add_sub_cancel_left]
  · dsimp only [layoutOf]
    rw [Nat.add_sub_cancel_left]
    omega

theorem footer_eq_iff :
    footer = packageFooter digest manifest directory ↔
      footer.length = footerBytes ∧ footer.take 8 = tritFooterMagic ∧
        (digest manifest).bytes = (footer.take 40).drop 8 ∧
        (digest directory).bytes = footer.drop 40 := by
  constructor
  · rintro rfl
    obtain ⟨hmagic, hmanifest, hdirectory, _⟩ := parts_of_append tritFooterMagic
      (digest manifest).bytes (digest directory).bytes (rfl : _ = 8)
      (by rw [(digest manifest).length_eq] : _ = 40)
    exact ⟨packageFooter_length digest manifest directory, hmagic, hmanifest.symm, hdirectory.symm⟩
  · rintro ⟨_, hmagic, hmanifest, hdirectory⟩
    have htake : footer.take 8 = (footer.take 40).take 8 := by rw [take_take]; rfl
    rw [packageFooter, ← hmagic, hmanifest, hdirectory, htake, take_append_drop, take_append_drop]

theorem validateMetadataDigests_eq_ok_iff :
    validateMetadataDigests digest manifest directory footer = .ok () ↔
      (digest manifest).bytes = (footer.take 40).drop 8 ∧
        (digest directory).bytes = footer.drop 40 := by
  simp [validateMetadataDigests]

/-- What the reader establishes about the parts of a package. -/
structure Readable (codec : Codec) (digest : List UInt8 → Digest) (maxManifest : ℕ)
    (bytes payloads directory : List UInt8) (package : TritPackage) : Prop where
  parts : bytes = packageBytes digest payloads package.manifest directory
  whole : package.bytes = bytes
  manifest_limit : package.manifest.length ≤ min maxManifestBytes maxManifest
  directory_limit : directory.length ≤ maxDirectoryBytes
  small : tritHeaderBytes + payloads.length + package.manifest.length + directory.length < 2 ^ 64
  manifest_valid : validateCanonicalManifest codec package.manifest = .ok ()
  directory_valid : decodeDirectory codec directory = .ok package.blobs
  accounted : Accounted digest bytes (tritHeaderBytes + payloads.length) package.blobs

variable {codec : Codec} {package : TritPackage}

theorem packageBytes_slices (hparts : bytes = packageBytes digest payloads manifest directory) :
    subslice bytes 0 tritHeaderBytes = some (packageHeader (tritHeaderBytes + payloads.length)
      manifest.length (tritHeaderBytes + payloads.length + manifest.length) directory.length) ∧
    subslice bytes tritHeaderBytes (tritHeaderBytes + payloads.length) = some payloads ∧
    subslice bytes (tritHeaderBytes + payloads.length)
      (tritHeaderBytes + payloads.length + manifest.length) = some manifest ∧
    subslice bytes (tritHeaderBytes + payloads.length + manifest.length)
      (tritHeaderBytes + payloads.length + manifest.length + directory.length) = some directory ∧
    subslice bytes (tritHeaderBytes + payloads.length + manifest.length + directory.length)
      bytes.length = some (packageFooter digest manifest directory) := by
  have hall := subslice_whole_iff.mpr hparts.symm
  rw [packageBytes] at hall
  simp only [subslice_append_iff_of_length, packageHeader_length, zero_add] at hall
  exact hall

theorem Readable.manifestOffset {payloads directory : List UInt8}
    (hreadable : Readable codec digest maxManifest bytes payloads directory package) :
    readField bytes 16 8 = .ok (tritHeaderBytes + payloads.length) := by
  obtain ⟨hheader, _⟩ := packageBytes_slices hreadable.parts
  have hsmall := hreadable.small
  exact (readField_of_header hheader (by omega) (by omega)).1

/-- **What the reader accepts.** -/
theorem readTritPackageWithManifestLimit_eq_ok_iff :
    readTritPackageWithManifestLimit codec digest bytes maxManifest = .ok package ↔
      ∃ payloads directory, Readable codec digest maxManifest bytes payloads directory package := by
  simp only [readTritPackageWithManifestLimit, refuse_eq_ok_iff, bind_eq_ok_iff, Unique.exists_iff,
    PUnit.default_eq_unit, sub_eq_ok_iff, slice_eq_ok_iff, readLayout_eq_ok_iff, okOr_eq_ok_iff,
    validateMetadataDigests_eq_ok_iff, validateBlobRanges_eq_ok_iff, pure_eq_ok, ok.injEq, not_lt]
  constructor
  · rintro ⟨_, _, ⟨_, rfl⟩, footer, hfooter, _, hheader, layout,
      ⟨hfits, hfields, hfooterLength, hfooterMagic⟩, manifest, hmanifest, directory, hdirectory,
      hdigests, hvalid, blobs, hblobs, haccounted, rfl⟩
    have hfooterParts := footer_eq_iff.mpr ⟨hfooterLength, hfooterMagic, hdigests⟩
    have hmanifestLength := length_of_subslice hmanifest
    have hdirectoryLength := length_of_subslice hdirectory
    have hadjacent := hfits.adjacent
    have hbefore := hfits.before_footer
    have hbehind := hfits.behind_header
    have hmanifestLe := hfits.manifest_le
    have hdirectoryLe := hfits.directory_le
    obtain ⟨payloads, hpayloads⟩ : ∃ payloads,
        subslice bytes tritHeaderBytes layout.manifestStart = some payloads :=
      ⟨_, if_pos ⟨hbehind, by omega⟩⟩
    have hpayloadsLength := length_of_subslice hpayloads
    have hfooterStart : bytes.length - footerBytes = layout.directoryStop := by omega
    rw [hfooterStart] at hfooter
    rw [← hadjacent] at hdirectory
    have hstart : tritHeaderBytes + payloads.length = layout.manifestStart := by omega
    have hdirectoryStart : tritHeaderBytes + payloads.length + manifest.length =
        layout.directoryStart := by omega
    refine ⟨payloads, directory, ?_, rfl, ?_, ?_, ?_, hvalid, hblobs, ?_⟩
    · rw [packageBytes, hdirectoryStart, hstart, hmanifestLength, hdirectoryLength, ← hfooterParts]
      change bytes = layout.header ++ _
      rw [← hfields]
      refine (subslice_whole_iff.mp ?_).symm
      simp only [subslice_append_iff]
      exact ⟨_, hheader, _, hpayloads, _, hmanifest, _, hdirectory, hfooter⟩
    · rw [hmanifestLength]
      exact hfits.manifest_limit
    · rw [hdirectoryLength]
      exact hfits.directory_limit.trans (min_le_left _ _)
    · have hsmall := hfits.small
      dsimp only
      omega
    · rwa [hstart]
  · rintro ⟨payloads, directory, hparts, hwhole, hmanifestLimit, hdirectoryLimit, hsmall, hvalid,
      hblobs, haccounted⟩
    obtain ⟨hheader, _, hmanifest, hdirectory, hfooter⟩ := packageBytes_slices hparts
    have hfits := @layoutOf_fits digest _ _ _ _ hmanifestLimit hdirectoryLimit hsmall
    rw [← hparts] at hfits
    have hbefore := hfits.before_footer
    dsimp only [layoutOf] at hbefore
    have hfooterStart : tritHeaderBytes + payloads.length + package.manifest.length +
        directory.length = bytes.length - footerBytes := by omega
    rw [hfooterStart] at hfooter
    obtain ⟨hfooterLength, hfooterMagic, hdigests⟩ := footer_eq_iff.mp
      (Eq.refl (packageFooter digest package.manifest directory))
    exact ⟨hfits.long, _, ⟨by omega, rfl⟩, _, hfooter, _, hheader, _,
      ⟨hfits, (layoutOf_header _ _ _).symm, hfooterLength, hfooterMagic⟩, _, hmanifest, _,
      hdirectory, hdigests, hvalid, _, hblobs, haccounted, hwhole ▸ rfl⟩

end Tritium.Package
