import Tritium.Package.Proof.RoundTrip

/-!
# Every byte of an accepted package is accounted for
-/

namespace Tritium.Package

open Cbor Packing

variable {position : ℕ}

section Payloads

variable {digest : List UInt8 → Digest} {bytes : List UInt8} {manifestOffset : ℕ}
  {blobs : List TritBlobInfo} {range : ℕ × ℕ} {left right : TritBlobInfo}

theorem mem_collected_iff (hshared : Consistent TritBlobInfo.id blobRange blobs) {id : Digest} :
    (id, range) ∈ (collect Digest.compare TritBlobInfo.id blobRange blobs).toList ↔
      ∃ blob ∈ blobs, blob.id = id ∧ blobRange blob = range := by
  simp [getElem?_collect_iff _ hshared]

theorem mem_payloadRanges_iff (hshared : Consistent TritBlobInfo.id blobRange blobs) :
    range ∈ sortBy compareRanges (payloadRanges blobs) ↔ ∃ blob ∈ blobs, blobRange blob = range := by
  rw [(sortBy_perm compareRanges _).mem_iff, payloadRanges, List.mem_map]
  constructor
  · rintro ⟨⟨id, _⟩, hmem, rfl⟩
    obtain ⟨blob, hblob, _, hrange⟩ := (mem_collected_iff hshared).mp hmem
    exact ⟨blob, hblob, hrange⟩
  · rintro ⟨blob, hblob, hrange⟩
    exact ⟨(blob.id, range), (mem_collected_iff hshared).mpr ⟨blob, hblob, rfl, hrange⟩, rfl⟩

theorem blobRange_le (blob : TritBlobInfo) : (blobRange blob).1 ≤ (blobRange blob).2 :=
  Nat.le_add_right _ _

theorem Accounted.apart (haccounted : Accounted digest bytes manifestOffset blobs)
    (hleft : left ∈ blobs) (hright : right ∈ blobs) (hne : left.id ≠ right.id) :
    (blobRange left).2 ≤ (blobRange right).1 ∨ (blobRange right).2 ≤ (blobRange left).1 := by
  have hranges : ∀ range ∈ sortBy compareRanges (payloadRanges blobs), range.1 ≤ range.2 := by
    intro range hrange
    obtain ⟨blob, _, rfl⟩ := (mem_payloadRanges_iff haccounted.shared).mp hrange
    exact blobRange_le blob
  -- Lying apart is symmetric, so it passes from the sorted ranges to the collected entries.
  have hsorted : (sortBy compareRanges (payloadRanges blobs)).Pairwise
      fun left right => left.2 ≤ right.1 ∨ right.2 ≤ left.1 :=
    (haccounted.swept.pairwise hranges).imp Or.inl
  have hcollected := hsorted.perm (sortBy_perm compareRanges _) Or.symm
  rw [payloadRanges, List.pairwise_map] at hcollected
  have hsymm : Std.Symm fun left right : Digest × ℕ × ℕ =>
      left.2.2 ≤ right.2.1 ∨ right.2.2 ≤ left.2.1 := ⟨fun _ _ => Or.symm⟩
  exact hcollected.forall ((mem_collected_iff haccounted.shared).mpr
    ⟨left, hleft, rfl, rfl⟩) ((mem_collected_iff haccounted.shared).mpr ⟨right, hright, rfl, rfl⟩)
    fun heq => hne (congrArg Prod.fst heq)

def Contains (blob : TritBlobInfo) (position : ℕ) : Prop :=
  (blobRange blob).1 ≤ position ∧ position < (blobRange blob).2

theorem Accounted.same_of_overlap (haccounted : Accounted digest bytes manifestOffset blobs)
    (hleft : left ∈ blobs) (hright : right ∈ blobs) (hinLeft : Contains left position)
    (hinRight : Contains right position) :
    left.id = right.id := by
  by_contra hne
  obtain ⟨_, _⟩ := hinLeft
  obtain ⟨_, _⟩ := hinRight
  obtain _ | _ := haccounted.apart hleft hright hne
  · omega
  · omega

end Payloads

inductive Part where
  | header
  | payload (id : Digest)
  | padding
  | manifest
  | directory
  | footer

/-- Whether a byte belongs to a part. Padding is what lies in no payload, and it has to be zero. -/
def Part.Covers (package : TritPackage) (layout : PackageReadLayout) : Part → ℕ → Prop
  | header, position => position < tritHeaderBytes
  | payload id, position => ∃ blob ∈ package.blobs, blob.id = id ∧ Contains blob position
  | padding, position => tritHeaderBytes ≤ position ∧ position < layout.manifestStart ∧
      (∀ blob ∈ package.blobs, ¬ Contains blob position) ∧ package.bytes[position]? = some 0
  | manifest, position => layout.manifestStart ≤ position ∧ position < layout.manifestStop
  | directory, position => layout.directoryStart ≤ position ∧ position < layout.directoryStop
  | footer, position => layout.directoryStop ≤ position ∧ position < package.bytes.length

/-- The parts in the order of the file; payloads and padding share one zone. -/
def Part.zone : Part → ℕ
  | header => 0
  | payload _ => 1
  | padding => 1
  | manifest => 2
  | directory => 3
  | footer => 4

def zoneAt (layout : PackageReadLayout) (position : ℕ) : ℕ :=
  if position < tritHeaderBytes then 0
  else if position < layout.manifestStart then 1
  else if position < layout.manifestStop then 2
  else if position < layout.directoryStop then 3
  else 4

theorem Part.eq_of_zone_eq {left right : Part} (hzone : left.zone = right.zone)
    (hne : left.zone ≠ 1) : left = right := by
  cases left <;> cases right <;> simp_all [zone]

theorem Part.of_zone_eq_one {part : Part} (hzone : part.zone = 1) :
    (∃ id, part = payload id) ∨ part = padding := by
  cases part <;> simp_all [zone]

section Parts

variable {digest : List UInt8 → Digest} {package : TritPackage} {layout : PackageReadLayout}
  {maxManifest maxDirectory : ℕ}
  (hfits : LayoutFits package.bytes.length maxManifest maxDirectory layout)
  (haccounted : Accounted digest package.bytes layout.manifestStart package.blobs)

include hfits haccounted

theorem Part.Covers.zoneAt_eq {part : Part} (hcovers : part.Covers package layout position) :
    zoneAt layout position = part.zone := by
  have hbehind := hfits.behind_header
  have hmanifest := hfits.manifest_le
  have hadjacent := hfits.adjacent
  have hdirectory := hfits.directory_le
  rw [zoneAt]
  cases part with
  | header => exact if_pos hcovers
  | payload id =>
    obtain ⟨blob, hblob, _, hstart, hstop⟩ := hcovers
    have hlower := (haccounted.placed blob hblob).behind_header
    have hupper := (haccounted.placed blob hblob).before_manifest
    rw [blobRange] at hstart hstop
    rw [if_neg (by omega), if_pos (by omega), zone]
  | padding => rw [if_neg (not_lt.mpr hcovers.1), if_pos hcovers.2.1, zone]
  | manifest =>
    obtain ⟨hlower, hupper⟩ := hcovers
    rw [if_neg (by omega), if_neg (by omega), if_pos hupper, zone]
  | directory =>
    obtain ⟨hlower, hupper⟩ := hcovers
    rw [if_neg (by omega), if_neg (by omega), if_neg (by omega), if_pos hupper, zone]
  | footer =>
    obtain ⟨_, _⟩ := hcovers
    rw [if_neg (by omega), if_neg (by omega), if_neg (by omega), if_neg (by omega), zone]

theorem Part.Covers.unique {left right : Part} (hleft : left.Covers package layout position)
    (hright : right.Covers package layout position) : left = right := by
  have hzone : left.zone = right.zone :=
    (hleft.zoneAt_eq hfits haccounted).symm.trans (hright.zoneAt_eq hfits haccounted)
  by_cases hregion : left.zone = 1
  · obtain ⟨id, rfl⟩ | rfl := of_zone_eq_one hregion
    · obtain ⟨id', rfl⟩ | rfl := of_zone_eq_one (hzone.symm.trans hregion)
      · obtain ⟨blob, hblob, rfl, hinside⟩ := hleft
        obtain ⟨other, hother, rfl, hinOther⟩ := hright
        rw [haccounted.same_of_overlap hblob hother hinside hinOther]
      · obtain ⟨blob, hblob, _, hinside⟩ := hleft
        exact absurd hinside (hright.2.2.1 blob hblob)
    · obtain ⟨id', rfl⟩ | rfl := of_zone_eq_one (hzone.symm.trans hregion)
      · obtain ⟨other, hother, _, hinOther⟩ := hright
        exact absurd hinOther (hleft.2.2.1 other hother)
      · rfl
  · exact eq_of_zone_eq hzone hregion

theorem exists_covers (hposition : position < package.bytes.length) :
    ∃ part : Part, part.Covers package layout position := by
  have hadjacent := hfits.adjacent
  by_cases hheader : position < tritHeaderBytes
  · exact ⟨.header, hheader⟩
  by_cases hregion : position < layout.manifestStart
  · obtain ⟨range, hrange, hinside⟩ | hzero :=
      haccounted.swept.getElem (not_lt.mp hheader) hregion
    · obtain ⟨blob, hblob, rfl⟩ := (mem_payloadRanges_iff haccounted.shared).mp hrange
      exact ⟨.payload blob.id, blob, hblob, rfl, hinside⟩
    · by_cases hcontained : ∃ blob ∈ package.blobs, Contains blob position
      · obtain ⟨blob, hblob, hinside⟩ := hcontained
        exact ⟨.payload blob.id, blob, hblob, rfl, hinside⟩
      · exact ⟨.padding, not_lt.mp hheader, hregion,
          fun blob hblob hinside => hcontained ⟨blob, hblob, hinside⟩, hzero⟩
  by_cases hmanifest : position < layout.manifestStop
  · exact ⟨.manifest, not_lt.mp hregion, hmanifest⟩
  by_cases hdirectory : position < layout.directoryStop
  · exact ⟨.directory, by omega, hdirectory⟩
  · exact ⟨.footer, not_lt.mp hdirectory, hposition⟩

end Parts

/-- **An accepted package is accounted for.** Its payloads are aligned, lie between the header and
the manifest, and hold bytes of their digest. Payloads of different digests lie apart, and entries
that overlap have one range and one digest. Every byte of the package belongs to exactly one part. -/
theorem readTritPackage_accounts (codec : Codec) (digest : List UInt8 → Digest)
    (bytes : List UInt8) (package : TritPackage)
    (hread : readTritPackage codec digest bytes = .ok package) :
    ∃ layout : PackageReadLayout,
      bytes.take tritHeaderBytes = layout.header ∧
      LayoutFits bytes.length maxManifestBytes maxDirectoryBytes layout ∧
      (∀ blob ∈ package.blobs, Placed layout.manifestStart blob ∧ Holds digest bytes blob) ∧
      (∀ left ∈ package.blobs, ∀ right ∈ package.blobs, left.id ≠ right.id →
        (blobRange left).2 ≤ (blobRange right).1 ∨ (blobRange right).2 ≤ (blobRange left).1) ∧
      (∀ left ∈ package.blobs, ∀ right ∈ package.blobs,
        (∃ position, Contains left position ∧ Contains right position) →
        blobRange left = blobRange right ∧ left.id = right.id) ∧
      ∀ position < bytes.length, ∃! part : Part, part.Covers package layout position := by
  obtain ⟨payloads, directory, hreadable⟩ := readTritPackageWithManifestLimit_eq_ok_iff.mp hread
  have hfits := @layoutOf_fits digest _ _ _ _ hreadable.manifest_limit hreadable.directory_limit
    hreadable.small
  rw [← hreadable.parts] at hfits
  have haccounted : Accounted digest bytes
      (layoutOf payloads package.manifest directory).manifestStart package.blobs :=
    hreadable.accounted
  refine ⟨layoutOf payloads package.manifest directory, ?_, hfits, fun blob hblob =>
    ⟨haccounted.placed blob hblob, haccounted.holds blob hblob⟩, fun left hleft right hright =>
    haccounted.apart hleft hright, ?_, ?_⟩
  · rw [hreadable.parts, layoutOf_header]
    exact List.take_left' (packageHeader_length _ _ _ _)
  · rintro left hleft right hright ⟨position, hinLeft, hinRight⟩
    have hid := haccounted.same_of_overlap hleft hright hinLeft hinRight
    exact ⟨haccounted.shared left hleft right hright hid, hid⟩
  · intro position hposition
    rw [← hreadable.whole] at hposition hfits haccounted
    obtain ⟨part, hcovers⟩ := exists_covers hfits haccounted hposition
    exact ⟨part, hcovers, fun other hother => hother.unique hfits haccounted hcovers⟩

theorem readTritPackage_accounts_sample :
    ∃ package, readTritPackage profileCodec headDigest
        (packageOf headDigest sampleManifest sampleBlobs) = .ok package ∧
      package.blobs.length = 3 ∧ ∃ layout : PackageReadLayout,
        ∀ position < (packageOf headDigest sampleManifest sampleBlobs).length,
          ∃! part : Part, part.Covers package layout position := by
  have hread := readTritPackageWithManifestLimit_eq_ok_iff.mpr
    ⟨_, _, readable_packageOf (@sample_writable profileCodec)⟩
  obtain ⟨layout, _, _, _, _, _, hparts⟩ := readTritPackage_accounts profileCodec headDigest _ _ hread
  exact ⟨_, hread, by decide +kernel, layout, hparts⟩

end Tritium.Package
