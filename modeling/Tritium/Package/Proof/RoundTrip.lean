import Tritium.Package.Proof.Writer

/-!
# Written packages are read back

The directory of a written package accounts for every byte of its region, so the reader accepts it
and finds the contents where the writer put them.
-/

namespace Tritium.Package

open List
open Cbor Packing

variable {codec : Codec} {digest : List UInt8 → Digest} {manifest content : List UInt8}
  {blobs : List TritBlob} {maxBytes : ℕ} {placed : Digest × ℕ × List UInt8}

def placedPayloads (digest : List UInt8 → Digest) (blobs : List TritBlob) :
    List (Digest × ℕ × List UInt8) :=
  layout tritBlobAlignment length tritHeaderBytes (payloadsOf digest blobs)

def placedEntry (kind : TritBlobKind) (placed : Digest × ℕ × List UInt8) : TritBlobInfo :=
  ⟨placed.1, kind, UInt64.ofNat placed.2.1, UInt64.ofNat placed.2.2.length⟩

theorem mem_payloadsOf_iff (hfree : CollisionFree digest blobs) {id : Digest} :
    (id, content) ∈ payloadsOf digest blobs ↔
      ∃ blob ∈ blobs, digest blob.bytes = id ∧ blob.bytes = content := by
  rw [payloadsOf, Std.ExtTreeMap.mem_toList_iff_getElem?_eq_some,
    getElem?_collect_iff Digest.compare hfree]

theorem placedPayloads_pieces :
    (placedPayloads digest blobs).map (fun placed => (placed.1, placed.2.2)) =
      payloadsOf digest blobs :=
  layout_pieces _ _

section

variable (hfree : CollisionFree digest blobs)

include hfree

theorem exists_blob_of_placed (hplaced : placed ∈ placedPayloads digest blobs) :
    ∃ blob ∈ blobs, digest blob.bytes = placed.1 ∧ blob.bytes = placed.2.2 := by
  have hmem := mem_map_of_mem (f := fun placed => (placed.1, placed.2.2)) hplaced
  rw [placedPayloads_pieces] at hmem
  exact (mem_payloadsOf_iff hfree).mp hmem

/-- Every blob has a placed payload, and the entry of the blob says where. -/
theorem exists_placed_of_blob {blob : TritBlob} (hblob : blob ∈ blobs) :
    ∃ placed ∈ placedPayloads digest blobs, placed.1 = digest blob.bytes ∧ placed.2.2 = blob.bytes ∧
      entryOf (blobs.map (metadataOf digest)) (metadataOf digest blob) =
        placedEntry blob.kind placed := by
  have hmem := (mem_payloadsOf_iff hfree).mpr ⟨blob, hblob, rfl, rfl⟩
  rw [← placedPayloads_pieces] at hmem
  obtain ⟨⟨id, offset, content⟩, hplaced, heq⟩ := mem_map.mp hmem
  rw [Prod.mk.injEq] at heq
  obtain ⟨rfl, rfl⟩ := heq
  refine ⟨_, hplaced, rfl, rfl, ?_⟩
  have hlengths : (digest blob.bytes, offset, blob.bytes.length) ∈
      placedLengths (blobs.map (metadataOf digest)) := by
    rw [placedLengths_eq hfree]
    exact mem_map_of_mem (f := Prod.map id (Prod.map id length)) hplaced
  have hoffset : (offsetsOf (blobs.map (metadataOf digest)))[digest blob.bytes]? =
      some (UInt64.ofNat offset) := getElem?_offsetsOf hlengths
  rw [entryOf]
  dsimp only [metadataOf]
  rw [hoffset]
  rfl

theorem exists_placed_of_mem {entry : TritBlobInfo} (hentry : entry ∈ directoryOf digest blobs) :
    ∃ blob ∈ blobs, ∃ placed ∈ placedPayloads digest blobs, placed.1 = digest blob.bytes ∧
      placed.2.2 = blob.bytes ∧ entry = placedEntry blob.kind placed := by
  obtain ⟨metadata, hmetadata, rfl⟩ := (mem_entriesOf_iff hfree.lengths).mp hentry
  obtain ⟨blob, hblob, rfl⟩ := mem_map.mp hmetadata
  obtain ⟨placed, hplaced, hid, hcontent, hentry⟩ := exists_placed_of_blob hfree hblob
  exact ⟨blob, hblob, placed, hplaced, hid, hcontent, hentry⟩

theorem exists_entry_of_placed (hplaced : placed ∈ placedPayloads digest blobs) :
    ∃ kind, placedEntry kind placed ∈ directoryOf digest blobs := by
  obtain ⟨blob, hblob, hid, _⟩ := exists_blob_of_placed hfree hplaced
  obtain ⟨other, hother, hotherId, _, hentry⟩ := exists_placed_of_blob hfree hblob
  obtain rfl : other = placed := layout_eq_of_key (nodup_keys_toList Digest.compare _) hother
    hplaced (hotherId.trans hid)
  refine ⟨blob.kind, ?_⟩
  rw [← hentry]
  exact (mem_entriesOf_iff hfree.lengths).mpr ⟨_, mem_map_of_mem hblob, rfl⟩

end

variable (hfree : CollisionFree digest blobs)
  (hsmall : manifestOffsetOf (blobs.map (metadataOf digest)) < 2 ^ 64)

include hfree hsmall

theorem blobRange_placedEntry (kind : TritBlobKind) (hplaced : placed ∈ placedPayloads digest blobs)
    : blobRange (placedEntry kind placed) = (placed.2.1, placed.2.1 + placed.2.2.length) := by
  obtain ⟨_, _, hfinish⟩ := mem_layout tritBlobAlignment_pos hplaced
  rw [← region_length tritBlobAlignment_pos, ← manifestOffsetOf_eq hfree] at hfinish
  have hstop := lt_of_le_of_lt hfinish hsmall
  rw [blobRange, placedEntry]
  rw [UInt64.toNat_ofNat_of_lt' (lt_of_le_of_lt (Nat.le_add_right _ _) hstop),
    UInt64.toNat_ofNat_of_lt' (lt_of_le_of_lt (Nat.le_add_left _ _) hstop)]

theorem directoryOf_placed {entry : TritBlobInfo} (hentry : entry ∈ directoryOf digest blobs) :
    Placed (manifestOffsetOf (blobs.map (metadataOf digest))) entry := by
  obtain ⟨blob, _, placed, hplaced, _, _, rfl⟩ := exists_placed_of_mem hfree hentry
  have hrange := blobRange_placedEntry hfree hsmall blob.kind hplaced
  obtain ⟨hcursor, haligned, hfinish⟩ := mem_layout tritBlobAlignment_pos hplaced
  rw [← region_length tritBlobAlignment_pos, ← manifestOffsetOf_eq hfree] at hfinish
  rw [blobRange, Prod.mk.injEq] at hrange
  obtain ⟨hoffset, hstop⟩ := hrange
  refine ⟨?_, ?_, ?_, ?_⟩
  · rw [hstop]
    exact lt_of_le_of_lt hfinish hsmall
  · rw [hoffset]
    exact hcursor
  · rw [hoffset]
    exact Nat.mod_eq_zero_of_dvd haligned
  · rw [hstop]
    exact hfinish

omit hfree hsmall in
/-- The region stands behind a header of the right length. -/
theorem exists_packageOf_eq (digest : List UInt8 → Digest) (manifest : List UInt8)
    (blobs : List TritBlob) :
    ∃ header after, header.length = tritHeaderBytes ∧ packageOf digest manifest blobs =
      header ++ region tritBlobAlignment header.length (payloadsOf digest blobs) ++ after := by
  rw [packageOf, packageBytes]
  generalize hheader : packageHeader _ _ _ _ = header
  have hlength : header.length = tritHeaderBytes := by
    rw [← hheader, packageHeader_length]
  rw [← append_assoc]
  exact ⟨header, _, hlength, by rw [hlength]⟩

theorem directoryOf_holds {entry : TritBlobInfo} (hentry : entry ∈ directoryOf digest blobs) :
    ∃ blob ∈ blobs, digest blob.bytes = entry.id ∧ blob.kind = entry.kind ∧
      blob.bytes.length = entry.length.toNat ∧
      subslice (packageOf digest manifest blobs) (blobRange entry).1 (blobRange entry).2 =
        some blob.bytes := by
  obtain ⟨blob, hblob, placed, hplaced, hid, hcontent, rfl⟩ := exists_placed_of_mem hfree hentry
  have hrange := blobRange_placedEntry hfree hsmall blob.kind hplaced
  refine ⟨blob, hblob, hid.symm, rfl, ?_, ?_⟩
  · rw [blobRange, Prod.mk.injEq] at hrange
    rw [← hcontent]
    omega
  · obtain ⟨_, after, hlength, hpackage⟩ := exists_packageOf_eq digest manifest blobs
    rw [placedPayloads, ← hlength] at hplaced
    rw [hrange, hpackage, ← hcontent]
    exact subslice_region tritBlobAlignment_pos hplaced

theorem directoryOf_shared : Consistent TritBlobInfo.id blobRange (directoryOf digest blobs) := by
  intro left hleft right hright hid
  obtain ⟨blob, _, placed, hplaced, _, _, rfl⟩ := exists_placed_of_mem hfree hleft
  obtain ⟨other, _, placed', hplaced', _, _, rfl⟩ := exists_placed_of_mem hfree hright
  obtain rfl : placed = placed' :=
    layout_eq_of_key (nodup_keys_toList Digest.compare _) hplaced hplaced' hid
  rw [blobRange_placedEntry hfree hsmall _ hplaced, blobRange_placedEntry hfree hsmall _ hplaced]

theorem payloadRanges_directoryOf :
    payloadRanges (directoryOf digest blobs) = (placedPayloads digest blobs).map fun placed =>
        (placed.2.1, placed.2.1 + placed.2.2.length) := by
  have hcmp : Std.TransCmp fun left right : Digest × ℕ × ℕ => Digest.compare left.1 right.1 :=
    transCmp_comap Digest.compare Prod.fst
  have hsorted : (placedPayloads digest blobs).Pairwise
      fun left right => Digest.compare left.1 right.1 = .lt := by
    have hpayloads : (payloadsOf digest blobs).Pairwise
        fun left right => Digest.compare left.1 right.1 = .lt :=
      Std.ExtTreeMap.ordered_keys_toList
    rw [← placedPayloads_pieces] at hpayloads
    exact pairwise_map.mp hpayloads
  have hlist : (collect Digest.compare TritBlobInfo.id blobRange (directoryOf digest blobs)).toList =
      (placedPayloads digest blobs).map fun placed =>
        (placed.1, placed.2.1, placed.2.1 + placed.2.2.length) := by
    refine eq_of_mem_iff (fun left right => Digest.compare left.1 right.1)
      Std.ExtTreeMap.ordered_keys_toList (pairwise_map.mpr hsorted) ?_
    rintro ⟨id, range⟩
    rw [Std.ExtTreeMap.mem_toList_iff_getElem?_eq_some,
      getElem?_collect_iff Digest.compare (directoryOf_shared hfree hsmall), mem_map]
    constructor
    · rintro ⟨entry, hentry, rfl, rfl⟩
      obtain ⟨blob, _, placed, hplaced, _, _, rfl⟩ := exists_placed_of_mem hfree hentry
      exact ⟨placed, hplaced, by rw [blobRange_placedEntry hfree hsmall _ hplaced]; rfl⟩
    · rintro ⟨placed, hplaced, heq⟩
      obtain ⟨kind, hentry⟩ := exists_entry_of_placed hfree hplaced
      refine ⟨_, hentry, ?_⟩
      rw [blobRange_placedEntry hfree hsmall _ hplaced]
      exact Prod.mk.injEq .. ▸ heq
  rw [payloadRanges, hlist, map_map]
  rfl

theorem packageOf_swept :
    Swept (packageOf digest manifest blobs) (manifestOffsetOf (blobs.map (metadataOf digest)))
      tritHeaderBytes (sortBy compareRanges (payloadRanges (directoryOf digest blobs))) := by
  rw [payloadRanges_directoryOf hfree hsmall, sortBy_ranges_eq_self
    (forall_mem_map.mpr fun placed _ => Nat.le_add_right _ _)
    (pairwise_map.mpr (layout_pairwise tritBlobAlignment_pos _ _))]
  obtain ⟨header, after, hlength, hpackage⟩ := exists_packageOf_eq digest manifest blobs
  rw [hpackage, manifestOffsetOf_eq hfree, region_length tritBlobAlignment_pos, placedPayloads,
    ← hlength]
  exact swept_region tritBlobAlignment_pos header after _

omit hfree hsmall

section

variable (hwritable : Writable codec digest manifest blobs maxBytes)

include hwritable

theorem directoryOf_listable : Listable (directoryOf digest blobs) := by
  refine ⟨entriesOf_sorted, ?_, fun entry hentry => ?_⟩
  · calc
      (directoryOf digest blobs).length ≤
          (sortBy compareBlobEntries ((blobs.map (metadataOf digest)).map
            (entryOf (blobs.map (metadataOf digest))))).length := (dedupBy_sublist _ _).length_le
      _ = blobs.length := by
        simp [(sortBy_perm compareBlobEntries _).length_eq]
      _ ≤ maxBlobs := hwritable.admitted.count_le
  · obtain ⟨blob, hblob, _, _, _, _, rfl⟩ :=
      exists_placed_of_mem hwritable.collision_free hentry
    exact hwritable.admitted.named blob hblob

theorem Writable.manifestOffset_lt : manifestOffsetOf (blobs.map (metadataOf digest)) < 2 ^ 64 := by
  have hsmall := hwritable.small
  rw [planOf] at hsmall
  dsimp only at hsmall
  omega

/-- A written package satisfies everything the reader demands. -/
theorem readable_packageOf :
    Readable codec digest maxManifestBytes (packageOf digest manifest blobs)
      (region tritBlobAlignment tritHeaderBytes (payloadsOf digest blobs))
      (directoryItem (directoryOf digest blobs)).encode
      ⟨packageOf digest manifest blobs, manifest, directoryOf digest blobs⟩ := by
  have hfree := hwritable.collision_free
  have hoffset := hwritable.manifestOffset_lt
  have hsmall := hwritable.small
  rw [← packageOf_length hfree, packageOf, packageBytes_length] at hsmall
  refine ⟨rfl, rfl, le_min hwritable.admitted.manifest_limit hwritable.admitted.manifest_limit,
    hwritable.directory_limit, ?_, hwritable.admitted.manifest_valid,
    decodeDirectory_encode (directoryOf_listable hwritable) hwritable.directory_limit, ?_⟩
  · dsimp only
    omega
  · rw [← manifestOffsetOf_eq hfree]
    refine ⟨fun entry hentry => directoryOf_placed hfree hoffset hentry, fun entry hentry => ?_,
      directoryOf_shared hfree hoffset, packageOf_swept hfree hoffset⟩
    obtain ⟨blob, _, hid, _, _, hslice⟩ := directoryOf_holds hfree hoffset hentry
    exact ⟨blob.bytes, hslice, hid⟩

end

section Congruence

variable {blobs' : List TritBlob} (hmem : ∀ blob, blob ∈ blobs' ↔ blob ∈ blobs)

include hmem

theorem directoryOf_congr (hfree : CollisionFree digest blobs) :
    directoryOf digest blobs' = directoryOf digest blobs :=
  entriesOf_congr hfree.lengths fun entry => by simp only [mem_map, hmem]

theorem packageOf_congr (hfree : CollisionFree digest blobs) :
    packageOf digest manifest blobs' = packageOf digest manifest blobs := by
  rw [packageOf, packageOf, directoryOf_congr hmem hfree, payloadsOf, payloadsOf,
    collect_congr Digest.compare hfree hmem]

theorem Writable.congr (hwritable : Writable codec digest manifest blobs maxBytes)
    (hcount : blobs'.length ≤ maxBlobs) : Writable codec digest manifest blobs' maxBytes := by
  have hfree := hwritable.collision_free
  have hfree' : CollisionFree digest blobs' := hfree.congr hmem
  have hsize : (planOf digest manifest (blobs'.map (metadataOf digest))).size =
      (planOf digest manifest (blobs.map (metadataOf digest))).size := by
    rw [← packageOf_length hfree, ← packageOf_length hfree', packageOf_congr hmem hfree]
  refine ⟨⟨hwritable.admitted.manifest_limit, hcount, hwritable.admitted.manifest_valid,
    fun blob hblob => hwritable.admitted.named blob ((hmem blob).mp hblob)⟩, hfree', ?_, ?_, ?_⟩
  · change (directoryItem (directoryOf digest blobs')).encode.length ≤ maxDirectoryBytes
    rw [directoryOf_congr hmem hfree]
    exact hwritable.directory_limit
  · rw [hsize]
    exact hwritable.small
  · rw [hsize]
    exact hwritable.size_le

end Congruence

theorem blob_eq_ok_iff {package : TritPackage} {info : TritBlobInfo} :
    package.blob digest info = .ok content ↔ info.offset.toNat + info.length.toNat < 2 ^ 64 ∧
        subslice package.bytes (blobRange info).1 (blobRange info).2 = some content ∧
        digest content = info.id := by
  simp only [TritPackage.blob, blobRange, okOr_eq_ok_iff, checkedAdd_eq_some_iff, bind_eq_ok_iff,
    refuse_eq_ok_iff, not_not, ok.injEq, existsAndEq, and_assoc, and_true, true_and]

/-! ### A package in full

Three blobs with two contents, under a digest that is the first 32 bytes.
-/

def headDigest (content : List UInt8) : Digest :=
  ⟨(content ++ replicate 32 0).take 32, by simp⟩

def sampleManifest : List UInt8 := [0xF6]

def sampleBlobs : List TritBlob :=
  [⟨.asset "x", [1, 2]⟩, ⟨.additiveTensor, [3]⟩, ⟨.additiveTensor, [1, 2]⟩]

theorem validateCanonicalManifest_sample :
    validateCanonicalManifest codec sampleManifest = .ok () := by
  have hvalid : validate sampleManifest = .ok () := by decide
  rw [validateCanonicalManifest, hvalid]

theorem sample_writable : Writable codec headDigest sampleManifest sampleBlobs usizeMax := by
  refine ⟨⟨by decide, by decide, validateCanonicalManifest_sample, ?_⟩, ?_, ?_, ?_, ?_⟩
  · simp [sampleBlobs, metadataOf, TritBlobKind.Named]
  · rw [CollisionFree, Consistent]
    decide +kernel
  · decide +kernel
  · decide +kernel
  · decide +kernel

/-- **The round trip of a package.** What the writer puts out is read back: the manifest, one entry
for each digest, kind and length among the blobs in strict order, and behind each entry its bytes at
an aligned offset. Any other list of the same blobs that the writer admits gives the same bytes, and
with a collision of the digest there is no package at all. -/
theorem writeTritPackageBounded_roundTrip (codec : Codec) (hwrites : codec.WritesMinimal)
    (digest : List UInt8 → Digest) (manifest : List UInt8) (blobs : List TritBlob)
    (maxBytes : ℕ) :
    (∀ bytes, writeTritPackageBounded codec digest manifest blobs maxBytes = .ok bytes →
      (∃ package, readTritPackage codec digest bytes = .ok package ∧ package.manifest = manifest ∧
        package.blobs.Pairwise (fun left right => compareBlobEntries left right = .lt) ∧
        (∀ id kind length, (∃ info ∈ package.blobs,
            info.id = id ∧ info.kind = kind ∧ info.length.toNat = length) ↔ ∃ blob ∈ blobs,
            digest blob.bytes = id ∧ blob.kind = kind ∧ blob.bytes.length = length) ∧
        ∀ info ∈ package.blobs, info.offset.toNat % 256 = 0 ∧
          ∃ blob ∈ blobs, digest blob.bytes = info.id ∧ blob.kind = info.kind ∧
            package.blob digest info = .ok blob.bytes) ∧
      ∀ blobs', (∀ blob, blob ∈ blobs' ↔ blob ∈ blobs) → blobs'.length ≤ maxBlobs →
        writeTritPackageBounded codec digest manifest blobs' maxBytes = .ok bytes) ∧
    ((∃ left ∈ blobs, ∃ right ∈ blobs,
        left.bytes ≠ right.bytes ∧ digest left.bytes = digest right.bytes) →
      ∃ error, writeTritPackageBounded codec digest manifest blobs maxBytes = .err error) := by
  refine ⟨fun bytes hwrite => ?_, ?_⟩
  · obtain ⟨hwritable, rfl⟩ := (writeTritPackageBounded_eq_ok_iff hwrites).mp hwrite
    have hfree := hwritable.collision_free
    have hoffset := hwritable.manifestOffset_lt
    refine ⟨⟨_, readTritPackageWithManifestLimit_eq_ok_iff.mpr
      ⟨_, _, readable_packageOf hwritable⟩, rfl, entriesOf_sorted, ?_, fun info hinfo => ?_⟩, ?_⟩
    · intro id kind length
      constructor
      · rintro ⟨info, hinfo, rfl, rfl, rfl⟩
        obtain ⟨blob, hblob, hid, hkind, hlength, _⟩ :=
          @directoryOf_holds digest manifest blobs hfree hoffset _ hinfo
        exact ⟨blob, hblob, hid, hkind, hlength⟩
      · rintro ⟨blob, hblob, rfl, rfl, rfl⟩
        obtain ⟨placed, hplaced, hid, hcontent, hentry⟩ := exists_placed_of_blob hfree hblob
        have hinfo : placedEntry blob.kind placed ∈ directoryOf digest blobs := by
          rw [← hentry]
          exact (mem_entriesOf_iff hfree.lengths).mpr ⟨_, mem_map_of_mem hblob, rfl⟩
        have hrange := blobRange_placedEntry hfree hoffset blob.kind hplaced
        rw [blobRange, Prod.mk.injEq] at hrange
        refine ⟨_, hinfo, hid, rfl, ?_⟩
        rw [← hcontent]
        omega
    · have hplaced := directoryOf_placed hfree hoffset hinfo
      obtain ⟨blob, hblob, hid, hkind, _, hslice⟩ := directoryOf_holds hfree hoffset hinfo
      exact ⟨hplaced.aligned, blob, hblob, hid, hkind,
        blob_eq_ok_iff.mpr ⟨hplaced.small, hslice, hid⟩⟩
    · intro blobs' hmem hcount
      exact (writeTritPackageBounded_eq_ok_iff hwrites).mpr
        ⟨hwritable.congr hmem hcount, packageOf_congr hmem hfree⟩
  · rintro ⟨left, hleft, right, hright, hne, hdigest⟩
    refine writeTritPackageBounded_eq_err_of_not hwrites fun hwritable => ?_
    exact hne (hwritable.collision_free left hleft right hright hdigest)

theorem writeTritPackageBounded_roundTrip_sample :
    ∃ bytes, writeTritPackageBounded profileCodec headDigest sampleManifest sampleBlobs usizeMax =
        .ok bytes ∧ (∃ package, readTritPackage profileCodec headDigest bytes = .ok package ∧
        package.manifest = sampleManifest) ∧
      writeTritPackageBounded profileCodec headDigest sampleManifest
        (sampleBlobs.reverse ++ sampleBlobs) usizeMax = .ok bytes := by
  have hwrite := (writeTritPackageBounded_eq_ok_iff profileCodec_writesMinimal).mpr
    ⟨sample_writable, rfl⟩
  obtain ⟨⟨package, hread, hmanifest, _⟩, hcongr⟩ := (writeTritPackageBounded_roundTrip profileCodec
    profileCodec_writesMinimal headDigest sampleManifest sampleBlobs usizeMax).1 _ hwrite
  refine ⟨_, hwrite, ⟨package, hread, hmanifest⟩, hcongr _ (fun blob => ?_) (by decide)⟩
  simp

/-- A list that repeats a blob more often than the directory may have entries is refused. -/
theorem writeTritPackageBounded_repeated :
    (∃ bytes, writeTritPackageBounded profileCodec headDigest sampleManifest
      [⟨.additiveTensor, [3]⟩] usizeMax = .ok bytes) ∧
    writeTritPackageBounded profileCodec headDigest sampleManifest
      (replicate (maxBlobs + 1) ⟨.additiveTensor, [3]⟩) usizeMax = .err .metadataLimitExceeded := by
  constructor
  · refine ⟨_, (writeTritPackageBounded_eq_ok_iff profileCodec_writesMinimal).mpr ⟨?_, rfl⟩⟩
    refine ⟨⟨by decide, by decide, validateCanonicalManifest_sample, ?_⟩, ?_, ?_, ?_, ?_⟩
    · simp [metadataOf, TritBlobKind.Named]
    · rw [CollisionFree, Consistent]
      decide +kernel
    · decide +kernel
    · decide +kernel
    · decide +kernel
  · rw [writeTritPackageBounded, prepareWrite, blobMetadata, if_pos]
    · rfl
    · simp

end Tritium.Package
