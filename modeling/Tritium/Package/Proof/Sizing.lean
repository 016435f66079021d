import Tritium.Package.Sizing
import Tritium.Package.Proof.RoundTrip

/-!
# The bounds hold for every package

Heads widen with their arguments, the directory lists each blob at most once, and a gap is shorter
than the alignment. So whatever the digests turn out to be, the bounds computed from kinds and
lengths enclose the package.
-/

namespace Tritium.Package

open List
open Cbor Packing

variable {blob : TritBlobSize}

theorem argumentWidth_mono {argument argument' : ℕ} (hle : argument ≤ argument') :
    argumentWidth argument ≤ argumentWidth argument' := by
  rw [argumentWidth, argumentWidth]
  split_ifs <;> omega

def fieldsItem (kind : TritBlobKind) (offset length : UInt64) : Value :=
  .array [.scalar (unsignedScalar (wireKind kind).1), .scalar (auxScalar (wireKind kind).2),
    .scalar (unsignedScalar offset), .scalar (unsignedScalar length)]

theorem fieldsItem_toItem (kind : TritBlobKind) (offset length : UInt64) :
    (fieldsItem kind offset length).toItem = .array (directoryFields kind offset length) := by
  cases kind <;> rfl

theorem unsignedScalar_length (value : UInt64) :
    (unsignedScalar value).encode.length = 1 + argumentWidth value.toNat := by
  rw [unsignedScalar_encode, headBytes_length]

theorem fieldsItem_length (kind : TritBlobKind) (offset length : UInt64) :
    (fieldsItem kind offset length).encode.length =
      1 + (unsignedScalar (wireKind kind).1).encode.length +
        (auxScalar (wireKind kind).2).encode.length +
        (1 + argumentWidth offset.toNat) + (1 + argumentWidth length.toNat) := by
  rw [fieldsItem]
  simp only [encodeItems, Value.encode, length_append, headBytes_length, length_cons,
    length_nil, unsignedScalar_length offset, unsignedScalar_length length]
  rw [show argumentWidth (0 + 1 + 1 + 1 + 1) = 0 from rfl]
  omega

/-- The most an entry of this kind and length can take. -/
def entryUpper (blob : TritBlobSize) : ℕ :=
  (fieldsItem blob.kind (UInt64.ofNat usizeMax) blob.length).encode.length + 34

theorem entryItem_length (info : TritBlobInfo) :
    (entryItem info).encode.length =
      (fieldsItem info.kind info.offset info.length).encode.length + 34 := by
  have hdigest : (Scalar.bytes info.id.bytes).encode.length = 34 := by
    rw [Scalar.encode, length_append, Scalar.argument, Scalar.content, info.id.length_eq]
    rfl
  rw [entryItem, entryFields, wireEntry, fieldsItem]
  simp only [encodeItems, Value.encode, length_append, headBytes_length, length_cons,
    length_nil, hdigest]
  rw [show argumentWidth (0 + 1 + 1 + 1 + 1 + 1) = 0 from rfl,
    show argumentWidth (0 + 1 + 1 + 1 + 1) = 0 from rfl]
  omega

theorem entryItem_length_le {info : TritBlobInfo} (hkind : info.kind = blob.kind)
    (hlength : info.length = blob.length) : (entryItem info).encode.length ≤ entryUpper blob := by
  have hoffset : argumentWidth info.offset.toNat ≤ argumentWidth (UInt64.ofNat usizeMax).toNat := by
    apply argumentWidth_mono
    rw [show (UInt64.ofNat usizeMax).toNat = 2 ^ 64 - 1 from rfl]
    have hlt := info.offset.toNat_lt
    omega
  rw [entryItem_length, entryUpper, fieldsItem_length, fieldsItem_length, hkind, hlength]
  omega

theorem directoryItem_length (blobs : List TritBlobInfo) :
    (directoryItem blobs).encode.length = 3 + argumentWidth blobs.length +
        (blobs.map fun info => (entryItem info).encode.length).sum := by
  have hentries : (encodeItems (blobs.map entryItem)).length =
      (blobs.map fun info => (entryItem info).encode.length).sum := by
    rw [encodeItems_eq, length_flatMap, map_map]
    rfl
  rw [directoryItem_encode]
  simp only [length_append, headBytes_length, unsignedScalar_length, hentries]
  rw [show argumentWidth 2 = 0 from rfl, show argumentWidth directoryVersion.toNat = 0 from rfl]
  omega

section Bounds

variable {codec : Codec} (hwrites : codec.WritesMinimal) {blobs : List TritBlobSize}
  {sizes sizes' : BlobSizes}

theorem addSizes_eq_ok_iff {left right sum : ℕ} :
    addSizes left right = .ok sum ↔ left + right < 2 ^ 64 ∧ left + right = sum := by
  rw [addSizes, okOr_eq_ok_iff, checkedAdd_eq_some_iff]

include hwrites

theorem encodedSize_eq_ok_iff {value : Value} {size : ℕ} :
    encodedSize codec value.toItem = .ok size ↔
      value.encode.length < 2 ^ 64 ∧ value.encode.length = size := by
  rw [encodedSize, okOr_eq_ok_iff, metadataCborBytes, hwrites, Option.bind_some,
    checkedAdd_eq_some_iff, zero_add]

theorem encodedSize_unsigned (value : UInt64) :
    encodedSize codec (unsignedItem value) = .ok (1 + argumentWidth value.toNat) := by
  have hlength := unsignedScalar_length value
  have hsmall : argumentWidth value.toNat ≤ 8 := by
    rw [argumentWidth]
    split_ifs <;> omega
  apply (@encodedSize_eq_ok_iff _ hwrites (.scalar (unsignedScalar value)) _).mpr
  rw [Value.encode, hlength]
  exact ⟨by omega, rfl⟩

theorem measureBlob_eq_ok_iff :
    measureBlob codec sizes blob = .ok sizes' ↔ sizes.payloadSum + blob.length.toNat < 2 ^ 64 ∧
        sizes.directoryUpper + entryUpper blob < 2 ^ 64 ∧
        ⟨sizes.payloadSum + blob.length.toNat, max sizes.payloadMax blob.length.toNat,
          sizes.directoryUpper + entryUpper blob⟩ = sizes' := by
  have hidBytes : 1 + argumentWidth digestWidth.toNat + digestWidth.toNat = 34 := rfl
  have hlong : argumentWidth (UInt64.ofNat (4 + 1)).toNat = 0 := rfl
  have hfieldCount : (directoryFields blob.kind (UInt64.ofNat usizeMax) blob.length).length = 4 :=
    rfl
  rw [measureBlob, entryUpper]
  simp only [encodedSize_unsigned hwrites, ok_bind, ← fieldsItem_toItem,
    bind_eq_ok_iff, addSizes_eq_ok_iff, encodedSize_eq_ok_iff hwrites,
    sub_eq_ok_iff, pure_eq_ok, ok.injEq, hfieldCount]
  constructor
  · rintro ⟨_, ⟨hsum, rfl⟩, _, ⟨_, rfl⟩, _, ⟨_, rfl⟩, _, ⟨_, rfl⟩, _, ⟨_, rfl⟩, _, ⟨_, rfl⟩, _,
      ⟨hupper, rfl⟩, rfl⟩
    exact ⟨hsum, hupper, rfl⟩
  · rintro ⟨hsum, _, rfl⟩
    refine ⟨_, ⟨hsum, rfl⟩, _, ⟨le_rfl, rfl⟩, _, ⟨by decide, rfl⟩, _, ⟨by omega, rfl⟩, _,
      ⟨?_, rfl⟩, _, ⟨?_, rfl⟩, _, ⟨?_, rfl⟩, rfl⟩
    all_goals omega

theorem foldlM_measureBlob (hloop : blobs.foldlM (measureBlob codec) sizes = .ok sizes') :
    sizes'.payloadSum = sizes.payloadSum + (blobs.map fun blob => blob.length.toNat).sum ∧
      sizes'.directoryUpper = sizes.directoryUpper + (blobs.map entryUpper).sum ∧
      (sizes'.payloadMax = sizes.payloadMax ∨
        ∃ blob ∈ blobs, blob.length.toNat = sizes'.payloadMax) := by
  induction blobs generalizing sizes with
  | nil =>
    obtain rfl := ok.inj hloop
    simp
  | cons blob blobs ih =>
    obtain ⟨next, hnext, hloop⟩ := foldlM_cons_eq_ok hloop
    obtain ⟨_, _, rfl⟩ := (measureBlob_eq_ok_iff hwrites).mp hnext
    obtain ⟨hsum, hupper, hmax⟩ := ih hloop
    refine ⟨?_, ?_, ?_⟩
    · rw [hsum, map_cons, sum_cons, add_assoc]
    · rw [hupper, map_cons, sum_cons, add_assoc]
    · rcases hmax with hmax | ⟨other, hother, hlength⟩
      · rw [hmax]
        rcases max_choice sizes.payloadMax blob.length.toNat with hleft | hright
        · exact .inl hleft
        · exact .inr ⟨blob, mem_cons_self, hright.symm⟩
      · exact .inr ⟨other, mem_cons_of_mem _ hother, hlength⟩

/-- The bounds in closed form, but for the largest payload. -/
structure BoundsFor (manifest : EncodedSizeBounds) (blobs : List TritBlobSize)
    (bounds : TritPackageSizeBounds) : Prop where
  directory_lower : bounds.directory.lowerBytes = 3
  directory_upper : bounds.directory.upperBytes =
    3 + argumentWidth blobs.length + (blobs.map entryUpper).sum
  package_lower : ∃ largest, (largest = 0 ∨ ∃ blob ∈ blobs, blob.length.toNat = largest) ∧
    bounds.package.lowerBytes = (if blobs.isEmpty then tritHeaderBytes
      else Packing.alignUp tritBlobAlignment tritHeaderBytes) + largest + manifest.lowerBytes +
        bounds.directory.lowerBytes + footerBytes
  package_upper : bounds.package.upperBytes =
    tritHeaderBytes + blobs.length * (tritBlobAlignment - 1) +
      (blobs.map fun blob => blob.length.toNat).sum + manifest.upperBytes +
      bounds.directory.upperBytes + footerBytes

theorem boundsFor {manifest : EncodedSizeBounds} {bounds : TritPackageSizeBounds}
    (hbounds : tritPackageSizeBounds codec manifest blobs = .ok bounds) :
    BoundsFor manifest blobs bounds := by
  simp only [tritPackageSizeBounds, refuse_eq_ok_iff, not_or, not_lt, bind_eq_ok_iff,
    encodedSize_unsigned hwrites, ok.injEq, sub_eq_ok_iff, addSizes_eq_ok_iff, okOr_eq_ok_iff,
    checkedMul_eq_some_iff, pure_eq_ok] at hbounds
  obtain ⟨⟨_, _, hvalid⟩, _, directoryLower, hlower, _, rfl, _, rfl, _, ⟨_, rfl⟩, _, ⟨_, rfl⟩, sizes,
    hloop, _, _, ⟨_, rfl⟩, _, ⟨_, rfl⟩, _, ⟨_, rfl⟩, _, ⟨_, rfl⟩, _, ⟨_, rfl⟩, _, ⟨_, rfl⟩, first,
    hfirst, _, ⟨_, rfl⟩, _, ⟨_, rfl⟩, _, ⟨_, rfl⟩, _, ⟨_, rfl⟩, rfl⟩ := hbounds
  have hcount : (UInt64.ofNat blobs.length).toNat = blobs.length :=
    UInt64.toNat_ofNat_of_lt' (lt_of_le_of_lt hvalid (by decide))
  have hnone := ((encodedSize_eq_ok_iff hwrites).mp (directoryItem_toItem [] ▸ hlower)).2
  obtain ⟨hsum, hdirectory, hmax⟩ := foldlM_measureBlob hwrites hloop
  dsimp only at hsum hdirectory hmax
  have hfirst' : first = if blobs.isEmpty then tritHeaderBytes
      else Packing.alignUp tritBlobAlignment tritHeaderBytes := by
    rw [firstOffset] at hfirst
    split_ifs at hfirst ⊢
    · exact (ok.inj hfirst).symm
    · exact (alignUp_eq_ok_iff.mp hfirst).2.symm
  have hthree : directoryLower = 3 := hnone.symm
  have hdirectoryUpper : sizes.directoryUpper =
      3 + argumentWidth blobs.length + (blobs.map entryUpper).sum := by
    rw [hdirectory, hthree, hcount, Nat.add_sub_add_left]
    rfl
  refine ⟨hthree, hdirectoryUpper, ⟨sizes.payloadMax, hmax, ?_⟩, ?_⟩
  · rw [hfirst']
  · dsimp only
    omega

end Bounds

section Package

variable {digest : List UInt8 → Digest} {manifest : List UInt8} {blobs : List TritBlob}
  {sizes : List TritBlobSize} {maxBytes : ℕ} {codec : Codec}

def Measures (size : TritBlobSize) (blob : TritBlob) : Prop :=
  size.kind = blob.kind ∧ size.length.toNat = blob.bytes.length

section Sums

variable (hsizes : Forall₂ Measures sizes blobs)

include hsizes

theorem sum_lengths :
    (sizes.map fun size => size.length.toNat).sum =
      ((blobs.map (metadataOf digest)).map BlobMetadata.length).sum := by
  induction hsizes with
  | nil => rfl
  | cons hsize _ ih =>
    simp only [map_cons, sum_cons, ih, hsize.2]
    rfl

theorem sum_entries_le (all : List BlobMetadata) :
    (((blobs.map (metadataOf digest)).map (entryOf all)).map
      fun info => (entryItem info).encode.length).sum ≤ (sizes.map entryUpper).sum := by
  induction hsizes with
  | nil => exact le_rfl
  | @cons size blob _ _ hsize _ ih =>
    refine add_le_add (entryItem_length_le hsize.1.symm ?_) ih
    change UInt64.ofNat blob.bytes.length = size.length
    rw [← hsize.2, UInt64.ofNat_toNat]

end Sums

variable (hfree : CollisionFree digest blobs)

include hfree

theorem payloadLengths_subset :
    payloadLengths (blobs.map (metadataOf digest)) ⊆
      (blobs.map (metadataOf digest)).map fun blob => (blob.id, blob.length) := by
  intro piece hpiece
  rw [payloadLengths, Std.ExtTreeMap.mem_toList_iff_getElem?_eq_some,
    getElem?_collect_iff Digest.compare hfree.lengths] at hpiece
  obtain ⟨blob, hblob, hid, hlength⟩ := hpiece
  exact mem_map.mpr ⟨blob, hblob, Prod.ext hid hlength⟩

variable (hsizes : Forall₂ Measures sizes blobs)

include hsizes

theorem manifestOffsetOf_le :
    manifestOffsetOf (blobs.map (metadataOf digest)) ≤
      tritHeaderBytes + sizes.length * (tritBlobAlignment - 1) +
        (sizes.map fun size => size.length.toNat).sum := by
  have hnodup : (payloadLengths (blobs.map (metadataOf digest))).Nodup :=
    (nodup_keys_toList Digest.compare _).of_map
  have hsubset := payloadLengths_subset hfree
  have hcount := (subperm_of_subset hnodup hsubset).length_le
  have hsum := sum_map_le_of_subset hnodup hsubset Prod.snd
  rw [length_map, length_map, ← hsizes.length_eq] at hcount
  rw [map_map] at hsum
  calc
    manifestOffsetOf (blobs.map (metadataOf digest)) ≤
        tritHeaderBytes + (payloadLengths (blobs.map (metadataOf digest))).length *
          (tritBlobAlignment - 1) +
          ((payloadLengths (blobs.map (metadataOf digest))).map Prod.snd).sum :=
      finish_le tritBlobAlignment_pos _ _
    _ ≤ tritHeaderBytes + sizes.length * (tritBlobAlignment - 1) +
        ((blobs.map (metadataOf digest)).map BlobMetadata.length).sum := by
      gcongr
      exact hsum
    _ = _ := by rw [sum_lengths hsizes]

theorem le_manifestOffsetOf {largest : ℕ}
    (hlargest : largest = 0 ∨ ∃ size ∈ sizes, size.length.toNat = largest) :
    (if sizes.isEmpty then tritHeaderBytes
      else Packing.alignUp tritBlobAlignment tritHeaderBytes) + largest ≤
      manifestOffsetOf (blobs.map (metadataOf digest)) := by
  have hplaced : ∀ size ∈ sizes,
      Packing.alignUp tritBlobAlignment tritHeaderBytes + size.length.toNat ≤
        manifestOffsetOf (blobs.map (metadataOf digest)) := by
    intro size hsize
    have hflipped : Forall₂ (fun blob size => Measures size blob) blobs sizes := hsizes.flip
    obtain ⟨blob, hblob, _, hlength⟩ := exists_mem_of_forall₂ hflipped hsize
    obtain ⟨offset, hoffset⟩ := exists_placed hfree.lengths (mem_map_of_mem hblob)
    obtain ⟨hheader, hdvd, hstop⟩ := mem_layout tritBlobAlignment_pos hoffset
    calc
      Packing.alignUp tritBlobAlignment tritHeaderBytes + size.length.toNat ≤
          offset + size.length.toNat := by
        gcongr
        exact alignUp_le tritBlobAlignment_pos hdvd hheader
      _ = offset + (metadataOf digest blob).length := by rw [hlength]; rfl
      _ ≤ manifestOffsetOf (blobs.map (metadataOf digest)) := hstop
  rcases hlargest with rfl | ⟨size, hsize, rfl⟩
  · cases sizes with
    | nil => exact le_finish tritBlobAlignment_pos _ _
    | cons size sizes =>
      have hfirst := hplaced size mem_cons_self
      rw [isEmpty_cons, if_neg Bool.false_ne_true]
      omega
  · rw [isEmpty_eq_false_iff_exists_mem.mpr ⟨size, hsize⟩]
    exact hplaced size hsize

theorem directory_length_le :
    (directoryItem (directoryOf digest blobs)).encode.length ≤
      3 + argumentWidth sizes.length + (sizes.map entryUpper).sum := by
  have hnodup : (directoryOf digest blobs).Nodup :=
    nodup_of_pairwise_lt compareBlobEntries entriesOf_sorted
  have hsubset : directoryOf digest blobs ⊆
      (blobs.map (metadataOf digest)).map (entryOf (blobs.map (metadataOf digest))) := by
    intro info hinfo
    obtain ⟨blob, hblob, rfl⟩ := (mem_entriesOf_iff hfree.lengths).mp hinfo
    exact mem_map_of_mem hblob
  have hcount := (subperm_of_subset hnodup hsubset).length_le
  rw [length_map, length_map, ← hsizes.length_eq] at hcount
  rw [directoryItem_length]
  gcongr
  · exact argumentWidth_mono hcount
  · exact (sum_map_le_of_subset hnodup hsubset _).trans (sum_entries_le hsizes _)

end Package

/-- **The bounds are sound.** Whatever the contents of the given kinds and lengths are, and whatever
they share, the package that the writer puts out lies within the bounds, and so does its
directory. -/
theorem tritPackageSizeBounds_sound (codec : Codec) (hwrites : codec.WritesMinimal)
    (digest : List UInt8 → Digest) (interval : EncodedSizeBounds) (sizes : List TritBlobSize)
    (bounds : TritPackageSizeBounds)
    (hbounds : tritPackageSizeBounds codec interval sizes = .ok bounds) (manifest : List UInt8)
    (hlower : interval.lowerBytes ≤ manifest.length)
    (hupper : manifest.length ≤ interval.upperBytes) (blobs : List TritBlob)
    (hsizes : Forall₂ Measures sizes blobs) (maxBytes : ℕ) (output : List UInt8)
    (hwrite : writeTritPackageBounded codec digest manifest blobs maxBytes = .ok output) :
    bounds.package.lowerBytes ≤ output.length ∧ output.length ≤ bounds.package.upperBytes ∧
      ∃ plan, prepareWrite codec digest manifest blobs maxBytes = .ok plan ∧
        bounds.directory.lowerBytes ≤ plan.directory.length ∧
        plan.directory.length ≤ bounds.directory.upperBytes := by
  obtain ⟨hwritable, rfl⟩ := (writeTritPackageBounded_eq_ok_iff hwrites).mp hwrite
  have hfree := hwritable.collision_free
  obtain ⟨hdirectoryLower, hdirectoryUpper, ⟨largest, hlargest, _⟩, _⟩ := boundsFor hwrites hbounds
  have hfirst := le_manifestOffsetOf hfree hsizes hlargest
  have hlast := manifestOffsetOf_le hfree hsizes
  have hdirectory := directory_length_le hfree hsizes
  have hleast : 3 ≤ (directoryItem (directoryOf digest blobs)).encode.length := by
    rw [directoryItem_length]
    omega
  have hlength : (packageOf digest manifest blobs).length =
      manifestOffsetOf (blobs.map (metadataOf digest)) + manifest.length +
        (directoryItem (directoryOf digest blobs)).encode.length + footerBytes :=
    packageOf_length hfree
  refine ⟨by omega, by omega, _, (prepareWrite_eq_ok_iff hwrites).mpr ⟨hwritable, rfl⟩, ?_, ?_⟩
  · rw [hdirectoryLower]
    exact hleast
  · rw [hdirectoryUpper]
    exact hdirectory

theorem tritPackageSizeBounds_sound_sample :
    ∃ bounds, tritPackageSizeBounds profileCodec ⟨1, 1⟩
        [⟨.asset "x", 2⟩, ⟨.additiveTensor, 1⟩, ⟨.additiveTensor, 2⟩] = .ok bounds ∧
      bounds.package.lowerBytes ≤ (packageOf headDigest sampleManifest sampleBlobs).length ∧
      (packageOf headDigest sampleManifest sampleBlobs).length ≤ bounds.package.upperBytes := by
  have hwrite := (writeTritPackageBounded_eq_ok_iff profileCodec_writesMinimal).mpr
    ⟨sample_writable, rfl⟩
  have hsizes : Forall₂ Measures
      [⟨.asset "x", 2⟩, ⟨.additiveTensor, 1⟩, ⟨.additiveTensor, 2⟩] sampleBlobs :=
    .cons ⟨rfl, rfl⟩ (.cons ⟨rfl, rfl⟩ (.cons ⟨rfl, rfl⟩ .nil))
  have hmeasure (sizes : BlobSizes) (blob : TritBlobSize)
      (hsum : sizes.payloadSum + blob.length.toNat < 2 ^ 64)
      (hupper : sizes.directoryUpper + entryUpper blob < 2 ^ 64) :=
    (measureBlob_eq_ok_iff profileCodec_writesMinimal).mpr ⟨hsum, hupper, rfl⟩
  have hnone : encodedSize profileCodec (directoryValue []) = .ok 3 :=
    (@encodedSize_eq_ok_iff _ profileCodec_writesMinimal (directoryItem []) _).mpr
      ⟨by decide, rfl⟩
  have hloop : [⟨.asset "x", 2⟩, ⟨.additiveTensor, 1⟩, ⟨.additiveTensor, 2⟩].foldlM
      (measureBlob profileCodec) ⟨0, 0, 3⟩ = .ok ⟨5, 2, 145⟩ := by
    rw [foldlM_cons, hmeasure _ _ (by decide) (by decide +kernel), ok_bind,
      foldlM_cons, hmeasure _ _ (by decide) (by decide +kernel), ok_bind,
      foldlM_cons, hmeasure _ _ (by decide) (by decide +kernel), ok_bind,
      foldlM_nil, pure_eq_ok, ok.injEq, BlobSizes.mk.injEq]
    exact ⟨rfl, rfl, by decide +kernel⟩
  have hbounds : tritPackageSizeBounds profileCodec ⟨1, 1⟩
      [⟨.asset "x", 2⟩, ⟨.additiveTensor, 1⟩, ⟨.additiveTensor, 2⟩] =
        .ok ⟨⟨1, 1⟩, ⟨3, 145⟩, ⟨334, 1052⟩⟩ := by
    rw [tritPackageSizeBounds, hnone, encodedSize_unsigned profileCodec_writesMinimal, encodedSize_unsigned profileCodec_writesMinimal]
    change (foldlM (measureBlob profileCodec) ⟨0, 0, 3⟩ _ >>= _) = _
    rw [hloop]
    rfl
  obtain ⟨hlower, hupper, _⟩ := tritPackageSizeBounds_sound profileCodec profileCodec_writesMinimal
    headDigest _ _ _ hbounds sampleManifest (by decide) (by decide) sampleBlobs hsizes usizeMax _
    hwrite
  exact ⟨_, hbounds, hlower, hupper⟩

end Tritium.Package
