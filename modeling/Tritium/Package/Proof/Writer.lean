import Tritium.Package.Proof.Plan
import Tritium.Package.Proof.Reader
import Tritium.Package.Proof.Total

/-!
# What the writers put out

Carrying out a plan gives the same bytes wherever they go: the payloads packed in the order of their
digests, between the header and the metadata. The package is a function of the set of the blobs.
-/

namespace Tritium.Package

open List
open Cbor Packing

variable {entries : List BlobMetadata} {β : Type} {entry : β → BlobMetadata}

theorem mapM_checkName_iff {blobs : List β} :
    blobs.mapM (fun blob => checkName (entry blob)) = .ok entries ↔
      (∀ blob ∈ blobs, (entry blob).kind.Named) ∧ blobs.map entry = entries := by
  have hname (blob : β) : ¬ (entry blob).kind = .asset "" ↔ (entry blob).kind.Named := by
    cases (entry blob).kind <;> simp [TritBlobKind.Named]
  simp only [mapM_eq_ok_iff, checkName, refuse_eq_ok_iff, hname, ok.injEq, forall₂_and_left]
  rw [← forall₂_map_left_iff, forall₂_eq_eq_eq]

/-- What holds of the input of every writer that goes on to the layout. -/
@[mk_iff]
structure Admitted {β : Type} (codec : Codec) (manifest : List UInt8) (blobs : List β)
    (entry : β → BlobMetadata) : Prop where
  manifest_limit : manifest.length ≤ maxManifestBytes
  count_le : blobs.length ≤ maxBlobs
  manifest_valid : validateCanonicalManifest codec manifest = .ok ()
  named : ∀ blob ∈ blobs, (entry blob).kind.Named

theorem blobMetadata_eq_ok_iff {codec : Codec} {manifest : List UInt8} {blobs : List β} :
    blobMetadata codec manifest blobs entry = .ok entries ↔
      Admitted codec manifest blobs entry ∧ blobs.map entry = entries := by
  simp only [blobMetadata, refuse_eq_ok_iff, unit_bind_eq_ok_iff, not_or, not_lt,
    mapM_checkName_iff, admitted_iff, and_assoc]

def metadataOf (digest : List UInt8 → Digest) (blob : TritBlob) : BlobMetadata :=
  ⟨digest blob.bytes, blob.kind, blob.bytes.length⟩

def CollisionFree (digest : List UInt8 → Digest) (blobs : List TritBlob) : Prop :=
  Consistent (fun blob => digest blob.bytes) TritBlob.bytes blobs

theorem foldlM_checkCollision_iff {digest : List UInt8 → Digest} {blobs : List TritBlob}
    {unique : DigestMap (List UInt8)} :
    ((blobs.map (metadataOf digest)).zip blobs).foldlM checkCollision ∅ = .ok unique ↔
      CollisionFree digest blobs ∧
        collect Digest.compare (fun blob => digest blob.bytes) TritBlob.bytes blobs = unique := by
  have hzip : (blobs.map (metadataOf digest)).zip blobs =
      blobs.map fun blob => (metadataOf digest blob, blob) := by
    rw [map_prod_right_eq_zip]
  have hstep (found : DigestMap (List UInt8)) (blob : TritBlob) (found' : DigestMap (List UInt8)) :
      checkCollision found (metadataOf digest blob, blob) = .ok found' ↔
        True ∧ (∀ old ∈ found[digest blob.bytes]?, old = blob.bytes) ∧
          found.insert (digest blob.bytes) blob.bytes = found' := by
    rw [checkCollision, refuse_eq_ok_iff, any_ne_iff, ok.injEq, true_and]
    rfl
  rw [hzip, foldlM_map, foldlM_collect_iff Digest.compare hstep]
  exact and_iff_right fun _ _ => trivial

variable {codec : Codec} {digest : List UInt8 → Digest} {manifest : List UInt8}
  {blobs : List TritBlob} {maxBytes cursor : ℕ} {pieces : List (Digest × ℕ × ℕ)}
  {entry : PayloadPlan} {content : ℕ → List UInt8} {plan : PackageWritePlan}

structure Writable (codec : Codec) (digest : List UInt8 → Digest) (manifest : List UInt8)
    (blobs : List TritBlob) (maxBytes : ℕ) : Prop where
  admitted : Admitted codec manifest blobs (metadataOf digest)
  collision_free : CollisionFree digest blobs
  directory_limit :
    (planOf digest manifest (blobs.map (metadataOf digest))).directory.length ≤ maxDirectoryBytes
  small : (planOf digest manifest (blobs.map (metadataOf digest))).size < 2 ^ 64
  size_le : (planOf digest manifest (blobs.map (metadataOf digest))).size ≤ maxBytes

theorem CollisionFree.lengths (hfree : CollisionFree digest blobs) :
    Consistent BlobMetadata.id BlobMetadata.length (blobs.map (metadataOf digest)) := by
  intro left hleft right hright hid
  obtain ⟨blob, hblob, rfl⟩ := mem_map.mp hleft
  obtain ⟨other, hother, rfl⟩ := mem_map.mp hright
  exact congrArg length (hfree blob hblob other hother hid)

theorem prepareWrite_eq_ok_iff (hwrites : codec.WritesMinimal) :
    prepareWrite codec digest manifest blobs maxBytes = .ok plan ↔
      Writable codec digest manifest blobs maxBytes ∧
        planOf digest manifest (blobs.map (metadataOf digest)) = plan := by
  rw [prepareWrite]
  simp only [blobMetadata_eq_ok_iff, bind_eq_ok_iff]
  constructor
  · rintro ⟨_, ⟨hadmitted, rfl⟩, _, hunique, hplan⟩
    obtain ⟨hfree, _⟩ := foldlM_checkCollision_iff.mp hunique
    obtain ⟨_, hdirectory, hsmall, hlimit, hplan⟩ := (prepareLayout_eq_ok_iff hwrites).mp hplan
    exact ⟨⟨hadmitted, hfree, hdirectory, hsmall, hlimit⟩, hplan⟩
  · rintro ⟨⟨hadmitted, hfree, hdirectory, hsmall, hlimit⟩, hplan⟩
    exact ⟨_, ⟨hadmitted, rfl⟩, _, foldlM_checkCollision_iff.mpr ⟨hfree, rfl⟩,
      (prepareLayout_eq_ok_iff hwrites).mpr ⟨hfree.lengths, hdirectory, hsmall, hlimit, hplan⟩⟩

/-- The bytes of a plan, with the contents of the blobs at hand. -/
def PackageWritePlan.bytes (plan : PackageWritePlan) (content : ℕ → List UInt8) : List UInt8 :=
  plan.header ++ (plan.payloads.flatMap (fun entry =>
      replicate entry.padding 0 ++ content entry.index) ++
    (plan.manifest ++ (plan.directory ++ plan.footer)))

theorem emit_appends {σ ε : Type} {holds : List UInt8 → σ → Prop}
    {chunk : List UInt8 → Stateful σ ε Unit} {payload : ℕ → Stateful σ ε Unit}
    {finish : Stateful σ ε Unit} (hchunk : ∀ bytes, Stateful.Appends holds (chunk bytes) bytes)
    (hpadding : ∀ entry ∈ plan.payloads, entry.padding ≤ tritBlobAlignment)
    (hpayload : ∀ entry ∈ plan.payloads,
      Stateful.Appends holds (payload entry.index) (content entry.index))
    (hfinish : Stateful.Appends holds finish []) :
    Stateful.Appends holds (plan.emit chunk payload finish) (plan.bytes content) := by
  have hentries : ∀ entry ∈ plan.payloads, Stateful.Appends holds
      (emitPayload chunk payload entry)
      (replicate entry.padding 0 ++ content entry.index) := by
    intro entry hentry
    have hslice : slice (replicate tritBlobAlignment (0 : UInt8)) 0 entry.padding =
        (.ok (replicate entry.padding 0) : Outcome ε _) := by
      rw [slice_of_le (Nat.zero_le _) (by rw [length_replicate]; exact hpadding entry hentry),
        take_replicate, min_eq_left (hpadding entry hentry), drop_zero]
    rw [emitPayload, hslice]
    exact (hchunk _).bind (hpayload entry hentry)
  have hlast : Stateful.Appends holds (finish >>= fun _ => chunk plan.footer) plan.footer :=
    hfinish.bind (hchunk plan.footer)
  exact (hchunk _).bind ((Stateful.Appends.forM hentries).bind ((hchunk _).bind
    ((hchunk _).bind hlast)))

theorem payloadPlans_padding (hentry : entry ∈ payloadPlans cursor pieces) :
    entry.padding ≤ tritBlobAlignment := by
  induction pieces generalizing cursor with
  | nil => cases hentry
  | cons piece pieces ih =>
    rw [payloadPlans] at hentry
    obtain rfl | hentry := mem_cons.mp hentry
    · have hlt := alignUp_lt tritBlobAlignment_pos cursor
      dsimp only
      omega
    · exact ih hentry

theorem mem_payloadPlans (hentry : entry ∈ payloadPlans cursor pieces) :
    ∃ piece ∈ pieces, piece.2.1 = entry.index := by
  induction pieces generalizing cursor with
  | nil => cases hentry
  | cons piece pieces ih =>
    rw [payloadPlans] at hentry
    obtain rfl | hentry := mem_cons.mp hentry
    · simp
    · obtain ⟨found, hfound, hindex⟩ := ih hentry
      exact ⟨found, mem_cons_of_mem _ hfound, hindex⟩

theorem flatMap_payloadPlans (hcontent : ∀ piece ∈ pieces, (content piece.2.1).length = piece.2.2) :
    (payloadPlans cursor pieces).flatMap (fun entry =>
        replicate entry.padding 0 ++ content entry.index) =
      region tritBlobAlignment cursor (pieces.map (Prod.map id fun first => content first.1)) := by
  induction pieces generalizing cursor with
  | nil => rfl
  | cons piece pieces ih =>
    obtain ⟨hpiece, hpieces⟩ := forall_mem_cons.mp hcontent
    rw [payloadPlans, flatMap_cons, ih hpieces, ← hpiece]
    rfl

/-! ### The package as a function of its blobs -/

/-- The contents, one for each digest in ascending order. -/
def payloadsOf (digest : List UInt8 → Digest) (blobs : List TritBlob) :
    List (Digest × List UInt8) :=
  (collect Digest.compare (fun blob => digest blob.bytes) TritBlob.bytes blobs).toList

def directoryOf (digest : List UInt8 → Digest) (blobs : List TritBlob) : List TritBlobInfo :=
  entriesOf (blobs.map (metadataOf digest))

def packageOf (digest : List UInt8 → Digest) (manifest : List UInt8) (blobs : List TritBlob) :
    List UInt8 :=
  packageBytes digest (region tritBlobAlignment tritHeaderBytes (payloadsOf digest blobs)) manifest
    (directoryItem (directoryOf digest blobs)).encode

def contentAt (blobs : List TritBlob) (index : ℕ) : List UInt8 :=
  blobs[index]?.elim [] TritBlob.bytes

section

variable (hfree : CollisionFree digest blobs)

include hfree

theorem payloadLengths_eq : payloadLengths (blobs.map (metadataOf digest)) =
      (payloadsOf digest blobs).map (Prod.map id length) := by
  have hcollect : collect Digest.compare BlobMetadata.id BlobMetadata.length
      (blobs.map (metadataOf digest)) =
        (collect Digest.compare (fun blob => digest blob.bytes) TritBlob.bytes blobs).map
          fun _ content => content.length := by
    rw [map_collect Digest.compare hfree, collect_map]
    rfl
  rw [payloadLengths, hcollect, Std.ExtTreeMap.toList_map]
  rfl

theorem manifestOffsetOf_eq : manifestOffsetOf (blobs.map (metadataOf digest)) = tritHeaderBytes +
      (region tritBlobAlignment tritHeaderBytes (payloadsOf digest blobs)).length := by
  rw [manifestOffsetOf, payloadLengths_eq hfree, finish_map, region_length tritBlobAlignment_pos]
  rfl

theorem placedLengths_eq : placedLengths (blobs.map (metadataOf digest)) =
      (layout tritBlobAlignment length tritHeaderBytes (payloadsOf digest blobs)).map
        (Prod.map id (Prod.map id length)) := by
  rw [placedLengths, payloadLengths_eq hfree, layout_map]
  rfl

theorem bytes_planOf :
    (planOf digest manifest (blobs.map (metadataOf digest))).bytes (contentAt blobs) =
      packageOf digest manifest blobs := by
  have hcontents : (firstBlobs (blobs.map (metadataOf digest))).toList.map
      (Prod.map id fun first => contentAt blobs first.1) = payloadsOf digest blobs := by
    have hmap : (firstBlobs (blobs.map (metadataOf digest))).map
        (fun _ first => contentAt blobs first.1) =
          collect Digest.compare (fun blob => digest blob.bytes) TritBlob.bytes blobs := by
      refine @firstBlobs_map _ _ (metadataOf digest) _ (fun first => contentAt blobs first.1) _ hfree
        fun index blob hblob => ?_
      rw [contentAt, hblob]
      rfl
    simp [payloadsOf, ← hmap]
  have hlengths : ∀ piece ∈ (firstBlobs (blobs.map (metadataOf digest))).toList,
      (contentAt blobs piece.2.1).length = piece.2.2 := by
    rintro ⟨id, index, length⟩ hpiece
    obtain ⟨metadata, hmetadata, _, rfl⟩ :=
      getElem?_firstBlobs (Std.ExtTreeMap.mem_toList_iff_getElem?_eq_some.mp hpiece)
    rw [getElem?_map, Option.map_eq_some_iff] at hmetadata
    obtain ⟨blob, hblob, rfl⟩ := hmetadata
    rw [contentAt, hblob]
    rfl
  rw [PackageWritePlan.bytes, planOf]
  rw [flatMap_payloadPlans hlengths, hcontents, manifestOffsetOf_eq hfree]
  rfl

theorem packageOf_length : (packageOf digest manifest blobs).length =
      (planOf digest manifest (blobs.map (metadataOf digest))).size := by
  rw [packageOf, packageBytes_length, planOf, manifestOffsetOf_eq hfree]
  rfl

end

theorem extendOutput_appends (bytes : List UInt8) :
    Stateful.Appends (fun output state => state = output) (extendOutput bytes) bytes :=
  fun output state hstate => ⟨state ++ bytes, rfl, by rw [hstate]⟩

theorem contentAt_eq_ok {ε : Type}
    (hentry : entry ∈ (planOf digest manifest (blobs.map (metadataOf digest))).payloads) :
    ∃ blob, (Outcome.index blobs entry.index : Outcome ε TritBlob) = .ok blob ∧
      contentAt blobs entry.index = blob.bytes := by
  obtain ⟨⟨id, index, length⟩, hpiece, hindex⟩ := mem_payloadPlans hentry
  subst hindex
  obtain ⟨metadata, hmetadata, _⟩ :=
    getElem?_firstBlobs (Std.ExtTreeMap.mem_toList_iff_getElem?_eq_some.mp hpiece)
  rw [getElem?_map, Option.map_eq_some_iff] at hmetadata
  obtain ⟨blob, hblob, rfl⟩ := hmetadata
  refine ⟨blob, index_eq_ok_iff.mpr hblob, ?_⟩
  rw [contentAt, hblob]
  rfl

theorem emission_eq (hfree : CollisionFree digest blobs) :
    (planOf digest manifest (blobs.map (metadataOf digest))).emit extendOutput (extendPayload blobs)
      (pure ()) [] = (.ok (), packageOf digest manifest blobs) := by
  have hpayload : ∀ entry ∈ (planOf digest manifest (blobs.map (metadataOf digest))).payloads,
      Stateful.Appends (fun output state => state = output) (extendPayload blobs entry.index)
        (contentAt blobs entry.index) := by
    intro entry hentry
    obtain ⟨blob, hblob, hcontent⟩ := contentAt_eq_ok hentry
    rw [extendPayload, hblob, hcontent]
    exact extendOutput_appends blob.bytes
  obtain ⟨after, hemit, hafter⟩ := emit_appends extendOutput_appends
    (fun entry hentry => payloadPlans_padding hentry) hpayload Stateful.Appends.pure [] [] rfl
  rw [hemit, hafter, nil_append, bytes_planOf hfree]

/-- **What the writer puts out.** -/
theorem writeTritPackageBounded_eq_ok_iff (hwrites : codec.WritesMinimal) {bytes : List UInt8} :
    writeTritPackageBounded codec digest manifest blobs maxBytes = .ok bytes ↔
      Writable codec digest manifest blobs maxBytes ∧ packageOf digest manifest blobs = bytes := by
  rw [writeTritPackageBounded, bind_eq_ok_iff]
  simp only [prepareWrite_eq_ok_iff hwrites]
  constructor
  · rintro ⟨_, ⟨hwritable, rfl⟩, hemit⟩
    rw [emission_eq hwritable.collision_free, ok.injEq] at hemit
    exact ⟨hwritable, hemit⟩
  · rintro ⟨hwritable, rfl⟩
    refine ⟨_, ⟨hwritable, rfl⟩, ?_⟩
    rw [emission_eq hwritable.collision_free]

/-! ### No writer panics -/

theorem blobMetadata_returns (blobs : List β) (entry : β → BlobMetadata) :
    (blobMetadata codec manifest blobs entry).Returns fun _ => True := by
  rw [blobMetadata]
  refine Outcome.Returns.refuse fun _ => ?_
  refine (validateCanonicalManifest_returns manifest codec).bind fun _ _ => ?_
  refine Outcome.Returns.mapM fun blob _ => ?_
  exact Outcome.Returns.refuse fun _ => trivial

theorem alignUp_returns (value : ℕ) : (alignUp value).Returns fun _ => True :=
  (okOr_total _ _).bind fun _ _ => trivial

theorem prepareLayout_returns (entries : List BlobMetadata) :
    (prepareLayout codec digest manifest entries maxBytes).Returns fun _ => True := by
  have hunique : (entries.zipIdx.foldlM uniqueBlob ∅).Returns fun _ => True := by
    refine Outcome.Returns.foldlM (fun unique blob _ => ?_) _ trivial
    rw [uniqueBlob]
    split
    · exact Outcome.Returns.refuse fun _ => trivial
    · trivial
  have hassign (unique : DigestMap (ℕ × ℕ)) :
      (unique.toList.foldlM assignOffset (∅, tritHeaderBytes)).Returns fun _ => True := by
    refine Outcome.Returns.foldlM (fun state payload _ => ?_) _ trivial
    refine Outcome.Returns.bind (alignUp_returns state.2) fun aligned _ => ?_
    exact (okOr_total _ _).bind fun _ _ => trivial
  rw [prepareLayout]
  refine (hunique.imp fun unique heq _ => heq).bind fun unique hunique => ?_
  obtain ⟨hconsistent, rfl⟩ := foldlM_uniqueBlob_iff.mp hunique
  refine ((hassign _).imp fun state heq _ => heq).bind ?_
  rintro ⟨offsets, manifestOffset⟩ hassign
  obtain ⟨hsmall, rfl, rfl⟩ := (assignOffsets_eq_ok_iff hconsistent).mp hassign
  refine (okOr_total _ _).bind fun directoryOffset _ => ?_
  rw [mapM_directoryEntry hconsistent]
  refine (okOr_total _ _).bind fun directory _ => ?_
  refine Outcome.Returns.refuse fun _ => ?_
  refine (okOr_total _ _).bind fun footerOffset _ => ?_
  refine (okOr_total _ _).bind fun size _ => ?_
  refine Outcome.Returns.refuse fun _ => ?_
  rw [planPayloads_eq hconsistent hsmall]
  refine Outcome.Returns.refuse fun _ => ?_
  refine (okOr_total _ _).bind fun position _ => ?_
  exact Outcome.Returns.refuse fun _ => trivial

theorem prepareWrite_returns :
    (prepareWrite codec digest manifest blobs maxBytes).Returns fun _ => True := by
  rw [prepareWrite]
  refine (blobMetadata_returns blobs _).bind fun entries _ => ?_
  refine Outcome.Returns.bind (Outcome.Returns.foldlM (fun unique entry _ => ?_) _ trivial)
    fun _ (_ : True) => prepareLayout_returns entries
  exact Outcome.Returns.refuse fun _ => trivial

theorem prepareWrite_eq_err_of_not (hwrites : codec.WritesMinimal)
    (hnot : ¬ Writable codec digest manifest blobs maxBytes) :
    ∃ error, prepareWrite codec digest manifest blobs maxBytes = .err error := by
  cases hplan : prepareWrite codec digest manifest blobs maxBytes with
  | ok plan => exact absurd ((prepareWrite_eq_ok_iff hwrites).mp hplan).1 hnot
  | err error => exact ⟨error, rfl⟩
  | panic => exact absurd hplan prepareWrite_returns.ne_panic

theorem writeTritPackageBounded_eq_err_of_not (hwrites : codec.WritesMinimal)
    (hnot : ¬ Writable codec digest manifest blobs maxBytes) :
    ∃ error, writeTritPackageBounded codec digest manifest blobs maxBytes = .err error := by
  obtain ⟨error, hplan⟩ := prepareWrite_eq_err_of_not hwrites hnot
  exact ⟨error, by rw [writeTritPackageBounded, hplan]; rfl⟩

end Tritium.Package
