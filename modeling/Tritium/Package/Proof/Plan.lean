import Tritium.Lib.Collect
import Tritium.Package.Writer
import Tritium.Package.Proof.Directory

/-!
# The plan of a package

The loops of the planner in closed form: which blobs it admits, where their payloads stand and what
the directory lists. Up to the positions of the blobs in the input, a plan depends on the set of the
blobs only.
-/

namespace Tritium.Package

open List
open Cbor Packing

variable {offsets : DigestMap UInt64} {pieces : List (Digest × ℕ × ℕ)} {unique : DigestMap (ℕ × ℕ)}
  {blobs : List BlobMetadata}
  {cursor : ℕ} {blob : BlobMetadata}

theorem tritBlobAlignment_pos : 0 < tritBlobAlignment := by decide

theorem alignUp_eq_ok_iff {value aligned : ℕ} :
    alignUp value = .ok aligned ↔ Packing.alignUp tritBlobAlignment value < 2 ^ 64 ∧
        Packing.alignUp tritBlobAlignment value = aligned := by
  rw [alignUp, bind_eq_ok_iff, Packing.alignUp]
  simp only [okOr_eq_ok_iff, checkedAdd_eq_some_iff, pure_eq_ok, ok.injEq]
  constructor
  · rintro ⟨sum, ⟨hlt, rfl⟩, rfl⟩
    exact ⟨lt_of_le_of_lt (Nat.div_mul_le_self _ _) hlt, rfl⟩
  · rintro ⟨hlt, rfl⟩
    -- the alignment divides `2 ^ 64`, so rounding down crosses no bound that was not crossed
    refine ⟨_, ⟨?_, rfl⟩, rfl⟩
    rw [tritBlobAlignment] at hlt ⊢
    omega

def firstBlobs (blobs : List BlobMetadata) : DigestMap (ℕ × ℕ) :=
  blobs.zipIdx.foldl
    (fun unique blob => unique.insertIfNew blob.1.id (blob.2, blob.1.length)) ∅

theorem firstBlobs_concat (blobs : List BlobMetadata) (blob : BlobMetadata) :
    firstBlobs (blobs ++ [blob]) =
      (firstBlobs blobs).insertIfNew blob.id (blobs.length, blob.length) := by
  rw [firstBlobs, zipIdx_append, foldl_append, zero_add]
  rfl

theorem mem_firstBlobs_iff {id : Digest} :
    id ∈ firstBlobs blobs ↔ ∃ blob ∈ blobs, blob.id = id := by
  induction blobs using reverseRecOn with
  | nil => simp [firstBlobs]
  | append_singleton blobs blob ih =>
    rw [firstBlobs_concat, Std.ExtTreeMap.mem_insertIfNew, ih]
    simp [or_comm, or_and_right, exists_or]

theorem getElem?_firstBlobs {id : Digest} {index length : ℕ}
    (hfirst : (firstBlobs blobs)[id]? = some (index, length)) :
    ∃ blob, blobs[index]? = some blob ∧ blob.id = id ∧ blob.length = length := by
  induction blobs using reverseRecOn with
  | nil => simp [firstBlobs] at hfirst
  | append_singleton blobs blob ih =>
    rw [firstBlobs_concat, Std.ExtTreeMap.getElem?_insertIfNew] at hfirst
    split at hfirst
    · rename_i hnew
      obtain ⟨rfl, rfl⟩ := hfirst
      exact ⟨blob, getElem?_concat_length, Std.LawfulEqCmp.compare_eq_iff_eq.mp hnew.1, rfl⟩
    · obtain ⟨found, hfound, hid⟩ := ih hfirst
      obtain ⟨hindex, _⟩ := List.getElem?_eq_some_iff.mp hfound
      exact ⟨found, by rwa [List.getElem?_append_left hindex], hid⟩

/-- What the first blobs hold is what all blobs hold, where the digest determines it. -/
theorem firstBlobs_map {β ν : Type} {entry : β → BlobMetadata} {content : β → ν}
    (value : ℕ × ℕ → ν) {blobs : List β}
    (hconsistent : Consistent (fun blob => (entry blob).id) content blobs)
    (hvalue : ∀ index blob, blobs[index]? = some blob →
      value (index, (entry blob).length) = content blob) :
    (firstBlobs (blobs.map entry)).map (fun _ first => value first) =
      collect Digest.compare (fun blob => (entry blob).id) content blobs := by
  have hfirst {id : Digest} {first : ℕ × ℕ} (hfound : (firstBlobs (blobs.map entry))[id]? =
      some first) : ∃ blob ∈ blobs, (entry blob).id = id ∧ content blob = value first := by
    obtain ⟨metadata, hmetadata, hid, hlength⟩ := getElem?_firstBlobs hfound
    rw [getElem?_map, Option.map_eq_some_iff] at hmetadata
    obtain ⟨blob, hblob, rfl⟩ := hmetadata
    refine ⟨blob, mem_of_getElem? hblob, hid, ?_⟩
    rw [← hvalue first.1 blob hblob, hlength]
  refine Std.ExtTreeMap.ext_getElem? fun id => Option.ext fun found => ?_
  rw [getElem?_collect_iff Digest.compare hconsistent, Std.ExtTreeMap.getElem?_map,
    Option.map_eq_some_iff]
  constructor
  · rintro ⟨first, hfound, rfl⟩
    exact hfirst hfound
  · rintro ⟨blob, hblob, rfl, rfl⟩
    have hmem : (entry blob).id ∈ firstBlobs (blobs.map entry) :=
      mem_firstBlobs_iff.mpr ⟨entry blob, mem_map_of_mem hblob, rfl⟩
    obtain ⟨first, hfound⟩ :=
      Option.isSome_iff_exists.mp (Std.ExtTreeMap.mem_iff_isSome_getElem?.mp hmem)
    obtain ⟨other, hother, hid, hcontent⟩ := hfirst hfound
    exact ⟨first, hfound, hcontent.symm.trans (hconsistent other hother blob hblob hid)⟩

theorem firstBlobs_lengths
    (hconsistent : Consistent BlobMetadata.id BlobMetadata.length blobs) :
    (firstBlobs blobs).map (fun _ first => first.2) =
      collect Digest.compare BlobMetadata.id BlobMetadata.length blobs := by
  have hlengths := @firstBlobs_map _ _ id BlobMetadata.length Prod.snd blobs hconsistent
    fun _ _ _ => rfl
  rwa [map_id] at hlengths

theorem uniqueBlob_eq_ok_iff {unique' : DigestMap (ℕ × ℕ)} {index : ℕ} :
    uniqueBlob unique (blob, index) = .ok unique' ↔
      (∀ old ∈ unique[blob.id]?, old.2 = blob.length) ∧
        unique.insertIfNew blob.id (index, blob.length) = unique' := by
  rw [uniqueBlob]
  cases hfound : unique[blob.id]? with
  | none =>
    have hinsert : unique.insertIfNew blob.id (index, blob.length) =
        unique.insert blob.id (index, blob.length) := by
      refine Std.ExtTreeMap.ext_getElem? fun id => ?_
      rw [Std.ExtTreeMap.getElem?_insertIfNew, Std.ExtTreeMap.getElem?_insert]
      have hnew : blob.id ∉ unique := by
        rw [Std.ExtTreeMap.mem_iff_isSome_getElem?, hfound]
        simp
      simp [hnew]
    rw [hinsert]
    simp
  | some first =>
    have hinsert : unique.insertIfNew blob.id (index, blob.length) = unique := by
      refine Std.ExtTreeMap.ext_getElem? fun id => ?_
      have hold : blob.id ∈ unique := by
        rw [Std.ExtTreeMap.mem_iff_isSome_getElem?, hfound]
        rfl
      rw [Std.ExtTreeMap.getElem?_insertIfNew, if_neg (by simp [hold])]
    rw [hinsert]
    rw [refuse_eq_ok_iff]
    simp

theorem foldlM_uniqueBlob_iff :
    blobs.zipIdx.foldlM uniqueBlob ∅ = .ok unique ↔
      Consistent BlobMetadata.id BlobMetadata.length blobs ∧ firstBlobs blobs = unique := by
  induction blobs using reverseRecOn generalizing unique with
  | nil => simp [firstBlobs, Consistent]
  | append_singleton blobs blob ih =>
    rw [zipIdx_append, foldlM_append, bind_eq_ok_iff, firstBlobs_concat,
      consistent_concat_iff Digest.compare]
    simp only [ih, zipIdx_cons, zipIdx_nil, foldlM_cons, foldlM_nil, bind_pure,
      uniqueBlob_eq_ok_iff, zero_add]
    have hold (hconsistent : Consistent BlobMetadata.id BlobMetadata.length blobs) :
        (∀ old ∈ (firstBlobs blobs)[blob.id]?, old.2 = blob.length) ↔
          ∀ old ∈ (collect Digest.compare BlobMetadata.id BlobMetadata.length blobs)[blob.id]?,
            old = blob.length := by
      rw [← firstBlobs_lengths hconsistent, Std.ExtTreeMap.getElem?_map]
      cases (firstBlobs blobs)[blob.id]? <;> simp
    constructor
    · rintro ⟨_, ⟨hconsistent, rfl⟩, hlengths, hunique⟩
      exact ⟨⟨hconsistent, (hold hconsistent).mp hlengths⟩, hunique⟩
    · rintro ⟨⟨hconsistent, hlengths⟩, hunique⟩
      exact ⟨_, ⟨hconsistent, rfl⟩, (hold hconsistent).mpr hlengths, hunique⟩

theorem assignOffset_eq_ok_iff {payload : Digest × ℕ × ℕ} {state : DigestMap UInt64 × ℕ} :
    assignOffset (offsets, cursor) payload = .ok state ↔
      Packing.alignUp tritBlobAlignment cursor + payload.2.2 < 2 ^ 64 ∧
        (offsets.insert payload.1 (UInt64.ofNat (Packing.alignUp tritBlobAlignment cursor)),
          Packing.alignUp tritBlobAlignment cursor + payload.2.2) = state := by
  simp only [assignOffset, bind_eq_ok_iff, alignUp_eq_ok_iff, okOr_eq_ok_iff,
    checkedAdd_eq_some_iff, pure_eq_ok, ok.injEq, existsAndEq, and_assoc, true_and]
  exact and_iff_right_of_imp fun hplaced => (Nat.le_add_right _ _).trans_lt hplaced.1

def insertOffset {ν : Type} (offsets : DigestMap UInt64) (placed : Digest × ℕ × ν) :
    DigestMap UInt64 :=
  offsets.insert placed.1 (UInt64.ofNat placed.2.1)

theorem foldlM_assignOffset_iff {offsets' : DigestMap UInt64} {stop : ℕ} (hcursor : cursor < 2 ^ 64)
    :
    pieces.foldlM assignOffset (offsets, cursor) = .ok (offsets', stop) ↔
      finish tritBlobAlignment Prod.snd cursor pieces < 2 ^ 64 ∧
        finish tritBlobAlignment Prod.snd cursor pieces = stop ∧
        (layout tritBlobAlignment Prod.snd cursor pieces).foldl insertOffset offsets = offsets' := by
  induction pieces generalizing offsets cursor with
  | nil =>
    rw [foldlM_nil, pure_eq_ok, ok.injEq, Prod.mk.injEq]
    exact ⟨fun heq => ⟨hcursor, heq.2, heq.1⟩, fun heq => ⟨heq.2.2, heq.2.1⟩⟩
  | cons piece pieces ih =>
    rw [foldlM_cons, bind_eq_ok_iff]
    simp only [assignOffset_eq_ok_iff]
    constructor
    · rintro ⟨_, ⟨hsmall, rfl⟩, hloop⟩
      exact (ih hsmall).mp hloop
    · rintro ⟨hfinish, hloop⟩
      have hsmall := lt_of_le_of_lt (le_finish tritBlobAlignment_pos
        (Packing.alignUp tritBlobAlignment cursor + piece.2.2) pieces) hfinish
      exact ⟨_, ⟨hsmall, rfl⟩, (ih hsmall).mpr ⟨hfinish, hloop⟩⟩

/-- The gaps in front of the payloads, with the blobs that hold them. -/
def payloadPlans : ℕ → List (Digest × ℕ × ℕ) → List PayloadPlan
  | _, [] => []
  | cursor, (_, index, length) :: pieces =>
    ⟨Packing.alignUp tritBlobAlignment cursor - cursor, index⟩ ::
      payloadPlans (Packing.alignUp tritBlobAlignment cursor + length) pieces

theorem foldlM_planPayload {plans : List PayloadPlan}
    (hoffsets : ∀ placed ∈ layout tritBlobAlignment Prod.snd cursor pieces,
      offsets[placed.1]? = some (UInt64.ofNat placed.2.1))
    (hsmall : finish tritBlobAlignment Prod.snd cursor pieces < 2 ^ 64) :
    pieces.foldlM (planPayload offsets) (cursor, plans) =
      .ok (finish tritBlobAlignment Prod.snd cursor pieces,
        plans ++ payloadPlans cursor pieces) := by
  induction pieces generalizing cursor plans with
  | nil => rw [foldlM_nil, finish, payloadPlans, append_nil, pure_eq_ok]
  | cons piece pieces ih =>
    rw [layout] at hoffsets
    obtain ⟨hoffset, hoffsets⟩ := forall_mem_cons.mp hoffsets
    have hle := le_alignUp tritBlobAlignment_pos cursor
    have hlt := alignUp_lt tritBlobAlignment_pos cursor
    have hpiece : Packing.alignUp tritBlobAlignment cursor + piece.2.2 < 2 ^ 64 :=
      lt_of_le_of_lt (le_finish tritBlobAlignment_pos _ pieces) hsmall
    have hstep : planPayload offsets (cursor, plans) piece =
        .ok (Packing.alignUp tritBlobAlignment cursor + piece.2.2,
          plans ++ [⟨Packing.alignUp tritBlobAlignment cursor - cursor, piece.2.1⟩]) := by
      rw [planPayload, hoffset, expect_some, ok_bind,
        UInt64.toNat_ofNat_of_lt' (lt_of_le_of_lt (Nat.le_add_right _ _) hpiece),
        checkedSub_of_le hle, okOr_bind, if_neg (by omega),
        checkedAdd_of_lt hpiece, okOr_bind, pure_eq_ok]
    rw [foldlM_cons, hstep, ok_bind, ih hoffsets hsmall, append_assoc]
    rfl

/-- The payloads to place, one for each digest in ascending order. -/
def payloadLengths (blobs : List BlobMetadata) : List (Digest × ℕ) :=
  (collect Digest.compare BlobMetadata.id BlobMetadata.length blobs).toList

def placedLengths (blobs : List BlobMetadata) : List (Digest × ℕ × ℕ) :=
  layout tritBlobAlignment id tritHeaderBytes (payloadLengths blobs)

def manifestOffsetOf (blobs : List BlobMetadata) : ℕ :=
  finish tritBlobAlignment id tritHeaderBytes (payloadLengths blobs)

def offsetsOf (blobs : List BlobMetadata) : DigestMap UInt64 :=
  collect Digest.compare Prod.fst (fun placed => UInt64.ofNat placed.2.1) (placedLengths blobs)

def entryOf (blobs : List BlobMetadata) (blob : BlobMetadata) : TritBlobInfo where
  id := blob.id
  kind := blob.kind
  offset := (offsetsOf blobs)[blob.id]?.getD 0
  length := UInt64.ofNat blob.length

def entriesOf (blobs : List BlobMetadata) : List TritBlobInfo :=
  dedupBy sameEntry (sortBy compareBlobEntries (blobs.map (entryOf blobs)))

section Consistent

variable (hconsistent : Consistent BlobMetadata.id BlobMetadata.length blobs)

theorem placedLengths_pieces (blobs : List BlobMetadata) :
    (placedLengths blobs).map (fun placed => (placed.1, placed.2.2)) = payloadLengths blobs :=
  layout_pieces _ _

theorem getElem?_offsetsOf {placed : Digest × ℕ × ℕ} (hplaced : placed ∈ placedLengths blobs) :
    (offsetsOf blobs)[placed.1]? = some (UInt64.ofNat placed.2.1) := by
  refine (getElem?_collect_iff Digest.compare ?_).mpr ⟨placed, hplaced, rfl, rfl⟩
  intro left hleft right hright hkey
  rw [layout_eq_of_key (nodup_keys_toList Digest.compare _) hleft hright hkey]

include hconsistent in
theorem exists_placed (hblob : blob ∈ blobs) :
    ∃ offset, (blob.id, offset, blob.length) ∈ placedLengths blobs := by
  have hmem : (blob.id, blob.length) ∈ payloadLengths blobs := by
    rw [payloadLengths, Std.ExtTreeMap.mem_toList_iff_getElem?_eq_some,
      getElem?_collect_iff Digest.compare hconsistent]
    exact ⟨blob, hblob, rfl, rfl⟩
  rw [← placedLengths_pieces] at hmem
  obtain ⟨⟨key, offset, length⟩, hplaced, heq⟩ := mem_map.mp hmem
  rw [Prod.mk.injEq] at heq
  obtain ⟨rfl, rfl⟩ := heq
  exact ⟨offset, hplaced⟩

theorem compareKinds_eq_iff {left right : TritBlobKind} :
    compareKinds left right = .eq ↔ left = right := by
  have hkey : compareKinds left right = .eq ↔ kindSortKey left = kindSortKey right := by
    rw [compareKinds, Ordering.then_eq_eq, Std.LawfulEqCmp.compare_eq_iff_eq,
      Std.LawfulEqCmp.compare_eq_iff_eq, Prod.ext_iff]
  rw [hkey]
  refine ⟨fun heq => ?_, fun heq => by rw [heq]⟩
  cases left with
  | additiveTensor => cases right <;> simp_all [kindSortKey]
  | denseTensor dtype =>
    cases right with
    | denseTensor other =>
      rw [Prod.mk.injEq] at heq
      have hname := dtypeFromStr_eq_some_iff.mpr (utf8_injective heq.2)
      rw [dtypeFromStr_eq_some_iff.mpr rfl, Option.some.injEq] at hname
      rw [hname]
    | _ => simp_all [kindSortKey]
  | asset name =>
    cases right with
    | asset other =>
      rw [Prod.mk.injEq] at heq
      rw [utf8_injective heq.2]
    | _ => simp_all [kindSortKey]

theorem sameEntry_eq_true_iff (left right : TritBlobInfo) :
    sameEntry right left = true ↔ compareBlobEntries left right = .eq := by
  rw [sameEntry, decide_eq_true_eq, compareBlobEntries, Ordering.then_eq_eq,
    Std.LawfulEqCmp.compare_eq_iff_eq, compareKinds_eq_iff, eq_comm, @eq_comm _ right.kind]

include hconsistent in
theorem mem_entriesOf_iff {entry : TritBlobInfo} :
    entry ∈ entriesOf blobs ↔ ∃ blob ∈ blobs, entryOf blobs blob = entry := by
  rw [entriesOf, mem_dedupBy_iff compareBlobEntries sameEntry_eq_true_iff]
  · rw [(sortBy_perm compareBlobEntries _).mem_iff, mem_map]
  · intro left hleft right hright htie
    rw [(sortBy_perm compareBlobEntries _).mem_iff, mem_map] at hleft hright
    obtain ⟨blob, hblob, rfl⟩ := hleft
    obtain ⟨other, hother, rfl⟩ := hright
    rw [compareBlobEntries, Ordering.then_eq_eq, Std.LawfulEqCmp.compare_eq_iff_eq,
      compareKinds_eq_iff] at htie
    obtain ⟨hid, hkind⟩ := htie
    dsimp only [entryOf] at hid hkind
    rw [entryOf, entryOf, hid, hkind, hconsistent blob hblob other hother hid]

theorem entriesOf_sorted : Sorted (entriesOf blobs) :=
  dedupBy_pairwise_lt compareBlobEntries sameEntry_eq_true_iff
    (sortBy_pairwise compareBlobEntries _)

section Congruence

variable {blobs' : List BlobMetadata} (hmem : ∀ blob, blob ∈ blobs' ↔ blob ∈ blobs)

include hconsistent hmem

theorem entryOf_congr : entryOf blobs' = entryOf blobs := by
  funext blob
  rw [entryOf, entryOf, offsetsOf, offsetsOf, placedLengths, placedLengths, payloadLengths,
    payloadLengths, collect_congr Digest.compare hconsistent hmem]

theorem entriesOf_congr : entriesOf blobs' = entriesOf blobs := by
  refine eq_of_mem_iff compareBlobEntries entriesOf_sorted entriesOf_sorted fun entry => ?_
  rw [mem_entriesOf_iff hconsistent, mem_entriesOf_iff (hconsistent.congr hmem),
    entryOf_congr hconsistent hmem]
  simp only [hmem]

end Congruence

end Consistent

def planOf (digest : List UInt8 → Digest) (manifest : List UInt8) (blobs : List BlobMetadata) :
    PackageWritePlan :=
  let directory := (directoryItem (entriesOf blobs)).encode
  { header := packageHeader (manifestOffsetOf blobs) manifest.length
      (manifestOffsetOf blobs + manifest.length) directory.length
    payloads := payloadPlans tritHeaderBytes (firstBlobs blobs).toList
    manifest
    directory
    footer := packageFooter digest manifest directory
    size := manifestOffsetOf blobs + manifest.length + directory.length + footerBytes }

section Loops

variable (hconsistent : Consistent BlobMetadata.id BlobMetadata.length blobs)

include hconsistent

theorem firstBlobs_pieces :
    (firstBlobs blobs).toList.map (Prod.map id Prod.snd) = payloadLengths blobs := by
  simp [payloadLengths, ← firstBlobs_lengths hconsistent]

theorem finish_firstBlobs :
    finish tritBlobAlignment Prod.snd tritHeaderBytes (firstBlobs blobs).toList =
      manifestOffsetOf blobs := by
  rw [manifestOffsetOf, ← firstBlobs_pieces hconsistent, finish_map]
  rfl

theorem layout_firstBlobs :
    (layout tritBlobAlignment Prod.snd tritHeaderBytes (firstBlobs blobs).toList).map
      (Prod.map id (Prod.map id Prod.snd)) = placedLengths blobs := by
  rw [placedLengths, ← firstBlobs_pieces hconsistent, layout_map]
  rfl

theorem assignOffsets_eq_ok_iff {stop : ℕ} :
    (firstBlobs blobs).toList.foldlM assignOffset (∅, tritHeaderBytes) = .ok (offsets, stop) ↔
      manifestOffsetOf blobs < 2 ^ 64 ∧ manifestOffsetOf blobs = stop ∧
        offsetsOf blobs = offsets := by
  have hoffsets : (layout tritBlobAlignment Prod.snd tritHeaderBytes
      (firstBlobs blobs).toList).foldl insertOffset ∅ = offsetsOf blobs := by
    rw [offsetsOf, collect, ← layout_firstBlobs hconsistent, foldl_map]
    rfl
  rw [foldlM_assignOffset_iff (by decide), finish_firstBlobs hconsistent, hoffsets]

theorem mapM_directoryEntry :
    blobs.mapM (directoryEntry (offsetsOf blobs)) = .ok (blobs.map (entryOf blobs)) := by
  refine mapM_of_forall_mem fun blob hblob => ?_
  obtain ⟨offset, hplaced⟩ := exists_placed hconsistent hblob
  have hoffset : (offsetsOf blobs)[blob.id]? = some (UInt64.ofNat offset) :=
    getElem?_offsetsOf hplaced
  rw [directoryEntry, entryOf, hoffset]
  rfl

theorem planPayloads_eq (hsmall : manifestOffsetOf blobs < 2 ^ 64) :
    (firstBlobs blobs).toList.foldlM (planPayload (offsetsOf blobs)) (tritHeaderBytes, []) =
      .ok (manifestOffsetOf blobs, payloadPlans tritHeaderBytes (firstBlobs blobs).toList) := by
  rw [← finish_firstBlobs hconsistent] at hsmall
  rw [foldlM_planPayload _ hsmall, finish_firstBlobs hconsistent, nil_append]
  intro placed hplaced
  apply @getElem?_offsetsOf _ (Prod.map id (Prod.map id Prod.snd) placed)
  rw [← layout_firstBlobs hconsistent]
  exact mem_map_of_mem hplaced

end Loops

variable {codec : Codec} {digest : List UInt8 → Digest} {manifest : List UInt8}
  {blobs : List BlobMetadata} {maxBytes : ℕ} {plan : PackageWritePlan}

/-- **What the planner admits.** -/
theorem prepareLayout_eq_ok_iff (hwrites : codec.WritesMinimal) :
    prepareLayout codec digest manifest blobs maxBytes = .ok plan ↔
      Consistent BlobMetadata.id BlobMetadata.length blobs ∧
        (planOf digest manifest blobs).directory.length ≤ maxDirectoryBytes ∧
        (planOf digest manifest blobs).size < 2 ^ 64 ∧
        (planOf digest manifest blobs).size ≤ maxBytes ∧ planOf digest manifest blobs = plan := by
  simp only [prepareLayout, planOf, bind_eq_ok_iff, foldlM_uniqueBlob_iff, Prod.exists,
    encodeDirectory_eq hwrites, okOr_eq_ok_iff, checkedAdd_eq_some_iff, ok.injEq, refuse_eq_ok_iff,
    not_lt, not_not, pure_eq_ok]
  constructor
  · rintro ⟨_, ⟨hconsistent, rfl⟩, _, _, hassign, _, ⟨_, rfl⟩, _, hentries, _, rfl, hdirectory, _,
      ⟨_, rfl⟩, _, ⟨hwhole, rfl⟩, hlimit, _, _, hpayloads, _, _, _, _, hresult⟩
    obtain ⟨hsmall, rfl, rfl⟩ := (assignOffsets_eq_ok_iff hconsistent).mp hassign
    rw [mapM_directoryEntry hconsistent, ok.injEq] at hentries
    rw [planPayloads_eq hconsistent hsmall, ok.injEq, Prod.mk.injEq] at hpayloads
    obtain ⟨rfl, rfl⟩ := hpayloads
    subst hentries
    exact ⟨hconsistent, hdirectory, hwhole, hlimit, hresult⟩
  · rintro ⟨hconsistent, hdirectory, hwhole, hlimit, rfl⟩
    have hsmall : manifestOffsetOf blobs < 2 ^ 64 := by omega
    exact ⟨_, ⟨hconsistent, rfl⟩, _, _,
      (assignOffsets_eq_ok_iff hconsistent).mpr ⟨hsmall, rfl, rfl⟩, _, ⟨by omega, rfl⟩, _,
      mapM_directoryEntry hconsistent, _, rfl, hdirectory, _,
      ⟨(Nat.le_add_right _ _).trans_lt hwhole, rfl⟩, _, ⟨hwhole, rfl⟩, hlimit, _, _,
      planPayloads_eq hconsistent hsmall, rfl, _, ⟨by omega, rfl⟩, rfl, rfl⟩

end Tritium.Package
