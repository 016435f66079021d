import Tritium.Package.SeekReader
import Tritium.Package.Proof.Accounting

/-!
# The two readers agree

Over a source that serves a byte string, every call of the seeking reader answers like the reader of
that string in memory, errors included. Every range it asks for lies in the source, because the
layout and the directory were checked before.
-/

namespace Tritium.Package

open Cbor
open Seekable (Ready)
open Stateful (Implements)

variable {offset count start stop maxManifest maxDirectory : ℕ} {α ε : Type}

variable {σ ι : Type} {source : Seekable σ ι} {content bytes : List UInt8} {stands : ℕ → σ → Prop}
  {package : TritPackage}
  {codec : Codec} {digest packageId : List UInt8 → Digest} (hserves : source.Serves content stands)
  {layout : PackageReadLayout} {manifestOffset : ℕ}

theorem chunkBytes_pos : 0 < chunkBytes := by decide

include hserves

theorem sourceLength_implements :
    Implements (Ready stands) (sourceLength source) (.ok content.length) := by
  rintro state ⟨_, hstate⟩
  obtain ⟨after, hcall, hafter⟩ := hserves.seekEnd hstate
  rw [sourceLength, mapErr_apply_ok hcall]
  exact ⟨rfl, _, hafter⟩

theorem checkLength_implements :
    Implements (Ready stands) (checkLength source content.length) (.ok ()) := by
  apply (sourceLength_implements hserves).ok_bind
  rw [if_neg (not_not.mpr rfl)]
  exact Implements.pure ()

theorem seekTo_ok {position : ℕ} (hposition : position ≤ content.length) {state : σ}
    (hstate : Ready stands state) :
    ∃ after, seekTo source position state = (.ok (), after) ∧ stands position after := by
  obtain ⟨_, hstate⟩ := hstate
  obtain ⟨after, hcall, hafter⟩ := hserves.seekStart hstate hposition
  refine ⟨after, ?_, hafter⟩
  rw [seekTo, bind_apply_ok (mapErr_apply_ok hcall _), if_neg (not_not.mpr rfl)]
  rfl

theorem readAt_implements
    (hbytes : subslice content offset (offset + count) = some bytes) :
    Implements (Ready stands) (readAt source offset count) (.ok bytes) := by
  intro state hstate
  obtain ⟨start, hseek, hstart⟩ := seekTo_ok hserves (start_le_of_subslice hbytes) hstate
  obtain ⟨hanswer, hafter⟩ := hserves.scan chunkBytes (TritPackageReadError.io .read)
    (fun bytes chunk => .ok (bytes ++ chunk)) [] hbytes hstart
  rw [readAt, bind_apply_ok hseek]
  refine ⟨hanswer.trans ?_, hafter⟩
  exact visitChunks_eq_ok chunkBytes_pos id (fun _ _ => rfl) bytes

section

variable (hbytes : subslice content start stop = some bytes)

include hbytes

theorem readBuffer_implements :
    Implements (Ready stands) (readBuffer source start stop) (.ok bytes) := by
  have hle := (subslice_eq_some_iff.mp hbytes).1
  apply readAt_implements hserves
  rwa [Nat.add_sub_cancel' hle]

theorem visitRange_implements (visit : α → List UInt8 → Outcome ε α) (value : α) :
    Implements (Ready stands) (visitRange source start stop visit value)
      (visitChunks chunkBytes (fun value chunk => (visit value chunk).mapErr .visitor) value
        bytes) := by
  have hle := (subslice_eq_some_iff.mp hbytes).1
  intro state hstate
  obtain ⟨middle, hseek, hmiddle⟩ := seekTo_ok hserves (start_le_of_subslice hbytes) hstate
  rw [visitRange, bind_apply_ok (mapErr_apply_ok hseek _)]
  apply hserves.scan chunkBytes _ _ value _ hmiddle
  rwa [Nat.add_sub_cancel' hle]

/-- A visit by a visitor that only looks at the bytes altogether. -/
theorem visitRange_total {visit : α → List UInt8 → Outcome Empty α} (total : List UInt8 → α)
    (hvisit : ∀ seen chunk, visit (total seen) chunk = .ok (total (seen ++ chunk))) :
    Implements (Ready stands)
      ((visitRange source start stop visit (total [])).mapErr readError) (.ok (total bytes)) := by
  have hvisited := visitRange_implements hserves hbytes visit (total [])
  rw [visitChunks_eq_ok chunkBytes_pos total] at hvisited
  · exact hvisited.mapErr readError
  · intro seen chunk
    rw [hvisit, mapErr_ok]

end

theorem packageIdentity_implements :
    Implements (Ready stands) (packageIdentity source packageId content.length)
      (.ok (packageId content)) := by
  apply (checkLength_implements hserves).ok_bind
  apply (visitRange_total hserves (subslice_whole_iff.mpr rfl) id fun _ _ => rfl).ok_bind
  apply (checkLength_implements hserves).ok_bind
  exact Implements.pure _

theorem seekRanges_digest_implements (hle : start ≤ stop) (hstop : stop ≤ content.length) :
    Implements (Ready stands) ((seekRanges source digest).digest start stop)
      (((borrowedRanges digest content).digest start stop).mapErr .format) := by
  have hbytes : subslice content start stop = some _ := if_pos ⟨hle, hstop⟩
  rw [borrowedRanges]
  dsimp only
  rw [hbytes]
  apply (visitRange_total hserves hbytes id fun _ _ => rfl).ok_bind
  exact Implements.pure _

theorem seekRanges_isZero_implements (hle : start ≤ stop) (hstop : stop ≤ content.length) :
    Implements (Ready stands) ((seekRanges source digest).isZero start stop)
      (((borrowedRanges digest content).isZero start stop).mapErr .format) := by
  have hbytes : subslice content start stop = some _ := if_pos ⟨hle, hstop⟩
  rw [borrowedRanges]
  dsimp only
  rw [hbytes]
  apply visitRange_total hserves hbytes fun bytes => bytes.all (· = 0)
  intro seen chunk
  rw [List.all_append]

theorem checkBlob_implements (hmanifest : manifestOffset ≤ content.length)
    (unique : DigestMap (ℕ × ℕ)) (blob : TritBlobInfo) :
    Implements (Ready stands)
      (checkBlob (seekRanges source digest) manifestOffset unique blob)
      ((checkBlob (borrowedRanges digest content) manifestOffset unique blob).mapErr .format) := by
  rw [checkBlob, checkBlob]
  cases hstop : checkedAdd 64 blob.offset.toNat blob.length.toNat with
  | none => exact Implements.lift _
  | some stop =>
    obtain ⟨_, rfl⟩ := checkedAdd_eq_some_iff.mp hstop
    dsimp only
    split_ifs with houtside hshared
    · exact Implements.lift _
    · exact Implements.lift _
    · simp only [not_or, not_lt] at houtside
      apply (seekRanges_digest_implements hserves (Nat.le_add_right _ _)
        (houtside.2.2.trans hmanifest)).mapErr_bind
      intro found _
      split_ifs
      · exact Implements.lift _
      · exact Implements.pure _

theorem zeroGuard_implements (hle : start ≤ stop) (hstop : stop ≤ content.length) (value : α) :
    Implements (Ready stands)
      (do
        let zero ← (seekRanges source digest).isZero start stop
        if zero then return value else (seekRanges source digest).refuse .invalidDirectory)
      ((do
        let zero ← (borrowedRanges digest content).isZero start stop
        if zero then return value
          else (borrowedRanges digest content).refuse .invalidDirectory).mapErr .format) := by
  apply (seekRanges_isZero_implements hserves hle hstop).mapErr_bind
  intro zero _
  split_ifs
  · exact Implements.pure _
  · exact Implements.lift _

theorem sweepRange_implements {range : ℕ × ℕ} (hrange : range.1 ≤ content.length) (cursor : ℕ) :
    Implements (Ready stands) (sweepRange (seekRanges source digest) cursor range)
      ((sweepRange (borrowedRanges digest content) cursor range).mapErr .format) := by
  rw [sweepRange, sweepRange]
  by_cases hlt : range.1 < cursor
  · rw [if_pos hlt, if_pos hlt]
    exact Implements.lift _
  · rw [if_neg hlt, if_neg hlt]
    exact zeroGuard_implements hserves (not_lt.mp hlt) hrange range.2

theorem validateBlobRanges_implements (hheader : tritHeaderBytes ≤ manifestOffset)
    (hmanifest : manifestOffset ≤ content.length) (blobs : List TritBlobInfo) :
    Implements (Ready stands)
      (validateBlobRanges (seekRanges source digest) manifestOffset blobs)
      ((validateBlobRanges (borrowedRanges digest content) manifestOffset blobs).mapErr
        .format) := by
  apply (Implements.foldlM_mapErr (fun _ => True)
    (fun unique _ blob _ => checkBlob_implements hserves hmanifest unique blob)
    (fun _ _ _ _ _ _ => trivial) trivial).mapErr_bind
  intro unique hunique
  obtain ⟨hall, hshared, rfl⟩ := (foldlM_collect_iff Digest.compare checkBlob_eq_ok_iff).mp hunique
  have hranges : ∀ range ∈ sortBy compareRanges (payloadRanges blobs),
      range.1 ≤ range.2 ∧ range.2 ≤ manifestOffset := by
    intro range hrange
    obtain ⟨blob, hblob, rfl⟩ := (mem_payloadRanges_iff hshared).mp hrange
    exact ⟨blobRange_le blob, (hall blob hblob).1.before_manifest⟩
  have hcursor : ∀ cursor, cursor ≤ manifestOffset →
      ∀ range ∈ sortBy compareRanges (payloadRanges blobs), ∀ next,
        sweepRange (borrowedRanges digest content) cursor range = .ok next →
        next ≤ manifestOffset := by
    intro cursor _ range hrange next hnext
    obtain ⟨_, rfl⟩ := sweepRange_eq_ok_iff.mp hnext
    exact (hranges range hrange).2
  apply (Implements.foldlM_mapErr (· ≤ manifestOffset)
    (fun cursor _ range hrange => sweepRange_implements hserves
      (((hranges range hrange).1.trans (hranges range hrange).2).trans hmanifest) cursor)
    hcursor hheader).mapErr_bind
  intro last hlast
  have hle : last ≤ manifestOffset := Outcome.foldlM_kept hcursor hheader hlast
  exact zeroGuard_implements hserves hle hmanifest ()

omit hserves

section Limits

variable (codec digest) (bytes : List UInt8)

def readBody (footer : List UInt8) (layout : PackageReadLayout) :
    Outcome TritPackageError TritPackage := do
  let manifest ← okOr (subslice bytes layout.manifestStart layout.manifestStop) .truncated
  let directory ←
    okOr (subslice bytes layout.directoryStart layout.directoryStop) .truncated
  validateMetadataDigests digest manifest directory footer
  validateCanonicalManifest codec manifest
  let blobs ← decodeDirectory codec directory
  validateBlobRanges (borrowedRanges digest bytes) layout.manifestStart blobs
  return ⟨bytes, manifest, blobs⟩

/-- The reader in memory with a cap on the directory too. -/
def readWithLimits (maxManifest maxDirectory : ℕ) : Outcome TritPackageError TritPackage :=
  if bytes.length < tritHeaderBytes + footerBytes then
    .err .truncated
  else do
    let footerOffset ← Outcome.sub bytes.length footerBytes
    let footer ← slice bytes footerOffset bytes.length
    let header ← slice bytes 0 tritHeaderBytes
    let layout ← readLayout bytes.length header footer maxManifest maxDirectory
    readBody codec digest bytes footer layout

theorem readTritPackage_eq :
    readTritPackage codec digest bytes =
      readWithLimits codec digest bytes maxManifestBytes maxDirectoryBytes := rfl

end Limits

/-- The caps are not binding: they admit the lengths that the header declares. -/
structure TritPackageReadLimits.Admits (limits : TritPackageReadLimits) (bytes : List UInt8) :
    Prop where
  source : bytes.length ≤ limits.maxSourceBytes
  manifest : ∀ declared, readField bytes 24 8 = .ok declared → declared ≤ limits.maxManifestBytes
  directory : ∀ declared, readField bytes 40 8 = .ok declared → declared ≤ limits.maxDirectoryBytes

theorem LayoutFits.limits {length : ℕ} (hfits : LayoutFits length maxManifest maxDirectory layout)
    {maxManifest' maxDirectory' : ℕ}
    (hmanifest : layout.manifestStop - layout.manifestStart ≤ maxManifest')
    (hdirectory : layout.directoryStop - layout.directoryStart ≤ maxDirectory') :
    LayoutFits length maxManifest' maxDirectory' layout :=
  { hfits with
    manifest_limit := le_min (hfits.manifest_limit.trans (min_le_left _ _)) hmanifest
    directory_limit := le_min (hfits.directory_limit.trans (min_le_left _ _)) hdirectory }

theorem readWithLimits_eq_ok_iff_layout :
    readWithLimits codec digest bytes maxManifest maxDirectory = .ok package ↔
      ∃ footer layout, (subslice bytes (bytes.length - footerBytes) bytes.length = some footer ∧
        subslice bytes 0 tritHeaderBytes = some layout.header ∧ footer.length = footerBytes ∧
        footer.take 8 = tritFooterMagic) ∧ LayoutFits bytes.length maxManifest maxDirectory layout ∧
        readBody codec digest bytes footer layout = .ok package := by
  simp only [readWithLimits, refuse_eq_ok_iff, bind_eq_ok_iff, sub_eq_ok_iff, slice_eq_ok_iff,
    readLayout_eq_ok_iff, not_lt]
  constructor
  · rintro ⟨_, _, ⟨_, rfl⟩, footer, hfooter, _, hheader, layout, ⟨hfits, rfl, hparts⟩, hbody⟩
    exact ⟨footer, layout, ⟨hfooter, hheader, hparts⟩, hfits, hbody⟩
  · rintro ⟨footer, layout, ⟨hfooter, hheader, hparts⟩, hfits, hbody⟩
    have hlong := hfits.long
    exact ⟨hlong, _, ⟨by omega, rfl⟩, footer, hfooter, _, hheader, layout, ⟨hfits, rfl, hparts⟩,
      hbody⟩

theorem LayoutFits.declared {length : ℕ}
    (hfits : LayoutFits length maxManifest maxDirectory layout)
    (hheader : subslice bytes 0 tritHeaderBytes = some layout.header) :
    readField bytes 24 8 = .ok (layout.manifestStop - layout.manifestStart) ∧
      readField bytes 40 8 = .ok (layout.directoryStop - layout.directoryStart) := by
  have hmanifest := hfits.manifest_le
  have hadjacent := hfits.adjacent
  have hdirectory := hfits.directory_le
  have hsmall := hfits.small
  obtain ⟨_, hmanifestField, _, hdirectoryField⟩ :=
    readField_of_header hheader (by omega) (by omega)
  exact ⟨hmanifestField, hdirectoryField⟩

/-- The caps only decide whether the declared lengths are admitted. -/
theorem readWithLimits_eq_ok_iff :
    readWithLimits codec digest bytes maxManifest maxDirectory = .ok package ↔
      readTritPackage codec digest bytes = .ok package ∧
        (∀ declared, readField bytes 24 8 = .ok declared → declared ≤ maxManifest) ∧
        ∀ declared, readField bytes 40 8 = .ok declared → declared ≤ maxDirectory := by
  rw [readTritPackage_eq, readWithLimits_eq_ok_iff_layout, readWithLimits_eq_ok_iff_layout]
  constructor
  · rintro ⟨footer, layout, hslices, hfits, hbody⟩
    obtain ⟨hmanifest, hdirectory⟩ := hfits.declared hslices.2.1
    refine ⟨⟨footer, layout, hslices, hfits.limits (hfits.manifest_limit.trans (min_le_left _ _))
      (hfits.directory_limit.trans (min_le_left _ _)), hbody⟩, ?_, ?_⟩
    · intro declared hdeclared
      rw [hmanifest, ok.injEq] at hdeclared
      exact hdeclared ▸ hfits.manifest_limit.trans (min_le_right _ _)
    · intro declared hdeclared
      rw [hdirectory, ok.injEq] at hdeclared
      exact hdeclared ▸ hfits.directory_limit.trans (min_le_right _ _)
  · rintro ⟨⟨footer, layout, hslices, hfits, hbody⟩, hmanifestLimit, hdirectoryLimit⟩
    obtain ⟨hmanifest, hdirectory⟩ := hfits.declared hslices.2.1
    exact ⟨footer, layout, hslices,
      hfits.limits (hmanifestLimit _ hmanifest) (hdirectoryLimit _ hdirectory), hbody⟩

def readerOf (packageId : List UInt8 → Digest) (package : TritPackage) : TritPackageReader :=
  ⟨package.manifest, package.blobs, package.bytes.length, packageId package.bytes⟩

/-- The package in a byte string, under the caps of the caller. -/
def admittedPackage (ι : Type) (codec : Codec) (digest : List UInt8 → Digest)
    (limits : TritPackageReadLimits) (content : List UInt8) :
    Outcome (TritPackageReadError ι) TritPackage :=
  if limits.maxSourceBytes < content.length then
    .err (.sourceLimitExceeded content.length limits.maxSourceBytes)
  else
    (readWithLimits codec digest content limits.maxManifestBytes limits.maxDirectoryBytes).mapErr
      .format

theorem admittedPackage_eq_ok_iff {limits : TritPackageReadLimits} :
    admittedPackage ι codec digest limits content = .ok package ↔
      limits.Admits content ∧ readTritPackage codec digest content = .ok package := by
  rw [admittedPackage, refuse_eq_ok_iff, mapErr_eq_ok_iff, readWithLimits_eq_ok_iff, not_lt]
  constructor
  · rintro ⟨hsource, hread, hmanifest, hdirectory⟩
    exact ⟨⟨hsource, hmanifest, hdirectory⟩, hread⟩
  · rintro ⟨⟨hsource, hmanifest, hdirectory⟩, hread⟩
    exact ⟨hsource, hread, hmanifest, hdirectory⟩

section

variable (hread : readTritPackage codec digest content = .ok package)

include hread

theorem bytes_of_read : package.bytes = content := by
  obtain ⟨_, _, hreadable⟩ := readTritPackageWithManifestLimit_eq_ok_iff.mp hread
  exact hreadable.whole

theorem readerOf_read : readerOf packageId package =
      ⟨package.manifest, package.blobs, content.length, packageId content⟩ := by
  rw [readerOf, bytes_of_read hread]

theorem exists_blob {index : ℕ} {entry : TritBlobInfo}
    (hentry : package.blobs[index]? = some entry) :
    ∃ blob, package.blob digest entry = .ok blob ∧ blob.length = entry.length.toNat := by
  obtain ⟨_, _, hreadable⟩ := readTritPackageWithManifestLimit_eq_ok_iff.mp hread
  have hmem := List.mem_of_getElem? hentry
  obtain ⟨blob, hslice, hdigest⟩ := hreadable.accounted.holds entry hmem
  have hlength := add_length_of_subslice hslice
  rw [blobRange] at hlength
  exact ⟨blob, blob_eq_ok_iff.mpr ⟨(hreadable.accounted.placed entry hmem).small,
    hreadable.whole.symm ▸ hslice, hdigest⟩, by omega⟩

end

include hserves in
/-- Opening a source answers like reading its content, errors included. -/
theorem openReader_implements (limits : TritPackageReadLimits) :
    Implements (Ready stands) (openReader source codec digest packageId limits)
      (do
        let package ← admittedPackage ι codec digest limits content
        return readerOf packageId package) := by
  apply (sourceLength_implements hserves).ok_bind
  rw [admittedPackage]
  by_cases hsource : limits.maxSourceBytes < content.length
  · rw [if_pos hsource, if_pos hsource]
    exact Implements.lift _
  rw [if_neg hsource, if_neg hsource, ← Outcome.mapErr_map, readWithLimits]
  by_cases hlong : content.length < tritHeaderBytes + footerBytes
  · rw [if_pos hlong, if_pos hlong]
    exact Implements.lift _
  rw [if_neg hlong, if_neg hlong, sub_of_le (by omega), sub_of_le (by omega), ok_bind]
  obtain ⟨header, hheader⟩ : ∃ header, subslice content 0 tritHeaderBytes = some header :=
    ⟨_, if_pos ⟨by omega, by omega⟩⟩
  obtain ⟨footer, hfooter⟩ : ∃ footer,
      subslice content (content.length - footerBytes) content.length = some footer :=
    ⟨_, if_pos ⟨by omega, le_rfl⟩⟩
  have hfooterRead : subslice content (content.length - footerBytes)
      (content.length - footerBytes + footerBytes) = some footer := by
    rwa [Nat.sub_add_cancel (by omega)]
  rw [slice_eq_ok_iff.mpr hfooter, slice_eq_ok_iff.mpr hheader, ok_bind, ok_bind]
  apply (readAt_implements hserves hheader).ok_bind
  apply (readAt_implements hserves hfooterRead).ok_bind
  rw [bind_assoc]
  apply (Implements.lift _).mapErr_bind
  intro layout hlayout
  obtain ⟨hfits, _⟩ := readLayout_eq_ok_iff.mp hlayout
  apply (packageIdentity_implements hserves).ok_bind
  apply (readAt_implements hserves hheader).ok_bind
  apply (readAt_implements hserves hfooterRead).ok_bind
  rw [if_neg (not_or.mpr ⟨not_not.mpr rfl, not_not.mpr rfl⟩), readBody]
  have hmanifestLe := hfits.manifest_le
  have hadjacent := hfits.adjacent
  have hdirectoryLe := hfits.directory_le
  have hbefore := hfits.before_footer
  have hmanifest : subslice content layout.manifestStart layout.manifestStop = some _ :=
    if_pos ⟨by omega, by omega⟩
  have hdirectory : subslice content layout.directoryStart layout.directoryStop = some _ :=
    if_pos ⟨by omega, by omega⟩
  rw [hmanifest, hdirectory, okOr_bind, okOr_bind]
  apply (readBuffer_implements hserves hmanifest).ok_bind
  apply (readBuffer_implements hserves hdirectory).ok_bind
  rw [bind_assoc]
  apply (Implements.lift _).mapErr_bind
  intro _ _
  rw [bind_assoc]
  apply (Implements.lift _).mapErr_bind
  intro _ _
  rw [bind_assoc]
  apply (Implements.lift _).mapErr_bind
  intro blobs _
  rw [bind_assoc]
  apply (validateBlobRanges_implements hserves hfits.behind_header (by omega) blobs).mapErr_bind
  intro _ _
  apply (packageIdentity_implements hserves).ok_bind
  rw [if_neg (not_not.mpr rfl)]
  exact Implements.pure _

section Package

variable (hpackage : package.bytes = content)

include hserves hpackage

theorem verify_implements :
    Implements (Ready stands) ((readerOf packageId package).verify source packageId)
      (.ok ()) := by
  subst hpackage
  apply (packageIdentity_implements hserves).ok_bind
  rw [readerOf, if_neg (not_not.mpr rfl)]
  exact Implements.pure ()

variable {index : ℕ} {entry : TritBlobInfo} {blob : List UInt8}
  (hentry : package.blobs[index]? = some entry) (hblob : package.blob digest entry = .ok blob)

include hentry hblob

theorem readBlobRange_implements (hrange : offset + count ≤ blob.length) :
    Implements (Ready stands)
      ((readerOf packageId package).readBlobRange source index offset count)
      (.ok ((blob.drop offset).take count)) := by
  subst hpackage
  obtain ⟨_, hslice, _⟩ := blob_eq_ok_iff.mp hblob
  have hlength := add_length_of_subslice hslice
  rw [blobRange] at hlength
  rw [TritPackageReader.readBlobRange, readerOf, hentry, okOr_some, lift_ok_bind,
    checkedAdd_of_lt (by omega), okOr_some, lift_ok_bind, if_neg (by omega),
    checkedAdd_of_lt (by omega)]
  exact readAt_implements hserves (subslice_of_subslice hslice hrange)

end Package

/-- A request outside the blob is refused before the source is touched. -/
theorem readBlobRange_refused {reader : TritPackageReader} {index : ℕ}
    (houtside : ∀ entry, reader.blobs[index]? = some entry → entry.length.toNat < offset + count) :
    ∃ error, ∀ (source : Seekable σ ι) (state : σ),
      reader.readBlobRange source index offset count state = (.err error, state) := by
  cases hentry : reader.blobs[index]? with
  | none =>
    refine ⟨.format .invalidDirectory, fun source state => ?_⟩
    rw [TritPackageReader.readBlobRange, hentry]
    rfl
  | some entry =>
    have hlt := houtside entry hentry
    by_cases hsmall : offset + count < 2 ^ 64
    · refine ⟨.format .invalidDirectory, fun source state => ?_⟩
      rw [TritPackageReader.readBlobRange, hentry, okOr_some, lift_ok_bind,
        checkedAdd_of_lt hsmall, okOr_some, lift_ok_bind, if_pos hlt]
      rfl
    · refine ⟨.format .lengthOverflow, fun source state => ?_⟩
      rw [TritPackageReader.readBlobRange, hentry, checkedAdd, if_neg hsmall]
      rfl

/-- Opens a source and verifies it in full. -/
def openVerified (source : Seekable σ ι) (codec : Codec) (digest packageId : List UInt8 → Digest)
    (limits : TritPackageReadLimits) : Stateful σ (TritPackageReadError ι) TritPackageReader := do
  let reader ← openReader source codec digest packageId limits
  reader.verify source packageId
  return reader

include hserves in
theorem openVerified_implements (limits : TritPackageReadLimits) :
    Implements (Ready stands) (openVerified source codec digest packageId limits)
      (do
        let package ← admittedPackage ι codec digest limits content
        return readerOf packageId package) := by
  apply (openReader_implements hserves limits).bind_check
  intro reader hreader
  obtain ⟨package, hadmitted, rfl⟩ := bind_pure_eq_ok hreader
  have hread := (admittedPackage_eq_ok_iff.mp hadmitted).2
  apply (verify_implements hserves (bytes_of_read hread)).ok_bind
  exact Implements.pure _

theorem sample_admitted :
    (⟨usizeMax, usizeMax, usizeMax⟩ : TritPackageReadLimits).Admits
      (packageOf headDigest sampleManifest sampleBlobs) := by
  have hfield {bytes : List UInt8} {offset declared : ℕ}
      (hdeclared : readField bytes offset 8 = .ok declared) : declared ≤ usizeMax :=
    Nat.le_of_lt_succ (readField_eq_ok_iff.mp hdeclared).1
  exact ⟨by decide +kernel, fun _ => hfield, fun _ => hfield⟩

theorem readTritPackage_sample :
    readTritPackage profileCodec headDigest (packageOf headDigest sampleManifest sampleBlobs) =
      .ok ⟨packageOf headDigest sampleManifest sampleBlobs, sampleManifest,
        directoryOf headDigest sampleBlobs⟩ :=
  readTritPackageWithManifestLimit_eq_ok_iff.mpr
    ⟨_, _, readable_packageOf (@sample_writable profileCodec)⟩

/-- **The seeking reader agrees with the one in memory.** Over a source that serves the bytes,
opening and verifying it succeeds just when the reader in memory does and the caps admit what the
header declares, and gives the same manifest and entries. A range inside a blob comes back as that
slice of it, and any other request is refused with the source untouched. -/
theorem tritPackageReader_agrees (codec : Codec) (digest packageId : List UInt8 → Digest)
    (limits : TritPackageReadLimits) (source : Seekable σ ι) (content : List UInt8)
    (stands : ℕ → σ → Prop) (hserves : source.Serves content stands) (state : σ)
    (hstate : Ready stands state) :
    (Ready stands (openVerified source codec digest packageId limits state).2 ∧
      ∀ reader, (openVerified source codec digest packageId limits state).1 = .ok reader ↔
        limits.Admits content ∧ ∃ package, readTritPackage codec digest content = .ok package ∧
          reader = ⟨package.manifest, package.blobs, content.length, packageId content⟩) ∧
    (∀ package, readTritPackage codec digest content = .ok package →
      ∀ index entry, package.blobs[index]? = some entry →
        ∃ blob, package.blob digest entry = .ok blob ∧ blob.length = entry.length.toNat ∧
          ∀ offset count, offset + count ≤ entry.length.toNat → Stateful.Implements (Ready stands)
              (TritPackageReader.readBlobRange source
                ⟨package.manifest, package.blobs, content.length, packageId content⟩ index offset
                count) (.ok ((blob.drop offset).take count))) ∧
    ∀ (reader : TritPackageReader) (index offset count : ℕ),
      (∀ entry, reader.blobs[index]? = some entry → entry.length.toNat < offset + count) →
      ∃ error, ∀ (source : Seekable σ ι) (state : σ),
        reader.readBlobRange source index offset count state = (.err error, state) := by
  refine ⟨?_, ?_, fun reader index offset count => readBlobRange_refused⟩
  · obtain ⟨hanswer, hready⟩ := openVerified_implements hserves limits state hstate
    refine ⟨hready, fun reader => ?_⟩
    simp only [hanswer, bind_eq_ok_iff, admittedPackage_eq_ok_iff, pure_eq_ok, ok.injEq]
    constructor
    · rintro ⟨package, ⟨hadmits, hread⟩, rfl⟩
      exact ⟨hadmits, package, hread, readerOf_read hread⟩
    · rintro ⟨hadmits, package, hread, rfl⟩
      exact ⟨package, ⟨hadmits, hread⟩, readerOf_read hread⟩
  · intro package hread index entry hentry
    obtain ⟨blob, hblob, hlength⟩ := exists_blob hread hentry
    refine ⟨blob, hblob, hlength, fun offset count hrange => ?_⟩
    rw [← readerOf_read hread]
    exact readBlobRange_implements hserves (bytes_of_read hread) hentry hblob (by omega)

theorem tritPackageReader_agrees_sample :
    ∃ reader,
      (openVerified Seekable.cursor profileCodec headDigest headDigest
        ⟨usizeMax, usizeMax, usizeMax⟩
        (packageOf headDigest sampleManifest sampleBlobs, 7)).1 = .ok reader ∧
      reader.manifest = sampleManifest ∧ reader.blobs = directoryOf headDigest sampleBlobs := by
  obtain ⟨⟨_, hopen⟩, _⟩ := tritPackageReader_agrees profileCodec headDigest headDigest
    ⟨usizeMax, usizeMax, usizeMax⟩ Seekable.cursor _ _
    (Seekable.cursor_serves (packageOf headDigest sampleManifest sampleBlobs))
    (packageOf headDigest sampleManifest sampleBlobs, 7) ⟨7, rfl⟩
  exact ⟨_, (hopen _).mpr ⟨sample_admitted, _, readTritPackage_sample, rfl⟩, rfl, rfl⟩

end Tritium.Package
