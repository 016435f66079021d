import Tritium.Model.SeekReader
import Tritium.Package.Proof.SeekReader

/-!
# The two readers of a model agree

Each window holds a part of its blob, whatever was asked before. A request is then answered with the
bytes of the blob in memory, and the validator, which sees no more of its source, comes to the same
result.
-/

namespace Tritium.Model

open Package
open Seekable (Ready)
open Stateful (Implements)

def BlobAt (digest : List UInt8 → Digest) (package : TritPackage) (index : ℕ)
    (bytes : List UInt8) : Prop :=
  ∃ entry, package.blobs[index]? = some entry ∧ package.blob digest entry = .ok bytes ∧
    entry.length.toNat = bytes.length

def Cache.Holds (digest : List UInt8 → Digest) (package : TritPackage) (cache : Cache) : Prop :=
  ∀ blob, cache.blob = some blob → ∃ bytes, BlobAt digest package blob bytes ∧
    subslice bytes cache.start (cache.start + cache.length) = some (cache.bytes.take cache.length)

def Held (digest : List UInt8 → Digest) (package : TritPackage) {σ : Type} (stands : ℕ → σ → Prop)
    (state : σ × Windows) : Prop :=
  Ready stands state.1 ∧ ∀ slot, (state.2.cache slot).Holds digest package

variable {digest packageId : List UInt8 → Digest} {package : TritPackage} {blob : ℕ}
  {count offset position index : ℕ} {windows : Windows} {bytes : List UInt8}

theorem BlobAt.unique {left right : List UInt8} (hleft : BlobAt digest package index left)
    (hright : BlobAt digest package index right) : left = right := by
  obtain ⟨entry, hentry, hblob, _⟩ := hleft
  obtain ⟨_, hentry', hblob', _⟩ := hright
  obtain rfl := Option.some.inj (hentry.symm.trans hentry')
  exact ok.inj (hblob.symm.trans hblob')

theorem Cache.covers_iff {cache : Cache} :
    cache.covers blob position = true ↔ cache.blob = some blob ∧ cache.start ≤ position ∧
        position - cache.start < cache.length := by
  rw [Cache.covers, decide_eq_true_iff]

/-- A window that covers a byte has the bytes of the blob from there to its end. -/
theorem Cache.Holds.slice {cache : Cache} (hcache : cache.Holds digest package)
    (hblob : BlobAt digest package blob bytes) (hcovers : cache.covers blob position = true)
    (hcount : position - cache.start + count ≤ cache.length) :
    subslice cache.bytes (position - cache.start) (position - cache.start + count) =
      some ((bytes.drop position).take count) := by
  obtain ⟨hname, hstart, _⟩ := Cache.covers_iff.mp hcovers
  obtain ⟨held, hheld, hslice⟩ := hcache blob hname
  obtain rfl := hheld.unique hblob
  have hlength := length_of_subslice hslice
  obtain ⟨_, _, htake⟩ := subslice_eq_some_iff.mp hslice
  rw [List.length_take] at hlength
  have hsame : (cache.bytes.drop (position - cache.start)).take count =
      (held.drop position).take count := by
    have hfull := congrArg (fun part => (part.drop (position - cache.start)).take count) htake
    simp only [List.drop_take, List.take_take, List.drop_drop] at hfull
    rwa [min_eq_left (by omega), min_eq_left (by omega), Nat.add_sub_cancel' hstart] at hfull
  rw [subslice_of_add_le (by omega), hsame]

theorem Windows.load_holds (hheld : ∀ slot, (windows.cache slot).Holds digest package)
    (slot : Fin 2) {blob start : ℕ} {bytes loaded : List UInt8}
    (hblob : BlobAt digest package blob bytes)
    (hloaded : subslice bytes start (start + loaded.length) = some loaded) (other : Fin 2) :
    ((windows.load slot blob start loaded.length loaded).cache other).Holds digest package := by
  change Cache.Holds digest package (Function.update windows.cache slot _ other)
  rw [Function.update_apply]
  by_cases hother : other = slot
  · rw [if_pos hother]
    rintro _ ⟨⟩
    exact ⟨bytes, hblob, by rw [List.take_left' rfl, hloaded]⟩
  · rw [if_neg hother]
    exact hheld other

section Source

variable {σ ι : Type} {source : Seekable σ ι} {stands : ℕ → σ → Prop}
  (hserves : source.Serves package.bytes stands) {blob : ℕ} {bytes : List UInt8}
  (hblob : BlobAt digest package blob bytes) {state : σ × Windows}

include hserves hblob

theorem windowAt_ok (hposition : position < bytes.length)
    (hstate : Held digest package stands state) :
    ∃ slot after,
      windowAt source (readerOf packageId package) blob bytes.length position state =
        (.ok slot, after) ∧
      Held digest package stands after ∧ (after.2.cache slot).covers blob position = true := by
  obtain ⟨hready, hheld⟩ := hstate
  rw [windowAt, current_bind]
  dsimp only
  cases hhit : state.2.position (·.covers blob position) with
  | some slot =>
    exact ⟨slot, state, rfl, ⟨hready, hheld⟩,
      List.find?_some (p := fun slot => (state.2.cache slot).covers blob position) hhit⟩
  | none =>
    dsimp only
    generalize (state.2.position (·.blob = some blob)).getD state.2.replace = slot
    have hstart : position / rangeBytes * rangeBytes ≤ position := Nat.div_mul_le_self _ _
    have hnext : position < position / rangeBytes * rangeBytes + rangeBytes :=
      Nat.lt_div_mul_add (by decide)
    generalize position / rangeBytes * rangeBytes = start at hstart hnext ⊢
    rw [sub_of_le (by omega), lift_ok_bind]
    have hcount : start + min (bytes.length - start) rangeBytes ≤ bytes.length := by omega
    have hcovered : position - start < min (bytes.length - start) rangeBytes := by omega
    generalize min (bytes.length - start) rangeBytes = count at hcount hcovered ⊢
    have hlength : ((bytes.drop start).take count).length = count := by simp; omega
    have hslice := subslice_of_add_le hcount
    obtain ⟨entry, hentry, hentryBlob, _⟩ := id hblob
    have hload : Implements (Ready stands)
        ((readerOf packageId package).readBlobRange source blob start count) _ :=
      readBlobRange_implements hserves rfl hentry hentryBlob hcount
    obtain ⟨hanswer, hafter⟩ := hload.mapErr TritModelReadError.source state.1 hready
    generalize (bytes.drop start).take count = loaded at *
    obtain rfl := hlength
    rw [bind_apply_ok (left_apply (Prod.ext hanswer rfl))]
    refine ⟨slot, _, rfl, ⟨hafter, Windows.load_holds hheld slot hblob hslice⟩, ?_⟩
    change (Function.update state.2.cache slot _ slot).covers blob position = true
    rw [Function.update_self]
    exact Cache.covers_iff.mpr ⟨rfl, hstart, hcovered⟩

/-- A turn of the loop copies some of the bytes that are missing. -/
theorem copyNext_ok {copied : ℕ} (hcopied : copied < count) (hrange : offset + count ≤ bytes.length)
    (hstate : Held digest package stands state) :
    ∃ copied' after, copied < copied' ∧ copied' ≤ count ∧
      copyNext source (readerOf packageId package) blob bytes.length offset count
        ((bytes.drop offset).take copied) state = (.ok ((bytes.drop offset).take copied'), after) ∧
      Held digest package stands after := by
  have hlength : ((bytes.drop offset).take copied).length = copied := by simp; omega
  obtain ⟨slot, after, hwindow, hafter, hcovers⟩ :=
    windowAt_ok hserves hblob (show offset + copied < bytes.length by omega) hstate
  obtain ⟨_, hstart, hposition⟩ := Cache.covers_iff.mp hcovers
  rw [copyNext, hlength, if_pos hcopied, bind_apply_ok hwindow, current_bind]
  dsimp only
  rw [sub_of_le hstart, lift_ok_bind, sub_of_le hposition.le, lift_ok_bind,
    slice_eq_ok_iff.mpr ((hafter.2 slot).slice hblob hcovers (by omega)), lift_ok_bind,
    ← List.drop_drop, ← List.take_add]
  exact ⟨_, after, by omega, by omega, rfl, hafter⟩

theorem copyLoop_ok {turns copied : ℕ} (hturns : count ≤ copied + turns) (hcopied : copied ≤ count)
    (hrange : offset + count ≤ bytes.length) (hstate : Held digest package stands state) :
    ∃ after,
      timesM (copyNext source (readerOf packageId package) blob bytes.length offset count) turns
        ((bytes.drop offset).take copied) state = (.ok ((bytes.drop offset).take count), after) ∧
      Held digest package stands after := by
  induction turns generalizing copied state with
  | zero =>
    obtain rfl : copied = count := by omega
    exact ⟨state, rfl, hstate⟩
  | succ turns ih =>
    rw [timesM]
    by_cases hlt : copied < count
    · obtain ⟨copied', after, _, hle, hstep, hafter⟩ :=
        copyNext_ok hserves hblob hlt hrange hstate
      rw [bind_apply_ok hstep]
      exact ih (by omega) hle hafter
    · obtain rfl : copied = count := by omega
      have hfull : ¬((bytes.drop offset).take copied).length < copied := by simp; omega
      have hstep : copyNext source (readerOf packageId package) blob bytes.length offset copied
          ((bytes.drop offset).take copied) state =
            (.ok ((bytes.drop offset).take copied), state) := by
        rw [copyNext, if_neg hfull]
        rfl
      rw [bind_apply_ok hstep]
      exact ih (by omega) le_rfl hstate

end Source

/-- What a request is answered with, whatever the windows hold. -/
def servedRange (ι : Type) (package : TritPackage) (blob offset count : ℕ) :
    Outcome (TritModelReadError ι) (List UInt8) := do
  let info ← okOr package.blobs[blob]? (.source (.format .invalidDirectory))
  let stop ← okOr (checkedAdd 64 offset count) (.source (.format .lengthOverflow))
  if info.length.toNat < stop then
    .err (.source (.format .invalidDirectory))
  else do
    let bytes ← (indexedBlob package blob).mapErr fun error => .source (.format error)
    return (bytes.drop offset).take count

theorem BlobAt.indexedBlob_eq (hblob : BlobAt digest package index bytes) :
    indexedBlob package index = .ok bytes := by
  obtain ⟨entry, hentry, hbytes, _⟩ := hblob
  obtain ⟨hsmall, hslice, _⟩ := blob_eq_ok_iff.mp hbytes
  rw [indexedBlob, hentry, okOr_bind, checkedAdd_of_lt hsmall]
  exact okOr_eq_ok_iff.mpr hslice

theorem borrowedRange_of_le (hblob : BlobAt digest package blob bytes)
    (hrange : offset + count ≤ bytes.length) :
    borrowedRange package blob offset count = .ok ((bytes.drop offset).take count) := by
  obtain ⟨entry, _, _, _⟩ := id hblob
  have hsmall := entry.length.toNat_lt
  rw [borrowedRange, checkedAdd_of_lt (by omega), okOr_bind, hblob.indexedBlob_eq, mapErr_ok,
    ok_bind, subslice_of_add_le hrange, okOr_some]

theorem servedRange_refused {ι : Type}
    (houtside : ∀ entry, package.blobs[blob]? = some entry → entry.length.toNat < offset + count) :
    ∃ error, servedRange ι package blob offset count = .err error := by
  rw [servedRange]
  cases hentry : package.blobs[blob]? with
  | none => exact ⟨_, rfl⟩
  | some entry =>
    rw [okOr_bind, checkedAdd]
    by_cases hsmall : offset + count < 2 ^ 64
    · rw [if_pos hsmall, okOr_bind, if_pos (houtside entry hentry)]
      exact ⟨_, rfl⟩
    · rw [if_neg hsmall]
      exact ⟨_, rfl⟩

section Read

variable {codec : Cbor.Codec} (hread : readTritPackage codec digest package.bytes = .ok package)
  {ι : Type}

include hread

theorem exists_blobAt {entry : TritBlobInfo} (hentry : package.blobs[index]? = some entry) :
    ∃ bytes, BlobAt digest package index bytes := by
  obtain ⟨bytes, hbytes, hlength⟩ := exists_blob hread hentry
  exact ⟨bytes, entry, hentry, hbytes, hlength.symm⟩

variable (packageId) in
theorem cachedRange_implements {σ : Type} {source : Seekable σ ι} {stands : ℕ → σ → Prop}
    (hserves : source.Serves package.bytes stands) (blob offset count : ℕ) :
    Implements (Held digest package stands)
      (cachedRange source (readerOf packageId package) blob offset count)
      (servedRange ι package blob offset count) := by
  apply (Implements.lift _).bind
  intro info hinfo
  have hentry := okOr_eq_ok_iff.mp hinfo
  apply (Implements.lift _).bind
  intro stop hstop
  obtain ⟨_, rfl⟩ := checkedAdd_eq_ok hstop
  by_cases hinside : info.length.toNat < offset + count
  · rw [if_pos hinside, if_pos hinside]
    exact Implements.lift _
  rw [if_neg hinside, if_neg hinside]
  obtain ⟨bytes, hblob⟩ := exists_blobAt hread hentry
  obtain ⟨_, hentry', _, hlength⟩ := id hblob
  obtain rfl := Option.some.inj (hentry.symm.trans hentry')
  rw [hblob.indexedBlob_eq, hlength]
  intro state hstate
  obtain ⟨after, hloop, hafter⟩ := copyLoop_ok hserves hblob (le_of_eq (Nat.zero_add count).symm)
    (Nat.zero_le count) (show offset + count ≤ bytes.length by omega) hstate
  rw [List.take_zero] at hloop
  rw [hloop]
  exact ⟨rfl, hafter⟩

theorem servedRange_eq_ok_iff {part : List UInt8} :
    servedRange ι package blob offset count = .ok part ↔
      borrowedRange package blob offset count = .ok part := by
  rw [servedRange, borrowedRange]
  cases hentry : package.blobs[blob]? with
  | none =>
    rw [indexedBlob, hentry]
    simp [bind_eq_ok_iff, okOr_eq_ok_iff, mapErr_eq_ok_iff]
  | some entry =>
    obtain ⟨bytes, hblob⟩ := exists_blobAt hread hentry
    obtain ⟨_, hentry', _, hlength⟩ := id hblob
    obtain rfl := Option.some.inj (hentry.symm.trans hentry')
    rw [okOr_bind, hblob.indexedBlob_eq, mapErr_ok, mapErr_ok, hlength]
    simp only [ok_bind, bind_eq_ok_iff, okOr_eq_ok_iff, checkedAdd_eq_some_iff, refuse_eq_ok_iff,
      pure_eq_ok, ok.injEq, not_lt]
    constructor
    · rintro ⟨_, ⟨hsmall, rfl⟩, hrange, rfl⟩
      exact ⟨_, ⟨hsmall, rfl⟩, subslice_of_add_le hrange⟩
    · rintro ⟨_, ⟨hsmall, rfl⟩, hslice⟩
      have hrange := (subslice_eq_some_iff.mp hslice).2.1
      rw [subslice_of_add_le hrange, Option.some.injEq] at hslice
      exact ⟨_, ⟨hsmall, rfl⟩, hrange, hslice⟩

theorem run_served_eq_ok_iff {α : Type} {program : Ranged TritModelError α} {value : α} :
    program.run (servedRange ι package) (·.mapErr .model) = .ok value ↔
      program.run (borrowedRange package) (·.mapErr id) = .ok value :=
  Ranged.run_eq_ok_congr (fun _ _ _ _ => servedRange_eq_ok_iff hread) _ _ program value

end Read

section Admission

variable {σ ι : Type} {source : Seekable σ ι} {content : List UInt8} {stands : ℕ → σ → Prop}
  {codec : Cbor.Codec} {code : ModelCode}

theorem held_new {state : σ} (hstate : Ready stands state) :
    Held digest package stands (state, Windows.new) :=
  ⟨hstate, fun _ _ => nofun⟩

theorem openModelReader_implements (hserves : source.Serves content stands)
    (limits : TritPackageReadLimits) :
    Implements (Ready stands)
      (openModelReader source codec digest packageId code limits)
      (do
        let package ← (admittedPackage ι codec digest limits content).mapErr .source
        let manifest ← (code.decodeModelManifest package.manifest).mapErr .model
        let binding ← (validateBindings code manifest package.blobs).run (servedRange ι package)
          (·.mapErr .model)
        return ⟨readerOf packageId package, binding⟩) := by
  have hreader : Implements (Ready stands)
      (openReader source codec digest packageId limits) _ := openReader_implements hserves limits
  have hopen := hreader.mapErr TritModelReadError.source
  rw [Outcome.mapErr_map] at hopen
  apply hopen.bind_map
  intro package hadmitted
  have hread := (admittedPackage_eq_ok_iff.mp (mapErr_eq_ok_iff.mp hadmitted)).2
  obtain rfl := bytes_of_read hread
  apply (Implements.lift _).bind
  intro manifest _
  have hrun := Ranged.run_implements (cachedRange_implements packageId hread hserves)
    TritModelReadError.model (validateBindings code manifest package.blobs)
  apply (hrun.within (fun _ => held_new) fun _ hheld => hheld.1).bind
  intro binding _
  exact ((verify_implements hserves rfl).mapErr _).ok_bind (Implements.pure _)

end Admission

/-- **The seeking reader of a model agrees with the one in memory.** Over a source that serves the
bytes, opening a model succeeds just when reading it in memory does and the caps admit what the
header declares. Both then have the same manifest, tensor digests and model identities. Whatever was
asked before, a request through the windows is answered with that range of the blob, and refused when
the range is not inside one. -/
theorem tritModelReader_agrees {σ ι : Type} (codec : Cbor.Codec)
    (digest packageId : List UInt8 → Digest) (code : ModelCode) (limits : TritPackageReadLimits)
    (source : Seekable σ ι) (content : List UInt8) (stands : ℕ → σ → Prop)
    (hserves : source.Serves content stands) (state : σ) (hstate : Ready stands state) :
    (∀ reader, (openModelReader source codec digest packageId code limits state).1 = .ok reader ↔
        limits.Admits content ∧ ∃ model, readTritModel codec digest code content = .ok model ∧
          reader = ⟨⟨model.package.manifest, model.package.blobs, content.length,
            packageId content⟩, model.binding⟩) ∧ (∀ reader model,
      (openModelReader source codec digest packageId code limits state).1 = .ok reader →
      readTritModel codec digest code content = .ok model →
        reader.binding.manifest = model.binding.manifest ∧ (∀ level name,
          reader.binding.tensorDigest level name = model.binding.tensorDigest level name) ∧
        ∀ level, reader.binding.modelId level = model.binding.modelId level) ∧
    ∀ package, readTritPackage codec digest content = .ok package →
      ∀ (requests : List (ℕ × ℕ × ℕ)) (blob offset count : ℕ),
        let call := fun request : ℕ × ℕ × ℕ => cachedRange source
          ⟨package.manifest, package.blobs, content.length, packageId content⟩
          request.1 request.2.1 request.2.2
        let answer := (call (blob, offset, count)
          (Stateful.reached call requests (state, Windows.new))).1
        (∀ entry, package.blobs[blob]? = some entry → offset + count ≤ entry.length.toNat →
          ∃ bytes, package.blob digest entry = .ok bytes ∧
            answer = .ok ((bytes.drop offset).take count)) ∧
        ((∀ entry, package.blobs[blob]? = some entry → entry.length.toNat < offset + count) →
          ∃ error, answer = .err error) := by
  have hiff (reader : TritModelReader) :
      (openModelReader source codec digest packageId code limits state).1 = .ok reader ↔
        limits.Admits content ∧ ∃ model, readTritModel codec digest code content = .ok model ∧
          reader = ⟨⟨model.package.manifest, model.package.blobs, content.length,
            packageId content⟩, model.binding⟩ := by
    rw [(openModelReader_implements hserves limits state hstate).1]
    simp only [readTritModel, bindTritModelPayloads, bind_eq_ok_iff, mapErr_eq_ok_iff,
      admittedPackage_eq_ok_iff, pure_eq_ok, ok.injEq]
    constructor
    · rintro ⟨package, ⟨hadmits, hread⟩, manifest, hmanifest, binding, hbinding, rfl⟩
      obtain rfl := bytes_of_read hread
      exact ⟨hadmits, _, ⟨package, hread, manifest, hmanifest, binding,
        (run_served_eq_ok_iff hread).mp hbinding, rfl⟩, rfl⟩
    · rintro ⟨hadmits, _, ⟨package, hread, manifest, hmanifest, binding, hbinding, rfl⟩, rfl⟩
      obtain rfl := bytes_of_read hread
      exact ⟨package, ⟨hadmits, hread⟩, manifest, hmanifest, binding,
        (run_served_eq_ok_iff hread).mpr hbinding, rfl⟩
  refine ⟨hiff, ?_, ?_⟩
  · intro reader model hopen hmodel
    obtain ⟨_, model', hmodel', rfl⟩ := (hiff reader).mp hopen
    obtain rfl := ok.inj (hmodel.symm.trans hmodel')
    simp
  · intro package hread requests blob offset count call answer
    obtain rfl := bytes_of_read hread
    have hcall (request : ℕ × ℕ × ℕ) : Implements (Held digest package stands)
        (call request) (servedRange ι package request.1 request.2.1 request.2.2) :=
      cachedRange_implements packageId hread hserves request.1 request.2.1 request.2.2
    have hanswer : answer = servedRange ι package blob offset count :=
      (hcall (blob, offset, count) _ (Implements.reached hcall requests (held_new hstate))).1
    rw [hanswer]
    refine ⟨fun entry hentry hrange => ?_, servedRange_refused⟩
    obtain ⟨bytes, hbytes, hlength⟩ := exists_blob hread hentry
    exact ⟨bytes, hbytes, (servedRange_eq_ok_iff hread).mpr
      (borrowedRange_of_le ⟨entry, hentry, hbytes, hlength.symm⟩ (by omega))⟩

/-- Decodes one manifest, to a level with one tensor of a single byte. -/
def sampleCode : ModelCode where
  decodeModelManifest bytes := if bytes ≠ sampleManifest then .err .manifest else
    .ok ⟨(1, 0), "sample", [], [⟨"base", .imported, [⟨"w", ⟨headDigest [3], none⟩, .additive
      ⟨1, 1, 256, 32, 1, .uniform, .d2, ⟨.group, .free, .f16⟩, .identity, .raw⟩ (.uniform 1)⟩]⟩],
      [], []⟩
  validate _ := .ok ()
  encodeMetadata _ := .ok []
  deriveKey _ := headDigest
  PayloadPlan := ℕ
  newPlan _ _ length := .ok length
  tritCount := id
  scaleLen _ := 0
  validatePlan _ _ := pure ()
  visitTrits plan blob := Ranged.readRange blob 0 plan
  visitScaleBytes _ _ := pure []
  isLogicalPrefixOf _ _ _ _ := pure true

theorem tritModelReader_agrees_sample :
    ∃ reader,
      (openModelReader Seekable.cursor Cbor.profileCodec headDigest headDigest sampleCode
        ⟨usizeMax, usizeMax, usizeMax⟩
        (packageOf headDigest sampleManifest sampleBlobs, 7)).1 = .ok reader ∧
      reader.binding.tensorDigest "base" "w" =
        .ok (headDigest (frameLength 0 ++ frameLength 1 ++ [3])) := by
  have hevaluated : (readTritModel Cbor.profileCodec headDigest sampleCode
      (packageOf headDigest sampleManifest sampleBlobs) >>= fun model =>
        model.binding.tensorDigest "base" "w") =
      .ok (headDigest (frameLength 0 ++ frameLength 1 ++ [3])) := by
    decide +kernel
  obtain ⟨model, hmodel, hdigest⟩ := bind_eq_ok hevaluated
  obtain ⟨hopen, _⟩ := tritModelReader_agrees Cbor.profileCodec headDigest headDigest sampleCode
    ⟨usizeMax, usizeMax, usizeMax⟩ Seekable.cursor _ _
    (Seekable.cursor_serves (packageOf headDigest sampleManifest sampleBlobs))
    (packageOf headDigest sampleManifest sampleBlobs, 7) ⟨7, rfl⟩
  exact ⟨_, (hopen _).mpr ⟨sample_admitted, model, hmodel, rfl⟩, hdigest⟩

end Tritium.Model
