import Tritium.Package.Directory
import Tritium.Package.Proof.Scanner

/-!
# The directory codec is a bijection

Both decoders are compared with one value of the deterministic profile, the directory as it stands
on the wire. The borrowed decoder returns a list exactly from the encoding of that list.
-/

namespace Tritium.Package

open List
open Cbor

variable {kind : TritBlobKind} {position stop : ℕ} {blobs : List TritBlobInfo}
  {bytes : List UInt8}
  {keysOk : List Scalar → Prop} {aux : Option String}

def unsignedScalar (value : UInt64) : Scalar := .integer (WireInteger.ofUInt64 value)

def auxScalar : Option String → Scalar
  | none => .null
  | some name => .text name

def entryFields (entry : DirectoryEntry) : List Value :=
  [.scalar (.bytes entry.id.bytes), .scalar (unsignedScalar entry.kind),
    .scalar (auxScalar entry.aux), .scalar (unsignedScalar entry.offset),
    .scalar (unsignedScalar entry.length)]

def wireKind : TritBlobKind → UInt64 × Option String
  | .additiveTensor => (tritBlobKindAdditive, none)
  | .denseTensor dtype => (tritBlobKindDense, some dtype.toString)
  | .asset name => (tritBlobKindAsset, some name)

def wireEntry (blob : TritBlobInfo) : DirectoryEntry :=
  ⟨blob.id, (wireKind blob.kind).1, (wireKind blob.kind).2, blob.offset, blob.length⟩

def entryItem (blob : TritBlobInfo) : Value := .array (entryFields (wireEntry blob))

def directoryItem (blobs : List TritBlobInfo) : Value :=
  .array [.scalar (unsignedScalar directoryVersion), .array (blobs.map entryItem)]

def TritBlobKind.Named : TritBlobKind → Prop
  | .asset name => name ≠ ""
  | _ => True

theorem dtypeFromStr_eq_some_iff {name : String} {dtype : DType} :
    dtypeFromStr name = some dtype ↔ dtype.toString = name := by
  constructor
  · intro hfound
    obtain ⟨entry, hentry, hname⟩ := exists_of_findSome?_eq_some hfound
    obtain ⟨rfl, rfl⟩ : entry.1 = name ∧ entry.2 = dtype := by
      rwa [Option.ite_none_right_eq_some, Option.some.injEq] at hname
    have htable : ∀ entry ∈ tritDtypeText, entry.2.toString = entry.1 := by decide
    exact htable entry hentry
  · rintro rfl
    cases dtype <;> decide

theorem borrowedKind_eq_some_iff {tag : UInt64} :
    borrowedKind tag aux = some kind ↔ wireKind kind = (tag, aux) ∧ kind.Named := by
  cases aux with
  | none =>
    rw [borrowedKind]
    cases kind <;> simp [wireKind, TritBlobKind.Named, eq_comm]
  | some name =>
    rw [borrowedKind]
    by_cases hdense : tag = tritBlobKindDense
    · rw [if_pos hdense, hdense, Option.map_eq_some_iff]
      simp only [dtypeFromStr_eq_some_iff]
      cases kind <;>
        simp [wireKind, TritBlobKind.Named, tritBlobKindDense, tritBlobKindAsset,
          tritBlobKindAdditive]
    · rw [if_neg hdense, Option.ite_none_right_eq_some, Option.some.injEq]
      cases kind with
      | additiveTensor => simp [wireKind]
      | denseTensor dtype => simp [wireKind, Ne.symm hdense]
      | asset other =>
        rw [TritBlobKind.asset.injEq, wireKind, Prod.mk.injEq, Option.some.injEq]
        constructor
        · rintro ⟨⟨rfl, hname⟩, rfl⟩
          exact ⟨⟨rfl, rfl⟩, hname⟩
        · rintro ⟨⟨rfl, rfl⟩, hname⟩
          exact ⟨⟨rfl, hname⟩, rfl⟩

theorem unsignedScalar_encode (value : UInt64) :
    (unsignedScalar value).encode = headBytes 0 value.toNat :=
  append_nil _

section Borrowed

variable (hsmall : bytes.length < 2 ^ 64) {remaining : ℕ}

include hsmall

theorem unsigned_eq_ok_iff {value : UInt64} :
    unsigned bytes position = .ok (value, stop) ↔
      subslice bytes position stop = some (unsignedScalar value).encode := by
  simp only [unsigned, unsignedScalar_encode, bind_eq_ok_iff, Prod.exists, Head.exists_iff,
    refuse_eq_ok_iff, not_not, existsAndEq, head_eq_ok_iff_of_le hsmall, Nat.zero_le, pure_eq_ok,
    ok.injEq, Prod.mk.injEq, true_and, and_assoc, and_true]
  constructor
  · rintro ⟨argument, hargument, hbytes, rfl⟩
    rwa [UInt64.toNat_ofNat_of_lt' hargument]
  · exact fun hbytes => ⟨value.toNat, value.toNat_lt, hbytes, UInt64.ofNat_toNat⟩

theorem readId_eq_ok_iff {id : Digest} :
    Directory.readId bytes position = .ok (id, stop) ↔
      subslice bytes position stop = some (Scalar.bytes id.bytes).encode := by
  simp [Directory.readId, Scalar.encode, Scalar.major, Scalar.argument, Scalar.content,
    id.length_eq, subslice_append_iff, bind_eq_ok_iff, Head.exists_iff, refuse_eq_ok_iff,
    take_eq_ok_iff hsmall, okOr_eq_ok_iff, Digest.ofBytes_eq_some_iff, pure_eq_ok, ok.injEq,
    head_eq_ok_iff_of_le hsmall]

theorem readAux_eq_ok_iff :
    Directory.readAux bytes position = .ok (aux, stop) ↔
      subslice bytes position stop = some (auxScalar aux).encode := by
  simp only [Directory.readAux, bind_eq_ok_iff, Prod.exists, Head.exists_iff, ite_eq_iff,
    reduceCtorEq, and_false, or_false, sub_eq_ok_iff, count_eq_ok_iff one_pos,
    take_eq_ok_iff hsmall, okOr_eq_ok_iff, fromUtf8_eq_some_iff, pure_eq_ok, ok.injEq,
    Prod.mk.injEq, and_or_left, exists_or, existsAndEq, and_assoc, head_eq_ok_iff_of_le hsmall,
    Nat.reduceLeDiff, true_and, and_true]
  cases aux with
  | none =>
    simp only [reduceCtorEq, and_false, exists_false, or_false, and_true, auxScalar, Scalar.encode,
      Scalar.major, Scalar.argument, Scalar.content, append_nil, head_eq_ok_iff hsmall]
    exact and_iff_right (.inr (by decide))
  | some text =>
    simp only [reduceCtorEq, and_false, false_or, auxScalar, Scalar.encode, Scalar.major,
      Scalar.argument, Scalar.content, subslice_append_iff, Option.some.injEq, existsAndEq, and_true]
    refine exists_congr fun middle => ⟨fun haux => ⟨haux.2.1, haux.2.2.2.2.2.2⟩, ?_⟩
    rintro ⟨hhead, hcontent⟩
    obtain ⟨_, _, _⟩ := subslice_eq_some_iff.mp hcontent
    have hlength := add_length_of_subslice hcontent
    exact ⟨by omega, hhead, by omega, by omega, by omega, by omega, hcontent⟩

theorem readEntry_eq_ok_iff {entry : DirectoryEntry} :
    Directory.readEntry bytes position = .ok (entry, stop) ↔
      subslice bytes position stop = some (Value.array (entryFields entry)).encode := by
  obtain ⟨id, kind, aux, offset, length⟩ := entry
  simp [Directory.readEntry, entryFields, encodeItems, Value.encode, subslice_append_iff,
    bind_eq_ok_iff, Head.exists_iff, refuse_eq_ok_iff, readId_eq_ok_iff hsmall, unsigned_eq_ok_iff
    hsmall, readAux_eq_ok_iff hsmall, pure_eq_ok, ok.injEq, DirectoryEntry.mk.injEq,
    head_eq_ok_iff_of_le hsmall]

theorem new_eq_ok_iff :
    Directory.new bytes = .ok ⟨position, remaining⟩ ↔
      validateWithLimit bytes (UInt64.ofNat maxDirectoryBytes) = .ok () ∧
      remaining < 2 ^ 64 ∧ remaining ≤ bytes.length - position ∧
      subslice bytes 0 position = some (headBytes 4 2 ++
        ((unsignedScalar directoryVersion).encode ++ headBytes 4 remaining)) := by
  simp only [Directory.new, subslice_append_iff, bind_eq_ok_iff, Unique.exists_iff,
    PUnit.default_eq_unit, Prod.exists, Head.exists_iff, refuse_eq_ok_iff, not_or, not_not,
    unsigned_eq_ok_iff hsmall, sub_eq_ok_iff, count_eq_ok_iff one_pos, mul_one, pure_eq_ok,
    ok.injEq, Directory.mk.injEq, head_eq_ok_iff_of_le hsmall, Nat.reduceLeDiff, existsAndEq,
    and_assoc, Nat.reducePow, Nat.reduceLT, and_true, true_and]
  constructor
  · rintro ⟨hvalid, first, hroot, second, hversion, hlength, hentries, _, _, hfits⟩
    exact ⟨hvalid, hlength, hfits, first, hroot, second, hversion, hentries⟩
  · rintro ⟨hvalid, hlength, hfits, first, hroot, second, hversion, hentries⟩
    exact ⟨hvalid, first, hroot, second, hversion, hlength, hentries,
      (subslice_eq_some_iff.mp hentries).2.1, hlength, hfits⟩

/-- The loop reads the announced entries up to the end of the bytes, whatever was found before. -/
theorem borrowedBlobs_eq_ok_iff {found : List TritBlobInfo} (hposition : position ≤ bytes.length) :
    borrowedBlobs bytes (remaining + 1) ⟨position, remaining⟩ found = .ok (some blobs) ↔
      ∃ rest, blobs = found ++ rest ∧ rest.length = remaining ∧ (∀ blob ∈ rest, blob.kind.Named) ∧
        subslice bytes position bytes.length = some (encodeItems (rest.map entryItem)) := by
  induction remaining generalizing position found with
  | zero =>
    rw [borrowedBlobs, Directory.next]
    by_cases hend : position = bytes.length
    · rw [if_pos hend]
      simp only [ok.injEq, Option.some.injEq]
      constructor
      · rintro rfl
        refine ⟨[], (append_nil _).symm, rfl, by simp, ?_⟩
        rw [hend]
        exact subslice_self le_rfl
      · rintro ⟨rest, rfl, hrest, _⟩
        rw [eq_nil_of_length_eq_zero hrest, append_nil]
    · rw [if_neg hend]
      simp only [ok.injEq, reduceCtorEq, false_iff]
      rintro ⟨rest, _, hrest, _, hbytes⟩
      rw [eq_nil_of_length_eq_zero hrest] at hbytes
      exact hend (eq_of_subslice_nil hbytes).symm
  | succ remaining ih =>
    rw [borrowedBlobs, Directory.next]
    dsimp only
    constructor
    · intro hloop
      rcases hentry : Directory.readEntry bytes position with ⟨entry, next⟩ | _ | _
      all_goals rw [hentry] at hloop
      · dsimp only [ok_bind, pure_eq_ok] at hloop
        have hbytes := (readEntry_eq_ok_iff hsmall).mp hentry
        obtain ⟨_, hnext, _⟩ := subslice_eq_some_iff.mp hbytes
        cases hkind : borrowedKind entry.kind entry.aux with
        | none =>
          rw [hkind] at hloop
          cases hloop
        | some kind =>
          rw [hkind] at hloop
          obtain ⟨rest, hblobs, hlength, hnamed, hrest⟩ := (ih hnext).mp hloop
          obtain ⟨hwire, hname⟩ := borrowedKind_eq_some_iff.mp hkind
          refine ⟨⟨entry.id, kind, entry.offset, entry.length⟩ :: rest, ?_, ?_,
            forall_mem_cons.mpr ⟨hname, hnamed⟩, ?_⟩
          · simp [hblobs]
          · rw [length_cons, hlength]
          · rw [map_cons, encodeItems, subslice_append_iff]
            refine ⟨next, ?_, hrest⟩
            rw [entryItem, wireEntry]
            rw [hwire]
            exact hbytes
      all_goals cases hloop
    · rintro ⟨rest, rfl, hlength, hnamed, hbytes⟩
      cases rest with
      | nil => cases hlength
      | cons blob rest =>
        obtain ⟨hname, hnamed⟩ := forall_mem_cons.mp hnamed
        rw [map_cons, encodeItems, subslice_append_iff] at hbytes
        obtain ⟨next, hfirst, hrest⟩ := hbytes
        obtain ⟨_, hnext, _⟩ := subslice_eq_some_iff.mp hfirst
        have hkind : borrowedKind (wireEntry blob).kind (wireEntry blob).aux =
            some blob.kind := borrowedKind_eq_some_iff.mpr ⟨rfl, hname⟩
        rw [(readEntry_eq_ok_iff hsmall).mpr hfirst, ok_bind]
        dsimp only [pure_eq_ok]
        rw [hkind]
        refine (ih hnext).mpr ⟨rest, ?_, Nat.succ.inj hlength, hnamed, hrest⟩
        rw [append_assoc]
        rfl

end Borrowed

instance : Std.TransCmp compareKinds :=
  transCmp_comap (compareLex (compareOn Prod.fst) (compareOn Prod.snd)) kindSortKey

instance : Std.TransCmp compareBlobEntries := by
  have hfirst := transCmp_comap Digest.compare TritBlobInfo.id
  have hsecond := transCmp_comap compareKinds TritBlobInfo.kind
  exact inferInstanceAs (Std.TransCmp (compareLex
    (fun left right : TritBlobInfo => Digest.compare left.id right.id)
    (fun left right => compareKinds left.kind right.kind)))

/-- The entries of a directory in their order: by digest, then by kind, without repetition. -/
def Sorted (blobs : List TritBlobInfo) : Prop :=
  blobs.Pairwise fun left right => compareBlobEntries left right = .lt

theorem outOfOrder_eq_false_iff : outOfOrder blobs = false ↔ Sorted blobs := by
  have htrans : Trans (fun left right => compareBlobEntries left right = .lt)
      (fun left right => compareBlobEntries left right = .lt)
      (fun left right => compareBlobEntries left right = .lt) :=
    ⟨fun hleft hright => Std.TransCmp.lt_trans hleft hright⟩
  rw [outOfOrder, neighboursAny_eq_false_iff, Sorted, ← isChain_iff_pairwise]
  refine List.IsChain.iff fun left right => ?_
  cases compareBlobEntries left right <;> decide

/-! ### The borrowed decoder -/

structure Listable (blobs : List TritBlobInfo) : Prop where
  sorted : Sorted blobs
  count_le : blobs.length ≤ maxBlobs
  named : ∀ blob ∈ blobs, blob.kind.Named

theorem entryItem_nested (blob : TritBlobInfo) : Nested keysOk 64 2 (entryItem blob) := by
  refine .array (by decide) ?_
  simp only [entryFields, forall_mem_cons]
  exact ⟨.scalar _ (by decide), .scalar _ (by decide), .scalar _ (by decide),
    .scalar _ (by decide), .scalar _ (by decide), by simp⟩

theorem directoryItem_nested (blobs : List TritBlobInfo) :
    Nested keysOk 64 0 (directoryItem blobs) := by
  refine .array (by decide) ?_
  simp only [forall_mem_cons]
  refine ⟨.scalar _ (by decide), .array (by decide) ?_, by simp⟩
  rw [forall_mem_map]
  exact fun blob _ => entryItem_nested blob

theorem directoryItem_encode (blobs : List TritBlobInfo) :
    (directoryItem blobs).encode =
      headBytes 4 2 ++ ((unsignedScalar directoryVersion).encode ++ headBytes 4 blobs.length) ++
        encodeItems (blobs.map entryItem) := by
  simp [directoryItem, encodeItems, Value.encode]

theorem toNat_maxDirectoryBytes : (UInt64.ofNat maxDirectoryBytes).toNat = maxDirectoryBytes := by
  decide

theorem length_le_of_new {directory : Directory}
    (hnew : Directory.new bytes = .ok directory) : bytes.length ≤ maxDirectoryBytes := by
  rw [Directory.new] at hnew
  obtain ⟨_, hvalid, _⟩ := bind_eq_ok hnew
  have hlength := ((validateWithLimit_iff_encoding _ _).mp hvalid).2.1
  rwa [toNat_maxDirectoryBytes] at hlength

theorem small_of_length_le (hlength : bytes.length ≤ maxDirectoryBytes) : bytes.length < 2 ^ 64 :=
  lt_of_le_of_lt hlength (by decide)

theorem new_directoryItem (hlength : (directoryItem blobs).encode.length ≤ maxDirectoryBytes) :
    ∃ position, position ≤ (directoryItem blobs).encode.length ∧
      Directory.new (directoryItem blobs).encode = .ok ⟨position, blobs.length⟩ ∧
      subslice (directoryItem blobs).encode position (directoryItem blobs).encode.length =
        some (encodeItems (blobs.map entryItem)) := by
  have hsmall := small_of_length_le hlength
  have hvalid : validateWithLimit (directoryItem blobs).encode (UInt64.ofNat maxDirectoryBytes) =
      .ok () := by
    rw [validateWithLimit_iff_encoding]
    exact ⟨Value.encode_length_pos _, hlength, directoryItem blobs, directoryItem_nested blobs, rfl⟩
  have hwhole := subslice_whole_iff.mpr (directoryItem_encode blobs).symm
  obtain ⟨position, hfront, hentries⟩ := subslice_append_iff.mp hwhole
  obtain ⟨_, hposition, _⟩ := subslice_eq_some_iff.mp hfront
  have hroom := (length_le_encodeItems (blobs.map entryItem)).trans
    (length_le_of_subslice hentries)
  rw [length_map] at hroom
  refine ⟨position, hposition, ?_, hentries⟩
  exact (new_eq_ok_iff hsmall).mpr ⟨hvalid, by omega, hroom, hfront⟩

/-- **The borrowed decoder** returns a list exactly from its encoding. -/
theorem decodeBorrowedDirectory_eq_ok_iff :
    decodeBorrowedDirectory bytes = .ok (some blobs) ↔
      Listable blobs ∧ bytes.length ≤ maxDirectoryBytes ∧ (directoryItem blobs).encode = bytes := by
  rw [decodeBorrowedDirectory]
  constructor
  · intro hdecode
    rcases hnew : Directory.new bytes with ⟨position, remaining⟩ | _ | _
    all_goals rw [hnew] at hdecode
    · have hlength := length_le_of_new hnew
      have hsmall := small_of_length_le hlength
      obtain ⟨_, _, _, hfront⟩ := (new_eq_ok_iff hsmall).mp hnew
      obtain ⟨_, hposition, _⟩ := subslice_eq_some_iff.mp hfront
      dsimp only at hdecode
      split_ifs at hdecode with hmany
      · cases hdecode
      obtain ⟨_ | found, hloop, hchecked⟩ := bind_eq_ok hdecode
      · cases hchecked
      obtain ⟨rest, rfl, rfl, hnamed, hentries⟩ :=
        (borrowedBlobs_eq_ok_iff hsmall hposition).mp hloop
      dsimp only at hchecked
      split_ifs at hchecked with horder
      · cases hchecked
      rw [ok.injEq, Option.some.injEq] at hchecked
      subst hchecked
      refine ⟨⟨outOfOrder_eq_false_iff.mp (Bool.not_eq_true _ ▸ horder), not_lt.mp hmany, hnamed⟩,
        hlength, ?_⟩
      rw [directoryItem_encode]
      exact subslice_whole_iff.mp (subslice_append_iff.mpr ⟨position, hfront, hentries⟩)
    all_goals cases hdecode
  · rintro ⟨hlistable, hlength, rfl⟩
    have hsmall := small_of_length_le hlength
    obtain ⟨position, hposition, hnew, hentries⟩ := new_directoryItem hlength
    rw [hnew]
    dsimp only
    rw [if_neg (not_lt.mpr hlistable.count_le), (borrowedBlobs_eq_ok_iff hsmall hposition).mpr
      ⟨blobs, rfl, rfl, hlistable.named, hentries⟩, ok_bind]
    dsimp only
    simp [outOfOrder_eq_false_iff.mpr hlistable.sorted]

/-! ### The encoder and the reference decoder -/

variable {codec : Codec} {blob : TritBlobInfo}

theorem entryItem_toItem (blob : TritBlobInfo) :
    (entryItem blob).toItem =
      .array (.bytes blob.id.bytes :: directoryFields blob.kind blob.offset blob.length) := by
  obtain ⟨id, kind, offset, length⟩ := blob
  cases kind <;> rfl

theorem directoryItem_toItem (blobs : List TritBlobInfo) :
    (directoryItem blobs).toItem = directoryValue (blobs.map fun blob =>
      .array (.bytes blob.id.bytes :: directoryFields blob.kind blob.offset blob.length)) := by
  rw [directoryItem]
  simp only [toItems, Value.toItem, toItems_eq, map_map, Function.comp_def, entryItem_toItem]
  rfl

theorem encodeDirectory_eq (hwrites : codec.WritesMinimal) (blobs : List TritBlobInfo) :
    encodeDirectory codec blobs = .ok (directoryItem blobs).encode := by
  rw [encodeDirectory, ← directoryItem_toItem, encodeCborValue, hwrites]
  rfl

theorem integer_unsignedItem (value : UInt64) : integer (unsignedItem value) = .ok value := by
  exact congrArg Outcome.ok UInt64.ofNat_toNat

theorem decodeKind_encodeKind (hnamed : kind.Named) :
    decodeKind (encodeKind kind).1 (encodeKind kind).2 = .ok kind := by
  cases kind with
  | additiveTensor => rfl
  | denseTensor dtype =>
    rw [encodeKind, decodeKind, dtypeFromStr_eq_some_iff.mpr rfl]
    rfl
  | asset name =>
    have hother : tritBlobKindAsset ≠ tritBlobKindDense := by decide
    rw [encodeKind, decodeKind, if_neg hother, if_pos ⟨rfl, hnamed⟩]

theorem referenceEntry_toItem (hnamed : blob.kind.Named) :
    referenceEntry (entryItem blob).toItem = .ok blob := by
  rw [entryItem_toItem, directoryFields, referenceEntry, Digest.ofBytes_eq_some_iff.mpr rfl,
    okOr_bind, integer_unsignedItem, ok_bind,
    decodeKind_encodeKind hnamed, integer_unsignedItem, integer_unsignedItem]
  rfl

theorem mapM_referenceEntry (hnamed : ∀ blob ∈ blobs, blob.kind.Named) :
    (blobs.map fun blob => (entryItem blob).toItem).mapM referenceEntry = .ok blobs := by
  induction blobs with
  | nil => rfl
  | cons blob blobs ih =>
    obtain ⟨hname, hnamed⟩ := forall_mem_cons.mp hnamed
    simp [referenceEntry_toItem hname, ih hnamed]

theorem referenceEntries_toItem (hcount : blobs.length ≤ maxBlobs) :
    referenceEntries (directoryItem blobs).toItem =
      .ok (blobs.map fun blob => (entryItem blob).toItem) := by
  rw [directoryItem_toItem, directoryValue, referenceEntries, integer_unsignedItem,
    ok_bind, if_neg (not_not.mpr rfl), if_neg (by rwa [length_map, not_lt])]
  simp only [entryItem_toItem]

theorem decodeReferenceDirectory_encode (hwrites : codec.WritesMinimal)
    (hreads : codec.ReadsBack 64) (hlistable : Listable blobs)
    (hlength : (directoryItem blobs).encode.length ≤ maxDirectoryBytes) :
    decodeReferenceDirectory codec (directoryItem blobs).encode = .ok blobs := by
  rw [decodeReferenceDirectory, hreads _ (small_of_length_le hlength) (directoryItem_nested blobs),
    okOr_bind, encodeCborValue, hwrites, okOr_bind, if_neg (not_not.mpr rfl),
    referenceEntries_toItem hlistable.count_le,
    ok_bind, mapM_referenceEntry hlistable.named, ok_bind,
    outOfOrder_eq_false_iff.mpr hlistable.sorted, if_neg Bool.false_ne_true,
    encodeDirectory_eq hwrites, ok_bind, if_neg (not_not.mpr rfl)]

theorem decodeDirectory_encode (hlistable : Listable blobs)
    (hlength : (directoryItem blobs).encode.length ≤ maxDirectoryBytes) :
    decodeDirectory codec (directoryItem blobs).encode = .ok blobs := by
  rw [decodeDirectory, decodeBorrowedDirectory_eq_ok_iff.mpr ⟨hlistable, hlength, rfl⟩]
  rfl

theorem named_of_decodeKind {tag : UInt64} {aux : Item}
    (hkind : decodeKind tag aux = .ok kind) : kind.Named := by
  cases aux with
  | null =>
    rw [decodeKind, require_eq_ok_iff, ok.injEq] at hkind
    rw [← hkind.2]
    trivial
  | text name =>
    rw [decodeKind] at hkind
    split at hkind
    · rw [okOr_eq_ok_iff, Option.map_eq_some_iff] at hkind
      obtain ⟨dtype, _, rfl⟩ := hkind
      trivial
    · rw [require_eq_ok_iff, ok.injEq] at hkind
      rw [← hkind.2]
      exact hkind.1.2
  | _ => cases hkind

theorem named_of_referenceEntry {item : Item} (hentry : referenceEntry item = .ok blob) :
    blob.kind.Named := by
  rw [referenceEntry.eq_def] at hentry
  split at hentry
  · obtain ⟨_, _, hentry⟩ := bind_eq_ok hentry
    obtain ⟨_, _, hentry⟩ := bind_eq_ok hentry
    obtain ⟨kind, hkind, hentry⟩ := bind_eq_ok hentry
    obtain ⟨_, _, hentry⟩ := bind_eq_ok hentry
    obtain ⟨_, _, hblob⟩ := bind_pure_eq_ok hentry
    rw [← hblob]
    exact named_of_decodeKind hkind
  · cases hentry

theorem count_of_referenceEntries {value : Item} {entries : List Item}
    (hentries : referenceEntries value = .ok entries) : entries.length ≤ maxBlobs := by
  rw [referenceEntries.eq_def] at hentries
  split at hentries
  · obtain ⟨_, _, hentries⟩ := bind_eq_ok hentries
    obtain ⟨_, hentries⟩ := refuse_eq_ok hentries
    obtain ⟨hcount, hlist⟩ := refuse_eq_ok hentries
    rw [ok.injEq] at hlist
    rw [← hlist]
    omega
  · cases hentries

/-- Whichever path decodes a directory, it is the encoding of what was decoded. -/
theorem decodeDirectory_sound (hwrites : codec.WritesMinimal)
    (hdecode : decodeDirectory codec bytes = .ok blobs) :
    Listable blobs ∧ (directoryItem blobs).encode = bytes := by
  rw [decodeDirectory] at hdecode
  obtain ⟨borrowed, hborrowed, hdecode⟩ := bind_eq_ok hdecode
  cases borrowed with
  | some found =>
    obtain rfl : found = blobs := ok.inj hdecode
    obtain ⟨hlistable, _, hencode⟩ := decodeBorrowedDirectory_eq_ok_iff.mp hborrowed
    exact ⟨hlistable, hencode⟩
  | none =>
    rw [decodeReferenceDirectory] at hdecode
    obtain ⟨value, _, hdecode⟩ := bind_eq_ok hdecode
    obtain ⟨_, _, hdecode⟩ := bind_eq_ok hdecode
    obtain ⟨_, hdecode⟩ := refuse_eq_ok hdecode
    obtain ⟨entries, hentries, hdecode⟩ := bind_eq_ok hdecode
    obtain ⟨found, hfound, hdecode⟩ := bind_eq_ok hdecode
    obtain ⟨horder, hdecode⟩ := refuse_eq_ok hdecode
    rw [encodeDirectory_eq hwrites] at hdecode
    obtain ⟨hencode, hresult⟩ := refuse_eq_ok hdecode
    rw [ok.injEq] at hresult
    subst hresult
    refine ⟨⟨outOfOrder_eq_false_iff.mp (Bool.not_eq_true _ ▸ horder), ?_, ?_⟩, not_not.mp hencode⟩
    · rw [← (mapM_eq_ok_iff.mp hfound).length_eq]
      exact count_of_referenceEntries hentries
    · intro blob hblob
      obtain ⟨_, _, hentry⟩ := (mapM_eq_ok hfound).2 blob hblob
      exact named_of_referenceEntry hentry

/-- **The directory codec.** With a general codec that writes the profile in its least form, every
list of entries the writer can produce is decoded from its encoding. Conversely the borrowed decoder
returns a list from no bytes but the encoding of that list, and the reference decoder, where it
reads the profile back, returns the same list. -/
theorem decodeDirectory_bijective (codec : Codec) (hwrites : codec.WritesMinimal) :
    (∀ blobs, Listable blobs → ∃ bytes, encodeDirectory codec blobs = .ok bytes ∧
      (bytes.length ≤ maxDirectoryBytes → decodeDirectory codec bytes = .ok blobs)) ∧
    (∀ bytes blobs, decodeBorrowedDirectory bytes = .ok (some blobs) →
      encodeDirectory codec blobs = .ok bytes ∧
      (codec.ReadsBack 64 → decodeReferenceDirectory codec bytes = .ok blobs)) := by
  refine ⟨fun blobs hlistable => ?_, fun bytes blobs hdecode => ?_⟩
  · exact ⟨(directoryItem blobs).encode, encodeDirectory_eq hwrites blobs,
      fun hlength => decodeDirectory_encode hlistable hlength⟩
  · obtain ⟨hlistable, hlength, rfl⟩ := decodeBorrowedDirectory_eq_ok_iff.mp hdecode
    exact ⟨encodeDirectory_eq hwrites blobs, fun hreads =>
      decodeReferenceDirectory_encode hwrites hreads hlistable hlength⟩

/-- An asset and an empty tensor. -/
def twoBlobs : List TritBlobInfo :=
  [⟨⟨replicate 32 0, length_replicate⟩, .asset "x", 256, 3⟩,
    ⟨⟨replicate 31 0 ++ [1], rfl⟩, .additiveTensor, 512, 0⟩]

theorem decodeDirectory_bijective_two :
    ∃ bytes, encodeDirectory profileCodec twoBlobs = .ok bytes ∧
      decodeDirectory profileCodec bytes = .ok twoBlobs ∧
      decodeReferenceDirectory profileCodec bytes = .ok twoBlobs := by
  have hlistable : Listable twoBlobs :=
    ⟨outOfOrder_eq_false_iff.mp (by decide), by decide, by simp [twoBlobs, TritBlobKind.Named]⟩
  have hlength : (directoryItem twoBlobs).encode.length ≤ maxDirectoryBytes := by decide +kernel
  obtain ⟨hdecode, hreference⟩ := decodeDirectory_bijective profileCodec profileCodec_writesMinimal
  obtain ⟨bytes, hencode, hdecoded⟩ := hdecode twoBlobs hlistable
  have hbytes := ok.inj (hencode.symm.trans (encodeDirectory_eq profileCodec_writesMinimal _))
  rw [hbytes] at hdecoded hencode
  have hborrowed := decodeBorrowedDirectory_eq_ok_iff.mpr ⟨hlistable, hlength, rfl⟩
  exact ⟨_, hencode, hdecoded hlength,
    (hreference _ _ hborrowed).2 (profileCodec_readsBack 64)⟩

end Tritium.Package
