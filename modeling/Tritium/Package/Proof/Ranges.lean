import Tritium.Lib.Collect
import Tritium.Package.Reader
import Tritium.Package.Proof.Directory

/-!
# The ranges of an accepted package

The sort and the sweep of the reader account for every byte between the header and the manifest: a
byte there belongs to the payload of one digest, or it is zero.
-/

namespace Tritium.Package

open Cbor Packing

variable {digest : List UInt8 → Digest} {bytes : List UInt8} {manifestOffset stop start : ℕ}
  {ranges : List (ℕ × ℕ)} {α : Type}

def blobRange (blob : TritBlobInfo) : ℕ × ℕ :=
  (blob.offset.toNat, blob.offset.toNat + blob.length.toNat)

/-- The place of a payload: aligned, behind the header and in front of the manifest. -/
structure Placed (manifestOffset : ℕ) (blob : TritBlobInfo) : Prop where
  small : blob.offset.toNat + blob.length.toNat < 2 ^ 64
  behind_header : tritHeaderBytes ≤ blob.offset.toNat
  aligned : blob.offset.toNat % tritBlobAlignment = 0
  before_manifest : blob.offset.toNat + blob.length.toNat ≤ manifestOffset

def Holds (digest : List UInt8 → Digest) (bytes : List UInt8) (blob : TritBlobInfo) : Prop :=
  ∃ content, subslice bytes (blobRange blob).1 (blobRange blob).2 = some content ∧
    digest content = blob.id

theorem digest_borrowed_eq_ok_iff {id : Digest} :
    (borrowedRanges digest bytes).digest start stop = .ok id ↔
      ∃ content, subslice bytes start stop = some content ∧ digest content = id := by
  rw [borrowedRanges, bind_eq_ok_iff]
  simp only [okOr_eq_ok_iff, pure_eq_ok, ok.injEq]

theorem isZero_borrowed_eq_ok_iff :
    (borrowedRanges digest bytes).isZero start stop = .ok true ↔ Zeros bytes start stop := by
  rw [borrowedRanges, bind_eq_ok_iff]
  simp only [okOr_eq_ok_iff, pure_eq_ok, ok.injEq, List.all_eq_true, decide_eq_true_eq]
  rfl

theorem refuse_borrowed (error : TritPackageError) :
    (borrowedRanges digest bytes).refuse error = (.err error : Outcome TritPackageError α) := rfl

theorem any_ne_iff [DecidableEq α] (x : Option α) (value : α) :
    ¬ x.any (· ≠ value) = true ↔ ∀ old ∈ x, old = value := by
  cases x <;> simp

theorem checkBlob_eq_ok_iff (unique : DigestMap (ℕ × ℕ)) (blob : TritBlobInfo)
    (unique' : DigestMap (ℕ × ℕ)) :
    checkBlob (borrowedRanges digest bytes) manifestOffset unique blob = .ok unique' ↔
      (Placed manifestOffset blob ∧ Holds digest bytes blob) ∧
        (∀ old ∈ unique[blob.id]?, old = blobRange blob) ∧
        unique.insert blob.id (blobRange blob) = unique' := by
  rw [checkBlob]
  by_cases hsmall : blob.offset.toNat + blob.length.toNat < 2 ^ 64
  · rw [checkedAdd_of_lt hsmall]
    simp only [refuse_borrowed]
    rw [refuse_eq_ok_iff, refuse_eq_ok_iff, bind_eq_ok_iff, any_ne_iff]
    simp only [digest_borrowed_eq_ok_iff, refuse_eq_ok_iff, not_not, pure_eq_ok,
      ok.injEq, not_or, not_lt]
    constructor
    · rintro ⟨⟨hheader, haligned, hmanifest⟩, hold, id, ⟨content, hcontent, hdigest⟩, rfl, hinsert⟩
      exact ⟨⟨⟨hsmall, hheader, haligned, hmanifest⟩, content, hcontent, hdigest⟩, hold, hinsert⟩
    · rintro ⟨⟨⟨_, hheader, haligned, hmanifest⟩, content, hcontent, hdigest⟩, hold, hinsert⟩
      exact ⟨⟨hheader, haligned, hmanifest⟩, hold, blob.id, ⟨content, hcontent, hdigest⟩, rfl,
        hinsert⟩
  · rw [checkedAdd, if_neg hsmall]
    refine iff_of_false (fun heq => by cases heq) ?_
    rintro ⟨⟨hplaced, _⟩, _⟩
    exact hsmall hplaced.small

theorem zeroGuard_eq_ok_iff {value result : α} :
    (do
      let zero ← (borrowedRanges digest bytes).isZero start stop
      if zero then return value else .err .invalidDirectory) = .ok result ↔
      Zeros bytes start stop ∧ value = result := by
  simp [bind_eq_ok_iff, pure_eq_ok, ok.injEq, isZero_borrowed_eq_ok_iff]

theorem sweepRange_eq_ok_iff {cursor next : ℕ} {range : ℕ × ℕ} :
    sweepRange (borrowedRanges digest bytes) cursor range = .ok next ↔
      Zeros bytes cursor range.1 ∧ range.2 = next := by
  rw [sweepRange, refuse_borrowed, refuse_eq_ok_iff, zeroGuard_eq_ok_iff]
  exact ⟨fun hswept => hswept.2, fun hzeros => ⟨not_lt.mpr hzeros.1.le, hzeros⟩⟩

/-- The sweep and the last gap together account for everything up to the end. -/
theorem foldlM_sweepRange_iff {cursor : ℕ} :
    (∃ last, ranges.foldlM (sweepRange (borrowedRanges digest bytes)) cursor = .ok last ∧
      Zeros bytes last stop) ↔ Swept bytes stop cursor ranges := by
  induction ranges generalizing cursor with
  | nil => simp only [List.foldlM_nil, pure_eq_ok, ok.injEq, exists_eq_left', Swept]
  | cons range ranges ih =>
    simp only [List.foldlM_cons, bind_eq_ok_iff, sweepRange_eq_ok_iff, existsAndEq, and_assoc,
      exists_and_left, true_and, ih, Swept]

theorem sortBy_ranges_eq_self (hranges : ∀ range ∈ ranges, range.1 ≤ range.2)
    (hapart : ranges.Pairwise fun left right => left.2 ≤ right.1) :
    sortBy compareRanges ranges = ranges := by
  apply sortBy_eq_self
  refine hapart.imp_of_mem ?_
  intro left right hleft hright hle
  rw [compareRanges, Ordering.isLE_then_iff_or]
  rcases lt_or_eq_of_le ((hranges left hleft).trans hle) with hlt | heq
  · exact .inl (Nat.compare_eq_lt.mpr hlt)
  · exact .inr ⟨Nat.compare_eq_eq.mpr heq, Nat.isLE_compare.mpr (hle.trans (hranges right hright))⟩

def payloadRanges (blobs : List TritBlobInfo) : List (ℕ × ℕ) :=
  (collect Digest.compare TritBlobInfo.id blobRange blobs).toList.map Prod.snd

/-- What the reader establishes about the entries of the directory. -/
@[mk_iff]
structure Accounted (digest : List UInt8 → Digest) (bytes : List UInt8) (manifestOffset : ℕ)
    (blobs : List TritBlobInfo) : Prop where
  placed : ∀ blob ∈ blobs, Placed manifestOffset blob
  holds : ∀ blob ∈ blobs, Holds digest bytes blob
  shared : Consistent TritBlobInfo.id blobRange blobs
  swept : Swept bytes manifestOffset tritHeaderBytes (sortBy compareRanges (payloadRanges blobs))

theorem validateBlobRanges_eq_ok_iff {blobs : List TritBlobInfo} :
    validateBlobRanges (borrowedRanges digest bytes) manifestOffset blobs = .ok () ↔
      Accounted digest bytes manifestOffset blobs := by
  simp only [validateBlobRanges, bind_eq_ok_iff, foldlM_collect_iff Digest.compare
    checkBlob_eq_ok_iff, existsAndEq, Bool.exists_bool, Bool.false_eq_true, if_false, if_true,
    refuse_borrowed, reduceCtorEq, and_false, false_or, pure_eq_ok, isZero_borrowed_eq_ok_iff,
    foldlM_sweepRange_iff, accounted_iff, payloadRanges, imp_and, forall_and, and_assoc, and_true,
    true_and]

end Tritium.Package
